import EntitySql.Expr.Printer

-- Building expressions. A builder takes operands that may be empty and
-- refuses an empty one by its role; every node it makes gets a fresh
-- identity. Of several empty operands the rightmost is reported, and
-- arguments are looked at before the target of a call.

namespace EntitySql.Expr

-- A step that may fail and draws node identities from a counter. A failing
-- step keeps what it drew.
abbrev Build := ExceptT Error (StateM NodeId)

namespace Build

def fresh : Build NodeId := do
  let id ← get
  set (id + 1)
  return id

-- The operand, which must not be empty.
def require (operand : Operand) : Option Expr → Build Expr
  | some e => pure e
  | none => throw (.contract (.emptyExpression operand))

def parameter (p : Parameter) : Build Expr := do return .parameter (← fresh) p

def constant (v : Value) : Build Expr := do return .constant (← fresh) v

def captured (name : Text) (slot : Nat) : Build Expr := do
  return .captured (← fresh) name slot

def staticCall (method : Text) (args : List Expr) : Build Expr := do
  return .staticCall (← fresh) method args

def member (owner : Option Expr) (name : Text) : Build Expr := do
  let owner ← require .owner owner
  return .member (← fresh) owner name

-- A call on arguments that have been checked already.
def method (target : Option Expr) (name : Text) (args : List Expr) : Build Expr := do
  let target ← require .target target
  return .call (← fresh) target name args

def call (target : Option Expr) (name : Text) (args : List (Option Expr)) : Build Expr := do
  let args ← args.mapM (require .argument)
  method target name args

def binary (op : BinaryOp) (left right : Option Expr) : Build Expr := do
  let right ← require .right right
  let left ← require .left left
  return .binary (← fresh) op left right

def not (operand : Option Expr) : Build Expr := do
  let operand ← require .only operand
  return .not (← fresh) operand

def negate (operand : Option Expr) : Build Expr := do
  let operand ← require .only operand
  return .negate (← fresh) operand

def convert (operand : Option Expr) (type : Option FieldType) : Build Expr := do
  let operand ← require .only operand
  return .convert (← fresh) operand type

def conditional (test ifTrue ifFalse : Option Expr) : Build Expr := do
  let ifFalse ← require .branch ifFalse
  let ifTrue ← require .branch ifTrue
  let test ← require .condition test
  return .conditional (← fresh) test ifTrue ifFalse

def array (elements : List (Option Expr)) : Build Expr := do
  let elements ← elements.mapM (require .element)
  return .array (← fresh) elements

def initializer (entity : EntityType) (bindings : List (Text × Expr)) : Build Expr := do
  return .initializer (← fresh) entity bindings

def lambda (parameter body : Option Expr) : Build Expr := do
  match ← require .lambdaParameter parameter with
  | .parameter _ p =>
    let body ← require .lambdaBody body
    return .lambda (← fresh) p body
  | _ => throw (.contract .lambdaOverNonParameter)

-- A selector becomes a lambda over the first parameter that it mentions.
def asLambda (selector : Option Expr) : Build Expr := do
  let body ← require .selector selector
  match body with
  | .lambda .. => return body
  | _ =>
    match body.findParameter? with
    | none => throw (.contract (.selectorWithoutParameter body.text))
    | some root => return .lambda (← fresh) ⟨root.name, root.entity, false⟩ body

-- A call whose arguments are selectors over the rows of a group.
def aggregate (target : Option Expr) (name : Text) (selectors : List (Option Expr)) :
    Build Expr := do
  let args ← selectors.mapM asLambda
  method target name args

-- Methods of texts and collections.

def contains (target value : Option Expr) : Build Expr := call target "Contains" [value]
def startsWith (target value : Option Expr) : Build Expr := call target "StartsWith" [value]
def endsWith (target value : Option Expr) : Build Expr := call target "EndsWith" [value]
def equals (target value : Option Expr) : Build Expr := call target "Equals" [value]
def toUpper (target : Option Expr) : Build Expr := call target "ToUpper" []
def toLower (target : Option Expr) : Build Expr := call target "ToLower" []
def trim (target : Option Expr) : Build Expr := call target "Trim" []
def length (target : Option Expr) : Build Expr := member target "Length"

def substring (target start : Option Expr) : Build Expr := call target "Substring" [start]

def substringFor (target start count : Option Expr) : Build Expr :=
  call target "Substring" [start, count]

-- Parts of timestamps, and moving them.

def year (target : Option Expr) : Build Expr := call target "Year" []
def month (target : Option Expr) : Build Expr := call target "Month" []
def day (target : Option Expr) : Build Expr := call target "Day" []
def hour (target : Option Expr) : Build Expr := call target "Hour" []
def minute (target : Option Expr) : Build Expr := call target "Minute" []
def second (target : Option Expr) : Build Expr := call target "Second" []
def addDays (target n : Option Expr) : Build Expr := call target "AddDays" [n]
def addHours (target n : Option Expr) : Build Expr := call target "AddHours" [n]
def addMinutes (target n : Option Expr) : Build Expr := call target "AddMinutes" [n]
def addSeconds (target n : Option Expr) : Build Expr := call target "AddSeconds" [n]
def addMonths (target n : Option Expr) : Build Expr := call target "AddMonths" [n]
def addYears (target n : Option Expr) : Build Expr := call target "AddYears" [n]

-- Methods of numbers.

def abs (target : Option Expr) : Build Expr := call target "Abs" []
def floor (target : Option Expr) : Build Expr := call target "Floor" []
def ceiling (target : Option Expr) : Build Expr := call target "Ceiling" []
def round (target : Option Expr) : Build Expr := call target "Round" []
def roundTo (target digits : Option Expr) : Build Expr := call target "Round" [digits]
def sqrt (target : Option Expr) : Build Expr := call target "Sqrt" []

-- Groups: their key and their aggregates.

def key (target : Option Expr) : Build Expr := member target "Key"
def count (target : Option Expr) : Build Expr := call target "Count" []
def countWhere (target predicate : Option Expr) : Build Expr := aggregate target "Count" [predicate]
def sum (target selector : Option Expr) : Build Expr := aggregate target "Sum" [selector]
def average (target selector : Option Expr) : Build Expr := aggregate target "Average" [selector]
def max (target selector : Option Expr) : Build Expr := aggregate target "Max" [selector]
def min (target selector : Option Expr) : Build Expr := aggregate target "Min" [selector]

-- Builders by their names, for expressions that are given as data.

def unary : List (Text × (Option Expr → Build Expr)) :=
  [("toUpper", toUpper), ("toLower", toLower), ("trim", trim), ("length", length), ("year", year),
    ("month", month), ("day", day), ("hour", hour), ("minute", minute), ("second", second),
    ("abs", abs), ("floor", floor), ("ceiling", ceiling), ("round", round), ("sqrt", sqrt),
    ("key", key), ("count", count)]

def withArgument : List (Text × (Option Expr → Option Expr → Build Expr)) :=
  [("contains", contains), ("startsWith", startsWith), ("endsWith", endsWith),
    ("equals", equals), ("substring", substring), ("addDays", addDays), ("addHours", addHours),
    ("addMinutes", addMinutes), ("addSeconds", addSeconds), ("addMonths", addMonths),
    ("addYears", addYears), ("round", roundTo), ("count", countWhere), ("sum", sum),
    ("average", average), ("max", max), ("min", min)]

-- The builder of a name for as many arguments as there are.
def named? (name : Text) (target : Option Expr) (args : List (Option Expr)) :
    Option (Build Expr) :=
  match args with
  | [] => (unary.lookup name).map (· target)
  | [a] => (withArgument.lookup name).map (· target a)
  | [a, b] => if name == "substring" then some (substringFor target a b) else none
  | _ => none

end Build

end EntitySql.Expr
