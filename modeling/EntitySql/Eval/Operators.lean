import EntitySql.Expr.Printer
import EntitySql.Value.Access

-- The meaning of operators and methods on values. The expression they stand
-- in is passed along for the messages.

namespace EntitySql.Eval

-- Two numbers compare as integers if both are, or else as doubles; other
-- values compare only within one kind.
def compareValues (a b : Value) (source : Expr) : Result Ordering :=
  match a, b with
  | .int x, .int y => .ok (Value.order (.int x) (.int y))
  | _, _ =>
    if a.isNumeric && b.isNumeric then do
      let x ← a.asDouble
      let y ← b.asDouble
      return Json.orderDoubles x y
    else if a.kind = b.kind then .ok (Value.order a b)
    else .error (.unsupported (.comparison a.kind b.kind) source.text)

def holds : Comparison → Ordering → Bool
  | .less, o => o == .lt
  | .lessOrEqual, o => o != .gt
  | .greater, o => o == .gt
  | .greaterOrEqual, o => o != .lt

-- Equality widens an integer beside a double.
def valuesEqual (a b : Value) : Bool :=
  match a, b with
  | .int x, .double y => Binary64.ofInt x.toInt == y
  | .double x, .int y => x == Binary64.ofInt y.toInt
  | _, _ => a.same b

def plainText (v : Value) : Text := if v.isNull then [] else v.text

-- Division and remainder go toward zero.
def intArithmetic (op : Arithmetic) (x y : Int64) (source : Expr) : Result Value :=
  match op with
  | .add => .ok (.int (x + y))
  | .subtract => .ok (.int (x - y))
  | .multiply => .ok (.int (x * y))
  | .divide =>
    if y = 0 then .error (.engine (.divisionByZero source.text)) else .ok (.int (x / y))
  | .modulo =>
    if y = 0 then .error (.engine (.divisionByZero source.text)) else .ok (.int (x % y))

def doubleArithmetic (op : Arithmetic) (x y : Float) : Value :=
  match op with
  | .add => .double (x + y)
  | .subtract => .double (x - y)
  | .multiply => .double (x * y)
  | .divide => .double (x / y)
  | .modulo => .double (Binary64.remainder x y)

def numericArithmetic (op : Arithmetic) (a b : Value) (source : Expr) : Result Value :=
  if a.isNull || b.isNull then .ok .null
  else match a, b with
    | .int x, .int y => intArithmetic op x y source
    | _, _ =>
      if a.isNumeric && b.isNumeric then do
        let x ← a.asDouble
        let y ← b.asDouble
        return doubleArithmetic op x y
      else .error (.unsupported (.arithmetic a.kind b.kind) source.text)

def isString : Value → Bool
  | .string _ => true
  | _ => false

-- Addition joins texts as soon as one operand is a text.
def arithmetic (op : Arithmetic) (a b : Value) (source : Expr) : Result Value :=
  if op = .add && (isString a || isString b) then .ok (.string (plainText a ++ plainText b))
  else numericArithmetic op a b source

-- Null counts as not true.
def isTrue (v : Value) : Result Bool := if v.isNull then .ok false else v.asBool

def negated (v : Value) (source : Expr) : Result Value :=
  match v with
  | .null => .ok .null
  | .int n => .ok (.int (-n))
  | .double x => .ok (.double (-x))
  | _ => .error (.unsupported .negation source.text)

inductive DatePart where
  | year
  | month
  | day
  | hour
  | minute
  | second
  deriving DecidableEq

def DatePart.ofMethod? (method : Text) : Option DatePart :=
  if method == "Year" then some .year
  else if method == "Month" then some .month
  else if method == "Day" then some .day
  else if method == "Hour" then some .hour
  else if method == "Minute" then some .minute
  else if method == "Second" then some .second
  else none

def DatePart.of (part : DatePart) (c : Civil) : Int :=
  match part with
  | .year => c.year
  | .month => c.month
  | .day => c.day
  | .hour => c.hour
  | .minute => c.minute
  | .second => c.second

inductive Interval where
  | days
  | hours
  | minutes
  | seconds
  | months
  | years
  deriving DecidableEq

def Interval.ofMethod? (method : Text) : Option Interval :=
  if method == "AddDays" then some .days
  else if method == "AddHours" then some .hours
  else if method == "AddMinutes" then some .minutes
  else if method == "AddSeconds" then some .seconds
  else if method == "AddMonths" then some .months
  else if method == "AddYears" then some .years
  else none

-- The nearest count of microseconds; one that 64 bits cannot hold becomes
-- the least integer.
def microsOfSeconds (seconds : Float) : Int :=
  match (Binary64.ofFloat (seconds * 1000000)).rounded? with
  | some n => if Text.inWord 64 n then n else -Text.wordLimit 64
  | none => -Text.wordLimit 64

-- Months and years take an integer, cut to 32 bits; the other units take any
-- number.
def addInterval (interval : Interval) (v amount : Value) : Result Value := do
  let t ← v.asTimestamp
  let x ← amount.asDouble
  match interval with
  | .months =>
    let n ← amount.asInt
    return .timestamp (t.addMonths n.toInt32.toInt)
  | .years =>
    let n ← amount.asInt
    return .timestamp (t.addMonths (n.toInt32 * 12).toInt)
  | .days => return .timestamp (t.addMicros (microsOfSeconds (x * 86400)))
  | .hours => return .timestamp (t.addMicros (microsOfSeconds (x * 3600)))
  | .minutes => return .timestamp (t.addMicros (microsOfSeconds (x * 60)))
  | .seconds => return .timestamp (t.addMicros (microsOfSeconds x))

-- The methods that have a value.
def methods : List Text :=
  ["Contains", "StartsWith", "EndsWith", "Equals", "ToUpper", "ToLower", "Trim", "Length",
    "Substring", "Year", "Month", "Day", "Hour", "Minute", "Second", "AddDays", "AddHours",
    "AddMinutes", "AddSeconds", "AddMonths", "AddYears", "Abs", "Floor", "Ceiling", "Round", "Sqrt",
    "Sin", "Cos", "Tan"]

def argument (args : List Value) (i : Nat) (method : Text) (source : Expr) : Result Value :=
  match args[i]? with
  | some v => .ok v
  | none => .error (.unsupportedMethod method source.text)

-- From a start within the text; a negative count takes all of the rest.
def substring (t : Value) (args : List Value) (source : Expr) : Result Value := do
  let s ← t.asString
  let start ← (← argument args 0 "Substring" source).asInt
  if start.toInt < 0 || s.length < start.toInt.toNat then
    throw (.engine (.substringStart source.text))
  let rest := s.drop start.toInt.toNat
  if args.length ≤ 1 then return .string rest
  let count ← (← argument args 1 "Substring" source).asInt
  return .string (if count.toInt < 0 then rest else rest.take count.toInt.toNat)

def absolute (t : Value) : Result Value :=
  match t with
  | .int n => .ok (.int (if n < 0 then -n else n))
  | _ => t.asDouble.map fun x => .double x.abs

-- Halves go away from zero; with a count of digits the value is scaled by a
-- power of ten first.
def round (t : Value) (args : List Value) (source : Expr) : Result Value := do
  let x ← t.asDouble
  if args.isEmpty then return .double x.round
  let digits ← (← argument args 0 "Round" source).asInt
  let scale := Float.pow 10 (Binary64.ofInt digits.toInt)
  return .double ((x * scale).round / scale)

def onText (t : Value) (f : Text → Value) : Result Value := t.asString.map f

-- A test of a text against the text of the first argument. The target is
-- looked at before the argument is asked for.
def onTexts (t : Value) (other : Result Value) (f : Text → Text → Bool) : Result Value := do
  let s ← t.asString
  let o ← (← other).asString
  return .bool (f s o)

def onDouble (t : Value) (f : Float → Float) : Result Value :=
  t.asDouble.map fun x => .double (f x)

-- A method on a target that is not null.
def scalarMethod (method : Text) (t : Value) (args : List Value) (source : Expr) : Result Value :=
  if method == "Contains" then onTexts t (argument args 0 method source) fun s o => Text.occurs o s
  else if method == "StartsWith" then
    onTexts t (argument args 0 method source) fun s o => o.isPrefixOf s
  else if method == "EndsWith" then
    onTexts t (argument args 0 method source) fun s o => o.isSuffixOf s
  else if method == "Equals" then do return .bool (valuesEqual t (← argument args 0 method source))
  else if method == "ToUpper" then onText t fun s => .string (Text.upper s)
  else if method == "ToLower" then onText t fun s => .string (Text.lower s)
  else if method == "Trim" then onText t fun s => .string (Text.trim s)
  else if method == "Length" then onText t fun s => .int (Int64.ofNat s.length)
  else if method == "Substring" then substring t args source
  else if method == "Abs" then absolute t
  else if method == "Floor" then onDouble t Float.floor
  else if method == "Ceiling" then onDouble t Float.ceil
  else if method == "Round" then round t args source
  else if method == "Sqrt" then onDouble t Float.sqrt
  else if method == "Sin" then onDouble t Float.sin
  else if method == "Cos" then onDouble t Float.cos
  else if method == "Tan" then onDouble t Float.tan
  else match DatePart.ofMethod? method with
    | some part => t.asTimestamp.map fun s => .int (Int64.ofInt (part.of s.civil))
    | none =>
      match Interval.ofMethod? method with
      | some interval => do addInterval interval t (← argument args 0 method source)
      | none => .error (.unsupportedMethod method source.text)

-- Membership looks for an equal item; the argument of an empty collection is
-- never asked for.
def containsItem (items : List Value) (args : List Value) (source : Expr) : Result Value :=
  if items.isEmpty then .ok (.bool false)
  else do
    let item ← argument args 0 "Contains" source
    return .bool (items.any (valuesEqual · item))

def applyMethod (method : Text) (t : Value) (args : List Value) (source : Expr) : Result Value :=
  match t with
  | .array items =>
    if method == "Contains" then containsItem items args source
    else scalarMethod method (.array items) args source
  | .null => .ok .null
  | t => scalarMethod method t args source

-- A member of a value: the length of texts, arrays and bytes, and the
-- members of a JSON object.
def memberOf (v : Value) (name : Text) (source : Expr) : Result Value :=
  let lengthOf : Option Nat := match v with
    | .string t => some t.length
    | .array items => some items.length
    | .bytes b => some b.length
    | _ => none
  let member : Option Json := match v with
    | .json j => j.member? name
    | _ => none
  match v, if name == "Length" then lengthOf else none, member with
  | .null, _, _ => .ok .null
  | _, some n, _ => .ok (.int (Int64.ofNat n))
  | _, none, some j => .ok (.json j)
  | _, none, none => .error (.unresolved (.member name v.kind) source.text)

end EntitySql.Eval
