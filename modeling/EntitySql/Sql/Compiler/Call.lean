import EntitySql.Sql.Compiler

-- Method calls in SQL: functions, intervals, string tests, membership and
-- the aggregates of groups. A call is compiled from its parts, each of which
-- knows how to compile itself.

namespace EntitySql.Sql.Compiler

-- An expression beside its compilation; the elements are those of an array.
structure Part where
  source : Expr
  term : Step Term
  elements : List (Step Term) := []

def compileAll (terms : List (Step Term)) : Step (List Term) := terms.mapM id

def unaryFunction? (method : Text) : Option Function :=
  if method == "ToUpper" then some .upper
  else if method == "ToLower" then some .lower
  else if method == "Trim" then some .trim
  else if method == "Length" then some .length
  else if method == "Abs" then some .abs
  else if method == "Floor" then some .floor
  else if method == "Ceiling" then some .ceiling
  else if method == "Sqrt" then some .sqrt
  else if method == "Sin" then some .sin
  else if method == "Cos" then some .cos
  else if method == "Tan" then some .tan
  else none

def aggregate? (method : Text) : Option Aggregate :=
  if method == "Sum" then some .sum
  else if method == "Average" then some .average
  else if method == "Max" then some .max
  else if method == "Min" then some .min
  else none

-- Where the searched text may stand in a text.
inductive Placement where
  | start
  | finish
  | anywhere
  deriving DecidableEq

def Placement.leading : Placement → Bool
  | .start => false
  | _ => true

def Placement.trailing : Placement → Bool
  | .finish => false
  | _ => true

-- The LIKE pattern that finds exactly the text at the place.
def Placement.likePattern (place : Placement) (text : Text) : Text :=
  (if place.leading then [Byte.percent] else []) ++ likeEscape text ++
    if place.trailing then [Byte.percent] else []

def Placement.around (place : Placement) (t : Term) : Term :=
  .pattern place.leading place.trailing t

-- The pattern of a text that is known is written as one literal when values
-- are; wildcards are escaped there only.
def searchPattern (c : Compiler) (pattern : Part) (place : Placement) : Step Term := do
  if pattern.source.referencesParameter then return place.around (← pattern.term)
  let v ← c.extract pattern.source
  if v.isNull then throw (.unsupported .nullPattern pattern.source.text)
  let text ← v.asString
  match c.mode with
  | .literal => return .value (← stringLiteral (place.likePattern text))
  | .parameterized => return place.around (← c.constant (.string text))

def like (c : Compiler) (target pattern : Part) (place : Placement) : Step Term := do
  let t ← target.term
  let p ← c.searchPattern pattern place
  return .like c.options.ignoreCase t p

-- No list is empty in SQL.
def membership (item : Term) (items : List Term) : Term :=
  if items.isEmpty then .falsity else .isIn item items

def containsKnown (c : Compiler) (source : Expr) (collection item : Part) : Step Term := do
  let v ← c.extract collection.source
  match v with
  | .string _ => c.like collection item .anywhere
  | .array values => do
    let item ← item.term
    let items ← values.mapM c.constant
    return membership item items
  | v => throw (.unsupported (.containsTarget v.kind) source.text)

-- A collection is a list of values, an array column or a text.
def contains (c : Compiler) (source : Expr) (collection item : Part) : Step Term :=
  if collection.source.referencesParameter then
    match (c.field? collection.source).map Field.type with
    | some .array => do
      let item ← item.term
      let items ← collection.term
      return .isElement item items
    | _ => c.like collection item .anywhere
  else match collection.source with
    | .array _ _ => do
      let item ← item.term
      let items ← compileAll collection.elements
      return membership item items
    | _ => c.containsKnown source collection item

-- The collection of a static call is its first argument.
def containsCall (c : Compiler) (source : Expr) (method : Text) (target : Option Part)
    (args : List Part) : Step Term :=
  match target, args with
  | some collection, item :: _ => c.contains source collection item
  | none, collection :: item :: _ => c.contains source collection item
  | _, _ => throw (.unsupportedMethod method source.text)

-- Aggregates are for groups only. A count may be restricted by a predicate.
def aggregateCall (grouped : Bool) (source : Expr) (method : Text) (args : List Part) :
    Step Term :=
  if !grouped then throw (.unsupported (.aggregateOutsideHaving method) source.text)
  else match aggregate? method, args with
    | none, [] => return .countRows
    | none, condition :: _ => return .countWhere (← condition.term)
    | some _, [] => throw (.unsupported (.aggregateSelector method) source.text)
    | some f, selector :: _ => return .aggregate f (← selector.term)

def argument (source : Expr) (method : Text) (args : List Part) (index : Nat) : Result Part :=
  match args[index]? with
  | some part => .ok part
  | none => .error (.unsupported (.missingArgument method (index + 1)) source.text)

-- A known amount of time is written into the interval.
def addInterval (c : Compiler) (source : Expr) (target : Term) (amount : Part)
    (unit : Eval.Interval) : Step Term := do
  if amount.source.referencesParameter then
    return .addIntervals target (← amount.term) unit
  let v ← c.extract amount.source
  if v.isNumeric then return .addInterval target v.text unit
  else throw (.unsupported .intervalAmount source.text)

-- A method on a target that has been compiled.
def scalarCall (c : Compiler) (source : Expr) (method : Text) (target : Term) (args : List Part) :
    Step Term := do
  if method == "Equals" then
    let other ← (← argument source method args 0).term
    if other.isNullWord then return .isNull target false
    else return .operation .equal target other
  if let some f := unaryFunction? method then return .apply f target
  if method == "Substring" then
    let start ← (← argument source method args 0).term
    match args[1]? with
    | none => return .substring target start
    | some count => return .substringFor target start (← count.term)
  if let some part := Eval.DatePart.ofMethod? method then return .extract part target
  if let some unit := Eval.Interval.ofMethod? method then
    c.addInterval source target (← argument source method args 0) unit
  else if method == "Round" then
    match args with
    | [] => return .round target
    | digits :: _ => return .roundTo target (← digits.term)
  else throw (.unsupportedMethod method source.text)

def targetCall (c : Compiler) (source : Expr) (method : Text) (target : Part) (args : List Part) :
    Step Term := do
  if method == "StartsWith" then c.like target (← argument source method args 0) .start
  else if method == "EndsWith" then c.like target (← argument source method args 0) .finish
  else c.scalarCall source method (← target.term) args

def call (c : Compiler) (grouped : Bool) (source : Expr) (method : Text) (target : Option Part)
    (args : List Part) : Step Term :=
  if method == "Count" || (aggregate? method).isSome then aggregateCall grouped source method args
  else if method == "Contains" then c.containsCall source method target args
  else match target with
    | none => throw (.unsupportedMethod method source.text)
    | some target => c.targetCall source method target args

end EntitySql.Sql.Compiler
