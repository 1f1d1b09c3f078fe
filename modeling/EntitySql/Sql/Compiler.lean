import EntitySql.Eval
import EntitySql.Include.Plan
import EntitySql.LruCache
import EntitySql.Sql.Term

-- What compiling an expression to SQL needs to know, and what it keeps: the
-- values that it has bound to placeholders and the accessors of expressions
-- that it has evaluated.

namespace EntitySql.Sql

-- Whether values are written into the text or bound to placeholders.
inductive Mode where
  | literal
  | parameterized
  deriving DecidableEq

-- A timestamp at most the tolerance away from the current time, in
-- microseconds, stands for the current time.
structure Options where
  nowHeuristic : Bool := true
  nowTolerance : Int := 5000000
  ignoreCase : Bool := false

structure Binding where
  name : Text
  value : Value

abbrev AccessorCache := LruCache (Option EntityType × NodeId) Accessor

structure Compiler where
  registry : Registry
  options : Options := {}
  mode : Mode := .literal
  now : Int
  captures : Captures
  rootType : Option EntityType := none
  includes : Option Include.Plan := none

namespace Compiler

structure State where
  bindings : List Binding := []
  cache : Option AccessorCache := none

-- A step that fails keeps the bindings that it has made.
abbrev Step := ExceptT Error (StateM State)

-- The accessor of an expression, from the cache if there is one.
def accessor (c : Compiler) (e : Expr) : Step Accessor := do
  match (← get).cache with
  | none => Eval.accessor c.registry e
  | some cache =>
    let (found, cache) := cache.getOrAdd (c.rootType, e.id) (Eval.accessor c.registry e)
    modify fun s => { s with cache := some cache }
    found

-- The value of an expression that depends on no row.
def extract (c : Compiler) : Expr → Step Value
  | .constant _ v => return v
  | e => do
    let read ← c.accessor e
    read { captures := c.captures }

def isCurrent (c : Compiler) : Value → Bool
  | .timestamp t =>
    c.options.nowHeuristic && decide (((t.utcMicros - c.now).natAbs : Int) ≤ c.options.nowTolerance)
  | _ => false

def State.push (s : State) (v : Value) : State :=
  { s with bindings := s.bindings ++ [⟨parameterName s.bindings.length, v⟩] }

-- Binds a value to the next placeholder.
def placeholder (v : Value) : Step Term := do
  let s ← get
  set (s.push v)
  return .placeholder s.bindings.length

def constant (c : Compiler) (v : Value) : Step Term := do
  if v.isNull then return .null
  if c.isCurrent v then return .currentTimestamp
  match c.mode with
  | .literal => return .value (← literal v)
  | .parameterized => placeholder v

-- The columns of the root stand behind an alias as soon as there are joins.
def rootAlias? (c : Compiler) : Option Text :=
  match c.includes with
  | none => none
  | some plan => if plan.isEmpty then none else some Include.Node.rootAlias

def column (table : Option Text) (name : Text) : Result Term :=
  match identifierFault? name with
  | some fault => .error (.contract fault)
  | none => .ok (.column table name)

def rootColumn (c : Compiler) (name : Text) : Result Term := column c.rootAlias? name

def navigationPath (owner : Expr) : Text := Text.join [Byte.dot] owner.memberPath

-- The node of the include that a chain of navigations follows.
def included? (c : Compiler) (owner : Expr) : Option Include.Node := do
  let plan ← c.includes
  plan.find? (navigationPath owner)

-- The field that a chain of members ends in, if it starts at a row.
def field? (c : Compiler) : Expr → Option Field
  | .member _ owner name => do
    let p ← owner.rootParameter?
    if p.group then none
    else do
      let entity ← c.registry.find? p.entity
      if owner.memberPath.isEmpty then entity.property? name
      else do
        let node ← c.included? owner
        node.target.property? name
  | _ => none

-- The column of a selector that reads one field of the root, also below a
-- lambda.
def selectedColumn? (c : Compiler) (selector : Expr) : Result (Option Term) :=
  match selector.body with
  | .member _ (.parameter _ p) name =>
    match if p.group then none else (c.registry.find? p.entity).bind (·.property? name) with
    | none => .ok none
    | some f => (c.rootColumn f.column).map some
  | _ => .ok none

-- Whether the expression yields text, as far as its form shows; captured
-- values are looked at.
def isText (c : Compiler) : Expr → Step Bool
  | .constant _ v => return v.kind = .string
  | .captured id name slot => do
    let v ← c.extract (.captured id name slot)
    return v.kind = .string
  | .member id owner name => do
    if owner.referencesParameter then
      return ((c.field? (.member id owner name)).map (·.type.isTextual)).getD false
    else
      let v ← c.extract (.member id owner name)
      return v.kind = .string
  | .call _ _ method _ => return textMethods.elem method
  | .staticCall _ method _ => return textMethods.elem method
  | .binary _ op l r => do
    if op = .arithmetic .add || op = .coalesce then
      if ← isText c l then return true else isText c r
    else return false
  | .convert _ _ type => return type = some .string
  | .conditional _ _ ifTrue _ => isText c ifTrue
  | _ => return false
where
  textMethods : List Text := ["ToUpper", "ToLower", "Trim", "Substring"]

-- Whether the expression yields an integer, as far as its form shows.
def isInteger (c : Compiler) : Expr → Bool
  | .constant _ v => v.kind = .int
  | .member id owner name =>
    name == "Length" ||
      ((c.field? (.member id owner name)).map fun f =>
        f.type = .int32 || f.type = .int64).getD false
  | .call _ _ method _ => integerMethod method
  | .staticCall _ method _ => integerMethod method
  | .binary _ _ l r => isInteger c l && isInteger c r
  | _ => false
where
  integerMethod (method : Text) : Bool :=
    (Eval.DatePart.ofMethod? method).isSome || method == "Length" || method == "Count"

end Compiler

end EntitySql.Sql
