import EntitySql.Sql.Compiler.Call
import EntitySql.Sql.Compiler.Reference

-- Compiling whole expressions: predicates and selectors over rows, HAVING
-- predicates over groups, and the assignments of an update. Subtrees that
-- depend on no row are evaluated and stand as values.

namespace EntitySql.Sql.Compiler

-- Comparisons with null become null tests, whichever side the null is on.
def equality (negated : Bool) (l r : Term) : Term :=
  if r.isNullWord then .isNull l negated
  else if l.isNullWord then .isNull r negated
  else .operation (if negated then .notEqual else .equal) l r

-- Addition joins texts as soon as one operand looks like text.
def binary (c : Compiler) (op : BinaryOp) (left right : Part) : Step Term := do
  let l ← left.term
  let r ← right.term
  match op with
  | .coalesce => return .coalesce l r
  | .equal => return equality false l r
  | .notEqual => return equality true l r
  | .compare o => return .operation (.compare o) l r
  | .and => return .operation .and l r
  | .or => return .operation .or l r
  | .arithmetic .add =>
    if ← c.isText left.source then return .operation .concatenate l r
    else if ← c.isText right.source then return .operation .concatenate l r
    else return .operation (.arithmetic .add) l r
  | .arithmetic a => return .operation (.arithmetic a) l r

-- Only conversions that change the outcome are written: of integers to
-- doubles, and of what is no text to text.
def conversion (c : Compiler) (operand : Part) (type : Option FieldType) : Step Term := do
  let t ← operand.term
  match type with
  | some .double =>
    if c.isInteger operand.source then return .cast t .doublePrecision else return t
  | some .string => if ← c.isText operand.source then return t else return .cast t .characters
  | _ => return t

-- Replaces an expression that depends on no row by its value.
def known (c : Compiler) (e : Expr) (otherwise : Step Term) : Step Term := do
  if e.referencesParameter then otherwise else c.constant (← c.extract e)

mutual

def term (c : Compiler) (group : GroupColumns) : Expr → Step Term
  | .constant _ v => c.constant v
  | .parameter id p => throw (.unsupported .bareParameter (Expr.parameter id p).text)
  | .lambda _ _ b => term c group b
  | .initializer id entity bindings =>
    throw (.unsupported .initializer (Expr.initializer id entity bindings).text)
  | .array _ items => return .array (← compileAll (terms c group items))
  | .captured id name slot => do c.constant (← c.extract (.captured id name slot))
  | .member id owner name =>
    let source := Expr.member id owner name
    c.known source (c.member group source owner name (term c group owner))
  | .binary id op l r =>
    c.known (.binary id op l r) (c.binary op ⟨l, term c group l, []⟩ ⟨r, term c group r, []⟩)
  | .not id e => c.known (.not id e) do return .not (← term c group e)
  | .negate id e => c.known (.negate id e) do return .negate (← term c group e)
  | .convert id e type => c.known (.convert id e type) (c.conversion ⟨e, term c group e, []⟩ type)
  | .conditional id test a b => c.known (.conditional id test a b) do
    let test ← term c group test
    let a ← term c group a
    let b ← term c group b
    return .conditional test a b
  | .call id target method args =>
    let source := Expr.call id target method args
    c.known source
      (c.call group.isSome source method
        (some ⟨target, term c group target, elements c group target⟩) (parts c group args))
  | .staticCall id method args =>
    let source := Expr.staticCall id method args
    c.known source (c.call group.isSome source method none (parts c group args))

def elements (c : Compiler) (group : GroupColumns) : Expr → List (Step Term)
  | .array _ items => terms c group items
  | _ => []

def terms (c : Compiler) (group : GroupColumns) : List Expr → List (Step Term)
  | [] => []
  | e :: rest => term c group e :: terms c group rest

def parts (c : Compiler) (group : GroupColumns) : List Expr → List Part
  | [] => []
  | e :: rest => ⟨e, term c group e, elements c group e⟩ :: parts c group rest

end

-- A predicate or a value over rows.
def expression (c : Compiler) : Option Expr → Step Term
  | none => throw (.contract .emptyCompilation)
  | some e => c.term none e

-- A predicate or an aggregate over groups.
def having (c : Compiler) (predicate : Option Expr) (columns : List Text) : Step Term :=
  if columns.isEmpty then throw (.contract .havingWithoutGroupColumns)
  else match predicate with
    | none => throw (.contract .emptyHaving)
    | some e => c.term (some columns) e

-- A column and the term that it is set to.
structure Assignment where
  column : Text
  term : Term

def Assignment.text (a : Assignment) : Text := quoted a.column ++ " = " ++ a.term.text

def assignment (c : Compiler) (entity : Entity) (source : Expr) (binding : Text × Expr) :
    Step Assignment :=
  match entity.property? binding.1 with
  | none => throw (.unresolved (.mappedProperty binding.1 entity.name) source.text)
  | some f => do
    let t ← c.term none binding.2
    match identifierFault? f.column with
    | some fault => throw (.contract fault)
    | none => return ⟨f.column, t⟩

-- The assignments of a member initializer, also below a lambda.
def update (c : Compiler) (e : Option Expr) : Step (List Assignment) :=
  match e.map Expr.body with
  | some (.initializer id type bindings) => do
    let source := Expr.initializer id type bindings
    let entity ← c.registry.get type
    let assignments ← bindings.mapM (c.assignment entity source)
    if assignments.isEmpty then throw (.contract (.emptyUpdate source.text))
    return assignments
  | some other => throw (.unsupported .notAnInitializer other.text)
  | none => throw (.unsupported .notAnInitializer "<empty>")

def assignmentsText (assignments : List Assignment) : Text :=
  Text.commaJoin (assignments.map Assignment.text)

end EntitySql.Sql.Compiler
