import EntitySql.Query.RawText
import EntitySql.Query.Services

-- From plans to statements. The clauses of a SELECT are compiled in the
-- order in which they are written, so that placeholders are numbered from
-- left to right.

namespace EntitySql.Query

open EntitySql.Sql (Compiler Term)
open EntitySql.Sql.Compiler (Step)

-- A variant of the SELECT of a grouped query: the rows without grouping, or
-- the keys alone with aggregates beside them.
structure Variant where
  omitGroups : Bool := false
  keysOnly : Bool := false
  aggregates : List (Text × Option Expr) := []

def check (faults : Option ContractFault) : Result Unit :=
  match faults with
  | some fault => .error (.contract fault)
  | none => .ok ()

def checkName (name : Text) : Result Unit := check (Sql.identifierFault? name)

namespace Clauses

-- The includes play no part in a statement for the keys.
def includePlan (c : Clauses) (s : Services) (v : Variant) : Result (Option Include.Plan) :=
  if v.keysOnly || c.includes.isEmpty then .ok none
  else (Include.Plan.make s.registry c.maxIncludeDepth c.root c.includes).map some

def selectedColumns? (c : Compiler) : List Expr → Result (Option (List Term))
  | [] => .ok (some [])
  | key :: rest => do
    match ← c.selectedColumn? key with
    | none => return none
    | some t => return (← selectedColumns? c rest).map (t :: ·)

-- The columns to group by. As soon as one key is no column there are none.
def groupColumns (clauses : Clauses) (c : Compiler) : Result (List Term) :=
  (selectedColumns? c clauses.groupKeys).map (·.getD [])

def aggregate (c : Compiler) (columns : List Term) (a : Text × Option Expr) : Step Projection := do
  match a.2 with
  | none => throw (.contract (.emptyAggregate a.1))
  | some e =>
    checkName a.1
    return .aggregate (← c.having (some e) (columns.map Term.text)) a.1

def keyProjections (c : Compiler) (v : Variant) (columns : List Term) : Step (List Projection) := do
  if columns.isEmpty then throw (.contract .havingWithoutGroupColumns)
  let aggregates ← v.aggregates.mapM (aggregate c columns)
  return columns.map .groupKey ++ aggregates

def side (c : Compiler) : Side Expr → Step (Side Term)
  | .raw sql => return .raw sql
  | .of e => return .of (← c.expression (some e))

def branch (c : Compiler) (b : Side Expr × Side Expr) : Step (Side Term × Side Term) := do
  let condition ← side c b.1
  let result ← side c b.2
  return (condition, result)

def case (c : Compiler) (e : Case Expr) : Step Projection := do
  let branches ← e.branches.mapM (branch c)
  let otherwise ← e.otherwise.mapM fun e => c.expression (some e)
  if !e.aliasName.isEmpty then checkName e.aliasName
  return .case ⟨branches, otherwise, e.aliasName⟩

-- The columns of the rows: hand-written, those of the includes, or all.
def rowColumns (clauses : Clauses) (c : Compiler) : Result (List Projection) := do
  if !clauses.rawSelect.isEmpty then return [.raw clauses.rawSelect]
  match c.includes with
  | some plan =>
    Include.checkNames ((Include.selectedColumns plan).flatMap Include.SelectedColumn.names)
    return (Include.selectedColumns plan).map .column
  | none =>
    if clauses.rawFrom.isEmpty then
      checkName clauses.root.table
      return [.allColumnsOf clauses.root.table]
    else return [.allColumns]

def rowProjections (clauses : Clauses) (c : Compiler) (v : Variant) : Step (List Projection) := do
  if !v.aggregates.isEmpty then throw (.contract .aggregatesWithoutKeys)
  let columns ← clauses.rowColumns c
  let windows ← clauses.windows.mapM fun w => do return Projection.window (← w.text)
  let cases ← clauses.cases.mapM (case c)
  return columns ++ windows ++ cases

def projections (clauses : Clauses) (c : Compiler) (v : Variant) (columns : List Term) :
    Step (List Projection) :=
  if v.keysOnly then keyProjections c v columns else clauses.rowProjections c v

def source (clauses : Clauses) (aliasName : Option Text) : Result Source := do
  if !clauses.rawFrom.isEmpty then return .raw clauses.rawFrom
  checkName clauses.root.table
  return .table clauses.root.table aliasName

def joins (c : Compiler) : Result (List Include.Join) := do
  let joins := (c.includes.map Include.joins).getD []
  Include.checkNames (joins.flatMap Include.Join.names)
  return joins

def havingTerms (clauses : Clauses) (c : Compiler) (v : Variant) (columns : List Term) :
    Step (List Term) := do
  if v.omitGroups || clauses.having.isEmpty then return []
  if columns.isEmpty then throw (.contract .havingWithoutGroupColumns)
  clauses.having.mapM fun e => c.having (some e) (columns.map Term.text)

def orderTerms (clauses : Clauses) (c : Compiler) (v : Variant) : Step (List (Term × Bool)) :=
  if v.keysOnly then return []
  else clauses.orders.mapM fun o => do return (← c.expression (some o.selector), o.ascending)

-- A column named in a filter, by its property or else by its own name.
def namedColumn (clauses : Clauses) (c : Compiler) (name : Text) : Result Term :=
  match (clauses.root.property? name).or (clauses.root.column? name) with
  | none => .error (.unresolved (.column name clauses.root.name) name)
  | some f =>
    let row : Parameter := ⟨"x", clauses.root.type, false⟩
    let owner := Expr.parameter 0 row
    c.rowMember row (.member 0 owner f.property) owner f.property

end Clauses

mutual

-- The statement of a plan and the includes that it joins.
def select (s : Services) (env : Environment) (v : Variant) :
    Plan → Step (Select × Option Include.Plan)
  | ⟨clauses, conditions, operations⟩ => do
    if !clauses.having.isEmpty && clauses.groupKeys.isEmpty then
      throw (.contract .havingWithoutGroupBy)
    let includes ← clauses.includePlan s v
    let c := s.compiler env clauses.root includes
    let columns ← clauses.groupColumns c
    let projections ← clauses.projections c v columns
    let source ← clauses.source c.rootAlias?
    let joins ← Clauses.joins c
    let filters ← filters s env clauses c conditions
    let having ← clauses.havingTerms c v columns
    let orders ← clauses.orderTerms c v
    let operations ← if v.keysOnly then pure [] else operands s env operations
    Include.checkNames (clauses.tables.flatMap CommonTable.names)
    let parts : SelectParts :=
      { tables := clauses.tables, distinct := clauses.distinct, projections, source, joins
        rawJoins := clauses.rawJoins, groupKeys := if v.omitGroups then [] else columns, having
        orders, limit := if v.keysOnly then none else clauses.limit
        offset := if v.keysOnly then none else clauses.offset }
    return (⟨parts, filters, operations⟩, includes)

def filter (s : Services) (env : Environment) (clauses : Clauses) (c : Compiler) :
    Condition Plan → Step (Filter Select)
  | .predicate e => do return .term (← c.expression (some e))
  | .raw sql values => do return .raw (← fillSlots c sql values)
  | .inValues column values negated => do
    let t ← clauses.namedColumn c column
    if values.isEmpty then return .truth negated
    else return .inTerms t (← values.mapM c.constant) negated
  | .inQuery column query negated => do
    let t ← clauses.namedColumn c column
    let (query, _) ← select s env {} query
    return .inQuery t query negated
  | .inRaw column sql negated => do return .inRaw (← clauses.namedColumn c column) sql negated
  | .exists query negated => do
    let (query, _) ← select s env {} query
    return .exists query negated

def filters (s : Services) (env : Environment) (clauses : Clauses) (c : Compiler) :
    List (Condition Plan) → Step (List (Filter Select))
  | [] => return []
  | condition :: rest => do
    let first ← filter s env clauses c condition
    let others ← filters s env clauses c rest
    return first :: others

def operand (s : Services) (env : Environment) : Operand Plan → Step (Operand Select)
  | .query q => do
    let (query, _) ← select s env {} q
    return .query query
  | .raw sql => return .raw sql

def operands (s : Services) (env : Environment) :
    List (SetOperation Plan) → Step (List (SetOperation Select))
  | [] => return []
  | ⟨operator, q⟩ :: rest => do
    let first ← operand s env q
    let others ← operands s env rest
    return ⟨operator, first⟩ :: others

end

namespace Plan

-- The compiler of statements without joins.
def plainCompiler (p : Plan) (s : Services) (env : Environment) : Compiler :=
  s.compiler env p.root none

def update (s : Services) (env : Environment) (p : Plan) (assignments : Option Expr) :
    Step Update := do
  let c := p.plainCompiler s env
  let assignments ← c.update assignments
  checkName p.root.table
  let filters ← filters s env p.clauses c p.conditions
  return ⟨p.root.table, assignments, filters⟩

def measure (c : Compiler) : Measure (Option Expr) → Step (Measure Term)
  | .count => return .count
  | .any => return .any
  | .aggregate _ none => throw (.contract (.missing .aggregateSelector))
  | .aggregate f (some selector) => return .aggregate f (← c.expression (some selector.body))

-- A measure of the filtered rows, perhaps under one more predicate.
def scalar (s : Services) (env : Environment) (p : Plan) (m : Measure (Option Expr))
    (predicate : Option Expr) : Step Scalar := do
  let c := p.plainCompiler s env
  let m ← measure c m
  let source ← p.clauses.source none
  let filters ← filters s env p.clauses c p.conditions
  let extra ← match predicate with
    | none => pure []
    | some e => do
      let t ← c.expression (some e.body)
      pure [Filter.term t]
  return ⟨m, source, p.clauses.rawJoins, filters ++ extra⟩

end Plan

-- A statement ready to be run.
structure Rendered where
  sql : Text
  bindings : List Sql.Binding := []
  includes : Option Include.Plan := none

end EntitySql.Query
