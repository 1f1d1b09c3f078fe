import EntitySql.Include.Path
import EntitySql.Query.Plan

-- The calls that make a plan. A call looks at its arguments and at the plan
-- before it changes the plan.

namespace EntitySql.Query

-- A step on a plan; one that fails keeps the changes made so far.
abbrev Builder := ExceptT Error (StateM Plan)

namespace Builder

def refuseIf (wrong : Bool) (fault : ContractFault) : Builder Unit :=
  if wrong then throw (.contract fault) else return ()

-- Filters, groups and includes must be registered before plans are combined.
def requireUncombined (clause : Clause) : Builder Unit := do
  refuseIf (← get).hasOperations (.afterSetOperation clause)

def require {α : Type} (what : Requirement) : Option α → Builder α
  | none => throw (.contract (.missing what))
  | some a => return a

def requireText (what : Requirement) (sql : Text) : Builder Unit :=
  refuseIf sql.isEmpty (.missing what)

def check : Option ContractFault → Builder Unit
  | none => return ()
  | some fault => throw (.contract fault)

def change (f : Clauses → Clauses) : Builder Unit := modify (·.change f)

def addCondition (c : Condition Plan) : Builder Unit :=
  modify fun p => { p with conditions := p.conditions ++ [c] }

def addOperation (operator : SetOperator) (operand : Operand Plan) : Builder Unit :=
  modify fun p => { p with operations := p.operations ++ [⟨operator, operand⟩] }

-- A path that is registered already is not registered again.
def addInclude (path : Text) : Builder Unit := do
  requireUncombined .includes
  refuseIf (← get).hasRawSelect .includeWithCustomSelect
  let validator ← Include.Validator.new (← get).clauses.maxIncludeDepth
  check ((validator.check path).map .path)
  if (← get).clauses.includes.elem path then return ()
  else change fun c => { c with includes := c.includes ++ [path] }

-- The step on a copy of the plan.
def result (x : Builder Unit) (p : Plan) : Result Plan :=
  match x.run.run p with
  | (.error e, _) => .error e
  | (.ok _, q) => .ok q

end Builder

inductive Registration where
  | filter (predicate : Option Expr)
  | filterRaw (sql : Text) (values : List Value)
  | filterIn (column : Text) (values : List Value) (negated : Bool)
  | filterInQuery (column : Text) (query : Option Plan) (negated : Bool)
  | filterInRaw (column sql : Text) (negated : Bool)
  | filterExists (query : Option Plan) (negated : Bool)
  | order (selector : Option Expr) (ascending : Bool)
  | clearOrder
  | groupBy (key : Option Expr)
  | having (predicate : Option Expr)
  | addInclude (path : Text)
  | thenInclude (segment : Text)
  | declare (table : CommonTable)
  | addWindow (w : Window)
  | addCase (c : Case Expr)
  | combine (operator : SetOperator) (other : Option Plan)
  | combineRaw (operator : SetOperator) (sql : Text)
  | joinRaw (sql : Text)
  | selectRaw (sql : Text)
  | fromRaw (sql : Text)
  | setDistinct (distinct : Bool)
  | limit (n : Int)
  | offset (n : Int)

open Builder in
def Registration.run : Registration → Builder Unit
  | filter predicate => do
    requireUncombined .whereClause
    let e ← require .wherePredicate predicate
    addCondition (.predicate e.body)
  | filterRaw sql values => do
    requireUncombined .whereClause
    requireText .rawWhere sql
    addCondition (.raw sql values)
  | filterIn column values negated => do
    requireUncombined .whereClause
    addCondition (.inValues column values negated)
  | filterInQuery column query negated => do
    requireUncombined .whereClause
    let q ← require .inQuery query
    addCondition (.inQuery column q negated)
  | filterInRaw column sql negated => do
    requireUncombined .whereClause
    requireText .inSql sql
    addCondition (.inRaw column sql negated)
  | filterExists query negated => do
    requireUncombined .whereClause
    let q ← require .existsQuery query
    addCondition (.exists q negated)
  | order selector ascending => do
    let e ← require .orderSelector selector
    change fun c => { c with orders := c.orders ++ [⟨e.body, ascending⟩] }
  | clearOrder => change fun c => { c with orders := [] }
  | groupBy key => do
    requireUncombined .groupBy
    let e ← require .groupKey key
    change fun c => { c with groupKeys := c.groupKeys ++ [e.body] }
  | having predicate => do
    requireUncombined .having
    let e ← require .havingPredicate predicate
    refuseIf (← get).clauses.groupKeys.isEmpty .havingWithoutGroupBy
    change fun c => { c with having := c.having ++ [e.body] }
  | addInclude path => Builder.addInclude path
  | thenInclude segment => do
    -- Goes on from the path that stands last.
    match (← get).clauses.includes.getLast? with
    | none => throw (.contract .thenIncludeAlone)
    | some path => Builder.addInclude (path ++ Byte.dot :: segment)
  | declare table => do
    check table.fault?
    change fun c => { c with tables := c.tables ++ [table] }
  | addWindow w => change fun c => { c with windows := c.windows ++ [w] }
  | addCase c => do
    refuseIf c.branches.isEmpty (.missing .caseBranch)
    change fun clauses => { clauses with cases := clauses.cases ++ [c] }
  | combine operator other => do
    let q ← require .setQuery other
    addOperation operator (.query q)
  | combineRaw operator sql => do
    requireText .setQuery sql
    addOperation operator (.raw sql)
  | joinRaw sql => do
    requireText .rawJoin sql
    change fun c => { c with rawJoins := c.rawJoins ++ [sql] }
  | selectRaw sql => do
    refuseIf (!(← get).clauses.includes.isEmpty) .customSelectWithIncludes
    change fun c => { c with rawSelect := sql }
  | fromRaw sql => change fun c => { c with rawFrom := sql }
  | setDistinct distinct => change fun c => { c with distinct }
  | limit n => do
    refuseIf (n < 0) .negativeLimit
    change fun c => { c with limit := some n }
  | offset n => do
    refuseIf (n < 0) .negativeOffset
    change fun c => { c with offset := some n }

-- The calls of a query.
inductive Call where
  | register (r : Registration)
  | orderBy (selector : Option Expr) (ascending : Bool)
  | groupBy (key : Option Expr)

-- Yields the plan of the query that is answered: the same query, or the groups
-- of a copy. Ordering anew forgets what was ordered before, even if the
-- selector is refused.
def Call.run : Call → Builder Plan
  | register r => do
    r.run
    get
  | orderBy selector ascending => do
    (Registration.clearOrder).run
    (Registration.order selector ascending).run
    get
  | groupBy key => do (Registration.groupBy key).run.result (← get)

end EntitySql.Query
