import EntitySql.Include.Join
import EntitySql.Query.Plan
import EntitySql.Sql.Compiler.Expression

-- Statements with all expressions compiled, and their text.

namespace EntitySql.Query

open EntitySql.Sql (Term)

-- Hand-written SQL between compiled values.
inductive RawPiece where
  | byte (c : UInt8)
  | term (t : Term)

def RawPiece.text : RawPiece → Text
  | .byte c => [c]
  | .term t => t.text

def wordIn (negated : Bool) : Text := if negated then " NOT IN (" else " IN ("

def wordExists (negated : Bool) : Text := if negated then "NOT EXISTS (" else "EXISTS ("

-- A compiled filter; subqueries are again statements.
inductive Filter (σ : Type) where
  | term (t : Term)
  | raw (pieces : List RawPiece)
  | truth (value : Bool)
  | inTerms (column : Term) (items : List Term) (negated : Bool)
  | inQuery (column : Term) (query : σ) (negated : Bool)
  | inRaw (column : Term) (sql : Text) (negated : Bool)
  | exists (query : σ) (negated : Bool)

inductive Projection where
  | raw (sql : Text)
  | allColumns
  | allColumnsOf (table : Text)
  | column (c : Include.SelectedColumn)
  | groupKey (t : Term)
  | aggregate (t : Term) (aliasName : Text)
  | window (sql : Text)
  | case (c : Case Term)

inductive Source where
  | raw (sql : Text)
  | table (name : Text) (aliasName : Option Text)

-- The parts of a SELECT that hold no other statement.
structure SelectParts where
  tables : List CommonTable := []
  distinct : Bool := false
  projections : List Projection
  source : Source
  joins : List Include.Join := []
  rawJoins : List Text := []
  groupKeys : List Term := []
  having : List Term := []
  orders : List (Term × Bool) := []
  limit : Option Int := none
  offset : Option Int := none

structure Select where
  parts : SelectParts
  filters : List (Filter Select) := []
  operations : List (SetOperation Select) := []

def Side.text : Side Term → Text
  | .raw sql => sql
  | .of t => t.text

namespace Case

def branchText (b : Side Term × Side Term) : Text :=
  " WHEN " ++ b.1.text ++ " THEN " ++ b.2.text

def elseText (c : Case Term) : Text :=
  match c.otherwise with
  | none => []
  | some t => " ELSE " ++ t.text

def aliasText (c : Case Term) : Text :=
  if c.aliasName.isEmpty then [] else " AS " ++ Sql.quoted c.aliasName

def text (c : Case Term) : Text :=
  "CASE" ++ c.branches.flatMap branchText ++ c.elseText ++ " END" ++ c.aliasText

end Case

def Projection.text : Projection → Text
  | .raw sql => sql
  | .allColumns => [Byte.star]
  | .allColumnsOf table => Sql.quoted table ++ ".*"
  | .column c => c.text
  | .groupKey t => t.text
  | .aggregate t aliasName => t.text ++ " AS " ++ Sql.quoted aliasName
  | .window sql => sql
  | .case c => c.text

def Source.text : Source → Text
  | .raw sql => sql
  | .table name none => Sql.quoted name
  | .table name (some aliasName) => Sql.quoted name ++ Byte.space :: Sql.quoted aliasName

namespace SelectParts

def orderText (o : Term × Bool) : Text :=
  o.1.text ++ (if o.2 then Text.ofString " ASC" else Text.ofString " DESC")

-- A clause with its items, or nothing for no items.
def clause (word separator : Text) (items : List Text) : Text :=
  if items.isEmpty then [] else word ++ Text.join separator items

def countClause (word : Text) : Option Int → Text
  | none => []
  | some n => word ++ Text.ofInt n

def spaced (clauses : List Text) : Text := clauses.flatMap fun c => Byte.space :: c

-- From SELECT to the joins.
def opening (p : SelectParts) : Text :=
  (if p.distinct then Text.ofString "SELECT DISTINCT " else Text.ofString "SELECT ") ++
    Text.commaJoin (p.projections.map Projection.text) ++ " FROM " ++ p.source.text ++
    spaced (p.joins.map Include.Join.text) ++ spaced p.rawJoins

-- From GROUP BY to the end.
def closing (p : SelectParts) : Text :=
  clause " GROUP BY " ", " (p.groupKeys.map Term.text) ++
    clause " HAVING " " AND " (p.having.map Term.text) ++
    clause " ORDER BY " ", " (p.orders.map orderText) ++
    countClause " LIMIT " p.limit ++ countClause " OFFSET " p.offset

-- Ordering and paging belong to the first operand alone.
def isBounded (p : SelectParts) : Bool :=
  !p.orders.isEmpty || p.limit.isSome || p.offset.isSome

-- The first operand of the set operations.
def operand (p : SelectParts) (filters : List Text) (combined : Bool) : Text :=
  let body := p.opening ++ clause " WHERE " " AND " filters ++ p.closing
  if combined && p.isBounded then Byte.openParenthesis :: body ++ [Byte.closeParenthesis] else body

end SelectParts

namespace Select

def inTermsText (column : Term) (items : List Term) (negated : Bool) : Text :=
  column.text ++ wordIn negated ++ Text.commaJoin (items.map Term.text) ++ ")"

mutual

def text : Select → Text
  | ⟨parts, filters, operations⟩ =>
    withClause parts.tables ++ parts.operand (filterTexts filters) (!operations.isEmpty) ++
      operationsText operations

def filterText : Filter Select → Text
  | .term t => t.text
  | .raw pieces => "(" ++ pieces.flatMap RawPiece.text ++ ")"
  | .truth value => if value then "TRUE" else "FALSE"
  | .inTerms column items negated => inTermsText column items negated
  | .inQuery column query negated => column.text ++ wordIn negated ++ text query ++ ")"
  | .inRaw column sql negated => column.text ++ wordIn negated ++ sql ++ ")"
  | .exists query negated => wordExists negated ++ text query ++ ")"

def filterTexts : List (Filter Select) → List Text
  | [] => []
  | f :: rest => filterText f :: filterTexts rest

def operandText : Operand Select → Text
  | .query q => text q
  | .raw sql => sql

def operationsText : List (SetOperation Select) → Text
  | [] => []
  | ⟨operator, operand⟩ :: rest =>
    " " ++ operator.text ++ " (" ++ operandText operand ++ ")" ++ operationsText rest

end

end Select

-- Filters joined to a WHERE clause.
def whereClause (filters : List (Filter Select)) : Text :=
  SelectParts.clause " WHERE " " AND " (Select.filterTexts filters)

structure Update where
  table : Text
  assignments : List Sql.Compiler.Assignment
  filters : List (Filter Select)

def Update.text (u : Update) : Text :=
  "UPDATE " ++ Sql.quoted u.table ++ " SET " ++ Sql.Compiler.assignmentsText u.assignments ++
    whereClause u.filters

-- What is asked of a query instead of its rows: their number, whether there
-- are any, or an aggregate.
inductive Measure (ε : Type) where
  | count
  | any
  | aggregate (function : Sql.Aggregate) (selector : ε)

-- The measure of a name, made from a selector. Counting needs none.
def Measure.named? {ε : Type} (name : Text) (selector : ε) : Option (Measure ε) :=
  let measures : List (Text × Measure ε) :=
    [("count", .count), ("any", .any), ("sum", .aggregate .sum selector),
      ("average", .aggregate .average selector), ("min", .aggregate .min selector),
      ("max", .aggregate .max selector)]
  measures.lookup name

structure Scalar where
  measure : Measure Term
  source : Source
  rawJoins : List Text
  filters : List (Filter Select)

def Scalar.text (s : Scalar) : Text :=
  let filtered := s.source.text ++ SelectParts.spaced s.rawJoins ++ whereClause s.filters
  match s.measure with
  | .count => "SELECT COUNT(*) FROM " ++ filtered
  | .any => "SELECT EXISTS (SELECT 1 FROM " ++ filtered ++ ")"
  | .aggregate f t => "SELECT " ++ (Term.aggregate f t).text ++ " FROM " ++ filtered

end EntitySql.Query
