import EntitySql.Expr
import EntitySql.Query.CommonTable
import EntitySql.Query.Window

-- A query as the clauses that have been registered for it. Expressions are
-- kept as they are and compiled whenever a statement is made, so a plan is a
-- plain value.

namespace EntitySql.Query

-- A filter of a query. Subqueries are again plans.
inductive Condition (π : Type) where
  | predicate (e : Expr)
  | raw (sql : Text) (values : List Value)
  | inValues (column : Text) (values : List Value) (negated : Bool)
  | inQuery (column : Text) (query : π) (negated : Bool)
  | inRaw (column sql : Text) (negated : Bool)
  | exists (query : π) (negated : Bool)

inductive SetOperator where
  | union
  | unionAll
  | intersect
  | except
  deriving DecidableEq

def SetOperator.text : SetOperator → Text
  | .union => "UNION"
  | .unionAll => "UNION ALL"
  | .intersect => "INTERSECT"
  | .except => "EXCEPT"

def SetOperator.all : List SetOperator := [.union, .unionAll, .intersect, .except]

def SetOperator.ofText? (t : Text) : Option SetOperator := all.find? (·.text == t)

inductive Operand (π : Type) where
  | query (q : π)
  | raw (sql : Text)

structure SetOperation (π : Type) where
  operator : SetOperator
  operand : Operand π

structure Order where
  selector : Expr
  ascending : Bool

-- One side of a branch: hand-written SQL or something that is compiled.
inductive Side (ε : Type) where
  | raw (sql : Text)
  | of (e : ε)

-- An empty expression stands for empty SQL.
def Side.ofExpr? : Option Expr → Side Expr
  | none => .raw []
  | some e => .of e

structure Case (ε : Type) where
  branches : List (Side ε × Side ε)
  otherwise : Option ε := none
  aliasName : Text := []

-- The clauses that hold no other plan. An empty raw text is not used.
structure Clauses where
  root : Entity
  maxIncludeDepth : Int := 5
  orders : List Order := []
  groupKeys : List Expr := []
  having : List Expr := []
  includes : List Text := []
  tables : List CommonTable := []
  windows : List Window := []
  cases : List (Case Expr) := []
  rawJoins : List Text := []
  rawSelect : Text := []
  rawFrom : Text := []
  distinct : Bool := false
  limit : Option Int := none
  offset : Option Int := none

structure Plan where
  clauses : Clauses
  conditions : List (Condition Plan) := []
  operations : List (SetOperation Plan) := []

namespace Plan

def new (root : Entity) (maxIncludeDepth : Int) : Plan := { clauses := { root, maxIncludeDepth } }

def root (p : Plan) : Entity := p.clauses.root

def change (p : Plan) (f : Clauses → Clauses) : Plan := { p with clauses := f p.clauses }

def hasHaving (p : Plan) : Bool := !p.clauses.having.isEmpty

def hasOperations (p : Plan) : Bool := !p.operations.isEmpty

def hasRawSelect (p : Plan) : Bool := !p.clauses.rawSelect.isEmpty

-- The field that a group key reads, if it reads a field of a row.
def keyField? (p : Plan) : Expr → Option Field
  | .member _ (.parameter _ parameter) name =>
    if parameter.group then none else p.root.property? name
  | _ => none

def groupFields (p : Plan) : List (Option Field) := p.clauses.groupKeys.map p.keyField?

end Plan

end EntitySql.Query
