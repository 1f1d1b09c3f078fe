import EntitySql.Sql.Sanitizer

-- Common table expressions: queries that a WITH clause names.

namespace EntitySql.Query

inductive CommonTableBody where
  | plain (sql : Text)
  | recursive (anchor step : Text)
  deriving DecidableEq

structure CommonTable where
  name : Text
  columns : List Text := []
  body : CommonTableBody
  deriving DecidableEq

namespace CommonTableBody

def isRecursive : CommonTableBody → Bool
  | .plain _ => false
  | .recursive .. => true

def isComplete : CommonTableBody → Bool
  | .plain sql => !sql.isEmpty
  | .recursive anchor step => !anchor.isEmpty && !step.isEmpty

def text : CommonTableBody → Text
  | .plain sql => sql
  | .recursive anchor step => anchor ++ " UNION ALL " ++ step

end CommonTableBody

namespace CommonTable

-- A table needs a name and all of its body.
def fault? (t : CommonTable) : Option ContractFault :=
  if t.name.isEmpty then some (.missing .cteName)
  else if t.body.isComplete then none
  else some (.cteBody t.name)

-- The names that are quoted, in the order in which they are looked at.
def names (t : CommonTable) : List Text := t.name :: t.columns

def columnList (t : CommonTable) : Text :=
  if t.columns.isEmpty then []
  else " (" ++ Text.commaJoin (t.columns.map Sql.quoted) ++ ")"

def text (t : CommonTable) : Text :=
  Sql.quoted t.name ++ t.columnList ++ " AS (" ++ t.body.text ++ ")"

end CommonTable

-- One recursive table makes the whole clause recursive.
def withWord (tables : List CommonTable) : Text :=
  if tables.any (·.body.isRecursive) then "WITH RECURSIVE " else "WITH "

-- The WITH clause, with the blank behind it.
def withClause (tables : List CommonTable) : Text :=
  if tables.isEmpty then []
  else withWord tables ++ Text.commaJoin (tables.map CommonTable.text) ++ [Byte.space]

end EntitySql.Query
