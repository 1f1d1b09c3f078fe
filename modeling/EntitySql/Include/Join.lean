import EntitySql.Include.Plan
import EntitySql.Sql.Sanitizer

-- The SELECT list and the JOIN clauses of an include plan.

namespace EntitySql.Include

open EntitySql.Sql

def checkNames (names : List Text) : Result Unit :=
  match names.findSome? identifierFault? with
  | some fault => .error (.contract fault)
  | none => .ok ()

def columnText (column : Text × Text) : Text := quoted column.1 ++ Byte.dot :: quoted column.2

-- A column behind the alias of its table, perhaps under a new name.
structure SelectedColumn where
  column : Text × Text
  name : Option Text := none

namespace SelectedColumn

def names (c : SelectedColumn) : List Text := [c.column.2, c.column.1] ++ c.name.toList

def text (c : SelectedColumn) : Text :=
  match c.name with
  | none => columnText c.column
  | some name => columnText c.column ++ " AS " ++ quoted name

end SelectedColumn

-- The columns of an include are renamed, those of the root keep their names.
def rootColumn (f : Field) : SelectedColumn := { column := (Node.rootAlias, f.column) }

def nodeColumn (n : Node) (f : Field) : SelectedColumn :=
  { column := (n.aliasName, f.column), name := some (Plan.columnAlias n.aliasName f.column) }

def selectedColumns (p : Plan) : List SelectedColumn :=
  if p.isEmpty then []
  else p.root.fields.map rootColumn ++ p.nodes.flatMap fun n => n.target.fields.map (nodeColumn n)

-- A joined table under an alias and the two columns that must be equal.
structure Join where
  table : Text
  aliasName : Text
  left : Text × Text
  right : Text × Text

namespace Join

def names (j : Join) : List Text := [j.table, j.aliasName, j.left.2, j.left.1, j.right.2, j.right.1]

def text (j : Join) : Text :=
  "LEFT JOIN " ++ quoted j.table ++ " " ++ quoted j.aliasName ++ " ON " ++
    columnText j.left ++ " = " ++ columnText j.right

end Join

def keyColumn (e : Entity) : Text := (e.primaryKey?.map Field.column).getD []

-- A many-to-many hop joins its junction table first.
def joinsOf (n : Node) : List Join :=
  match n.navigation.relationship with
  | .reference column =>
    [⟨n.target.table, n.aliasName, (n.parentAlias, column), (n.aliasName, keyColumn n.target)⟩]
  | .collection column =>
    [⟨n.target.table, n.aliasName, (n.parentAlias, keyColumn n.source), (n.aliasName, column)⟩]
  | .manyToMany junction parentColumn targetColumn =>
    [⟨junction, n.junctionAlias, (n.parentAlias, keyColumn n.source),
        (n.junctionAlias, parentColumn)⟩,
      ⟨n.target.table, n.aliasName, (n.junctionAlias, targetColumn),
        (n.aliasName, keyColumn n.target)⟩]

def joins (p : Plan) : List Join := p.nodes.flatMap joinsOf

def selectList (p : Plan) : Result (List Text) := do
  checkNames ((selectedColumns p).flatMap SelectedColumn.names)
  return (selectedColumns p).map SelectedColumn.text

def joinClauses (p : Plan) : Result (List Text) := do
  checkNames ((joins p).flatMap Join.names)
  return (joins p).map Join.text

-- The plan of a list of paths. Its SELECT list and its JOIN clauses are written at once,
-- so their names must be such that they can be quoted.
def Plan.make (registry : Registry) (maxDepth : Int) (root : Entity) (paths : List Text) :
    Result Plan := do
  let p ← Plan.ofPaths registry maxDepth root paths
  let _ ← selectList p
  let _ ← joinClauses p
  return p

end EntitySql.Include
