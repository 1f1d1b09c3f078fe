import EntitySql.Conversion.Database
import EntitySql.Include.Plan
import EntitySql.Rows
import EntitySql.Store
import EntitySql.Value.Key

-- Entity graphs from flat rows. Instances of the root are told apart by
-- their keys, and so are those of every include; an include that repeats
-- under one parent, as joins of several collections make it, is linked once.

namespace EntitySql

-- A mapped field and the column of the result set that carries it.
structure ColumnBinding where
  field : Field
  ordinal : Nat
  databaseType : Text

structure EntityBinding where
  entity : Entity
  columns : List ColumnBinding

namespace EntityBinding

def bindField (columns : List Column) (aliasName : Option Text) (f : Field) :
    Option ColumnBinding := do
  let name := match aliasName with
    | none => f.column
    | some a => Include.Plan.columnAlias a f.column
  let ordinal ← ResultSet.ordinal? columns name
  let column ← columns[ordinal]?
  return ⟨f, ordinal, column.typeName⟩

-- Fields without a column stay unbound.
def bind (columns : List Column) (e : Entity) (aliasName : Option Text) : EntityBinding :=
  ⟨e, e.fields.filterMap (bindField columns aliasName)⟩

def key? (b : EntityBinding) : Option ColumnBinding :=
  match b.entity.primaryKey? with
  | none => none
  | some f => b.columns.find? (·.field = f)

end EntityBinding

-- One row under the cursor.
structure Row where
  index : Nat
  cells : List Value

def Row.cell (r : Row) (ordinal : Nat) : Value := r.cells.getD ordinal .null

namespace Row

def mappingError (r : Row) (f : Field) (cause : Error) : Error :=
  .mapping .field f.column f.property r.index cause

def readCell (converter : Conversion.Converter) (r : Row) (b : ColumnBinding) : Result Value :=
  let v := r.cell b.ordinal
  if v.isNull then .ok b.field.nullValue
  else converter.fromDatabase v b.databaseType b.field.type b.field.element

def readColumn (converter : Conversion.Converter) (r : Row) (b : ColumnBinding) : Result Value :=
  (readCell converter r b).mapError (r.mappingError b.field)

def readInto (converter : Conversion.Converter) (r : Row) (i : Instance) (b : ColumnBinding) :
    Result Instance := do
  let v ← r.readColumn converter b
  (i.set b.field v).mapError (r.mappingError b.field)

-- A new instance with the value of every bound column.
def readInstance (converter : Conversion.Converter) (r : Row) (b : EntityBinding) :
    Result Instance :=
  b.columns.foldlM (r.readInto converter) (Instance.new b.entity)

-- A join without a match leaves all columns null.
def isUnmatched (r : Row) (b : EntityBinding) : Bool :=
  b.columns.all fun c => (r.cell c.ordinal).isNull

end Row

-- What a materializer remembers between rows and between result sets: the
-- instance for each key of the root and of each include, and which includes
-- are linked below which parent key already.
structure Memory where
  roots : List (Value × InstanceId) := []
  related : List (Nat × Value × InstanceId) := []
  linked : List (Nat × Value × Value) := []
  synthetic : Nat := 0

namespace Memory

def root? (m : Memory) (same : Value → Value → Bool) (key : Value) : Option InstanceId :=
  (m.roots.find? fun e => same e.1 key).map (·.2)

def related? (m : Memory) (same : Value → Value → Bool) (node : Nat) (key : Value) :
    Option InstanceId :=
  (m.related.find? fun e => e.1 = node && same e.2.1 key).map (·.2.2)

def isLinked (m : Memory) (same : Value → Value → Bool) (node : Nat) (parentKey key : Value) :
    Bool :=
  m.linked.any fun e => e.1 = node && same e.2.1 parentKey && same e.2.2 key

end Memory

-- Its tables take keys for one by the test.
structure Materializer where
  root : Entity
  converter : Conversion.Converter
  trees : List Include.Tree := []
  same : Value → Value → Bool

namespace Materializer

structure State where
  memory : Memory := {}
  store : Store := {}
  cancelled : Bool := false

abbrev Step := ExceptT Error (StateM State)

-- A key of no column: an array that no scalar key equals.
def syntheticKey : Step Value := do
  let s ← get
  let n := s.memory.synthetic
  set { s with memory := { s.memory with synthetic := n + 1 } }
  return .array [.null, .int (Int64.ofNat n)]

-- Without a key column every row is an instance of its own. A null key is
-- refused for the root.
def readKey (m : Materializer) (b : EntityBinding) (row : Row) (required : Bool) : Step Value := do
  match b.key? with
  | none => syntheticKey
  | some column =>
    if (row.cell column.ordinal).isNull then
      if required then
        throw (.contract (.nullKey column.field.column b.entity.name row.index))
      else syntheticKey
    else row.readColumn m.converter column

def insert (i : Instance) : Step InstanceId := do
  let s ← get
  let (store, id) := s.store.insert i
  set { s with store }
  return id

def link (n : Navigation) (parent target : InstanceId) : Step Unit :=
  modify fun s => { s with store := s.store.update parent (·.link n target) }

-- The instance of an include for a key, read from the row if it is new.
def relatedInstance (m : Materializer) (node : Nat) (b : EntityBinding) (row : Row) (key : Value) :
    Step InstanceId := do
  match (← get).memory.related? m.same node key with
  | some id => return id
  | none =>
    let id ← insert (← row.readInstance m.converter b)
    modify fun s =>
      { s with memory := { s.memory with related := s.memory.related ++ [(node, key, id)] } }
    return id

-- References are set on every row, entries of collections once per parent.
def linkRelated (m : Materializer) (n : Include.Node) (parent : InstanceId)
    (parentKey key : Value) (related : InstanceId) : Step Unit := do
  if n.isCollection then
    if (← get).memory.isLinked m.same n.number parentKey key then return ()
    modify fun s =>
      let linked := s.memory.linked ++ [(n.number, parentKey, key)]
      { s with memory := { s.memory with linked } }
  link n.navigation parent related

mutual

def readTree (m : Materializer) (columns : List Column) (row : Row) (parent : InstanceId)
    (parentKey : Value) : Include.Tree → Step Unit
  | .node n children => do
    let b := EntityBinding.bind columns n.target (some n.aliasName)
    if row.isUnmatched b then return ()
    let key ← m.readKey b row false
    let related ← m.relatedInstance n.number b row key
    m.linkRelated n parent parentKey key related
    readTrees m columns row related key children

def readTrees (m : Materializer) (columns : List Column) (row : Row) (parent : InstanceId)
    (parentKey : Value) : List Include.Tree → Step Unit
  | [] => return ()
  | tree :: rest => do
    readTree m columns row parent parentKey tree
    readTrees m columns row parent parentKey rest

end

-- One row; the result is its root instance if the row is the first of it.
def readRow (m : Materializer) (columns : List Column) (row : Row) : Step (Option InstanceId) := do
  let b := EntityBinding.bind columns m.root none
  let key ← m.readKey b row true
  match (← get).memory.root? m.same key with
  | some id =>
    m.readTrees columns row id key m.trees
    return none
  | none =>
    let id ← insert (← row.readInstance m.converter b)
    modify fun s => { s with memory := { s.memory with roots := s.memory.roots ++ [(key, id)] } }
    m.readTrees columns row id key m.trees
    return some id

def advance (set : ResultSet) (index : Nat) : Step Unit := do
  let cancelled ← set.advance index (← get).cancelled
  modify fun s => { s with cancelled }

-- The rows from an index on. Finding that there is none left takes an
-- advance as well.
def readRows (m : Materializer) (set : ResultSet) (index : Nat) :
    List (List Value) → Step (List InstanceId)
  | [] => do
    advance set index
    return []
  | cells :: rest => do
    advance set index
    let new ← m.readRow set.columns ⟨index, cells⟩
    let others ← readRows m set (index + 1) rest
    return new.toList ++ others

-- The root instances of a result set in the order of their first rows.
def read (m : Materializer) (set : ResultSet) : Step (List InstanceId) :=
  m.readRows set 0 set.rows

def forget : Step Unit := modify fun s => { s with memory := {} }

end Materializer

end EntitySql
