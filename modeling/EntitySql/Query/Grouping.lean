import EntitySql.Query.Session

-- Grouped queries. Entities are grouped in memory by their key; a HAVING
-- predicate is left to the database, which is asked for the keys of the
-- groups first.

namespace EntitySql.Query

structure Group where
  key : Value
  items : List InstanceId

-- A row of keys and of the columns beside them.
structure GroupRow where
  key : Value
  values : List Value

-- A group with its named aggregates, in the order of the names.
structure Summary where
  key : Value
  values : List (Text × Value)

-- A single key is itself, several are an array.
def keyOf (parts : List Value) : Value :=
  match parts with
  | [part] => part
  | parts => .array parts

namespace Group

-- Adds an item to the first group of its key, or as a new group.
def add (same : Value → Value → Bool) (key : Value) (item : InstanceId) : List Group → List Group
  | [] => [⟨key, [item]⟩]
  | group :: rest =>
    if same group.key key then { group with items := group.items ++ [item] } :: rest
    else group :: add same key item rest

end Group

namespace GroupRow

-- A key cell as the field of the key holds it; keys that are no fields stay
-- as they are.
def readCell (converter : Conversion.Converter) (row : Nat) (column : Column) (f : Option Field)
    (v : Value) : Result Value :=
  match f with
  | none => .ok v
  | some f =>
    if v.isNull then .ok f.nullValue
    else (converter.fromDatabase v column.typeName f.type f.element).mapError
      (.mapping .groupKey f.column f.property row)

def readKeys (converter : Conversion.Converter) (row : Nat) :
    List (Option Field) → List Column → List Value → Result (List Value)
  | f :: fields, column :: columns, v :: cells => do
    let key ← readCell converter row column f v
    let keys ← readKeys converter row fields columns cells
    return key :: keys
  | _, _, _ => .ok []

def read (converter : Conversion.Converter) (fields : List (Option Field)) (set : ResultSet)
    (row : Nat) (cells : List Value) : Result GroupRow := do
  let keys ← readKeys converter row fields set.columns cells
  return ⟨keyOf keys, cells.drop fields.length⟩

-- Reading stops at a cancellation; the state tells whether there was one.
def readAll (converter : Conversion.Converter) (fields : List (Option Field)) (set : ResultSet)
    (index : Nat) : List (List Value) → ExceptT Error (StateM Bool) (List GroupRow)
  | [] => do
    MonadStateOf.set (← set.advance index (← get))
    return []
  | cells :: rest => do
    MonadStateOf.set (← set.advance index (← get))
    let row ← read converter fields set index cells
    let rows ← readAll converter fields set (index + 1) rest
    return row :: rows

end GroupRow

namespace Summary

def insertValue (name : Text) (v : Value) : List (Text × Value) → List (Text × Value)
  | [] => [(name, v)]
  | (n, w) :: rest =>
    match Text.order name n with
    | .lt => (name, v) :: (n, w) :: rest
    | .eq => (name, v) :: rest
    | .gt => (n, w) :: insertValue name v rest

-- Of two aggregates with one name the later counts.
def ofRow (names : List Text) (row : GroupRow) : Result Summary :=
  if row.values.length = names.length then
    .ok ⟨row.key, (names.zip row.values).foldl (fun values p => insertValue p.1 p.2 values) []⟩
  else .error (.engine (.aggregateColumns row.values.length names.length))

end Summary

namespace Session

def accessor (s : Services) (env : Environment) (p : Plan) (key : Expr) : Action Accessor := do
  let (accessor, _) ← compile ((p.plainCompiler s env).accessor key)
  return accessor

def groupItem (env : Environment) (selectors : List Accessor) (store : Store) (groups : List Group)
    (item : InstanceId) : Result (List Group) := do
  let parts ← selectors.mapM (· { captures := env.captures, store, entity := some item })
  return Group.add (Value.sameKey env.hashes) (keyOf parts) item groups

-- Groups in the order of their first items.
def groupInMemory (s : Services) (env : Environment) (p : Plan) (items : List InstanceId) :
    Action (List Group) := do
  let selectors ← p.clauses.groupKeys.mapM (accessor s env p)
  liftM (items.foldlM (groupItem env selectors (← get).store) [])

def fetchGroupRows (converter : Conversion.Converter) (r : Rendered)
    (fields : List (Option Field)) : Action (List GroupRow) := do
  let set ← runReader r
  if set.columns.length < fields.length then
    throw (.engine (.groupColumns set.columns.length fields.length r.sql))
  let reading := GroupRow.readAll converter fields set 0 set.rows
  let (result, cancelled) := reading.run (← get).connection.cancelled
  changeConnection fun c => { c with cancelled }
  result

def fetchKeys (converter : Conversion.Converter) (r : Rendered) (fields : List (Option Field)) :
    Action (List Value) := do
  let rows ← fetchGroupRows converter r fields
  return rows.map (·.key)

-- The keys of the groups that satisfy the HAVING predicates.
def qualifyingKeys (s : Services) (env : Environment) (p : Plan) : Action (List Value) := do
  let converter ← requireConverter s
  let rendered ← rows s env { keysOnly := true } p
  fetchKeys converter rendered p.groupFields

def fetchGroups (s : Services) (env : Environment) (p : Plan) : Action (List Group) := do
  let items ← fetch s env { omitGroups := true } p
  groupInMemory s env p items

-- The groups of a query with all their entities. With a HAVING predicate
-- only the groups of the qualifying keys are kept, and without any such key
-- no entities are fetched.
def groups (s : Services) (env : Environment) (p : Plan) : Action (List Group) := do
  if p.clauses.groupKeys.isEmpty then throw (.contract .noGroupKey)
  if !p.hasHaving then fetchGroups s env p
  else
    let keys ← qualifyingKeys s env p
    if keys.isEmpty then return []
    let qualifying := firstKeys (Value.sameKey env.hashes) keys
    let groups ← fetchGroups s env p
    return groups.filter fun g => qualifying.any (·.sameKey env.hashes g.key)

-- Keys and aggregates alone, computed by the database.
def summarize (s : Services) (env : Environment) (p : Plan)
    (aggregates : List (Text × Option Expr)) : Action (List Summary) := do
  if p.clauses.groupKeys.isEmpty then throw (.contract .noGroupKey)
  if aggregates.isEmpty then throw (.contract .noAggregate)
  let converter ← requireConverter s
  let rendered ← rows s env { keysOnly := true, aggregates } p
  let rows ← fetchGroupRows converter rendered p.groupFields
  rows.mapM fun row => Summary.ofRow (aggregates.map (·.1)) row

end Session

end EntitySql.Query
