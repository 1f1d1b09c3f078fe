import EntitySql.Query.Connection
import EntitySql.Query.Statement
import EntitySql.Rows.Materialize

-- Running statements on a connection. A session is all that changes while
-- queries run: the connection, the log, the accessor cache and the instances
-- that have been read.

namespace EntitySql.Query

structure Session where
  connection : Connection := {}
  log : StatementLog := {}
  cache : Option Sql.AccessorCache := none
  store : Store := {}

-- A step on a session; one that fails keeps the changes made so far.
abbrev Action := ExceptT Error (StateM Session)

namespace Session

-- A session needs a connection. A log that is not given stays off.
def new (connection : Option Connection) (log : Option StatementLog)
    (cache : Option Sql.AccessorCache) : Result Session :=
  match connection with
  | none => .error (.contract .noConnectionProvider)
  | some connection => .ok { connection, log := log.getD {}, cache }

-- Compiles with the cache of the session and no bindings.
def compile {α : Type} (x : Sql.Compiler.Step α) : Action (α × List Sql.Binding) := do
  let (result, state) := x.run { cache := (← get).cache }
  modify fun s => { s with cache := state.cache }
  match result with
  | .error e => throw e
  | .ok a => return (a, state.bindings)

def rows (s : Services) (env : Environment) (v : Variant) (p : Plan) : Action Rendered := do
  let ((statement, includes), bindings) ← compile (select s env v p)
  return ⟨statement.text, bindings, includes⟩

def update (s : Services) (env : Environment) (p : Plan) (assignments : Option Expr) :
    Action Rendered := do
  let (statement, bindings) ← compile (p.update s env assignments)
  return ⟨statement.text, bindings, none⟩

def measure (s : Services) (env : Environment) (p : Plan) (m : Measure (Option Expr))
    (predicate : Option Expr) : Action Rendered := do
  let (statement, bindings) ← compile (p.scalar s env m predicate)
  return ⟨statement.text, bindings, none⟩

-- Before a command: nothing runs after a cancellation or without a
-- connection, and what runs is recorded.
def start (r : Rendered) : Action Command := do
  let s ← get
  if s.connection.cancelled then throw .cancelled
  if s.connection.refuses then throw (.engine .noConnection)
  let command : Command := ⟨r.sql, r.bindings⟩
  set { s with log := s.log.record command }
  return command

def changeConnection (f : Connection → Connection) : Action Unit :=
  modify fun s => { s with connection := f s.connection }

def changeLog (f : StatementLog → StatementLog) : Action Unit :=
  modify fun s => { s with log := f s.log }

def runReader (r : Rendered) : Action ResultSet := do
  let command ← start r
  let (result, connection) := (← get).connection.execute command
  changeConnection fun _ => connection
  result

-- The command is given to the connection, and its prepared scalar is the
-- answer.
def runScalar (r : Rendered) : Action Value := do
  let command ← start r
  changeConnection (·.receive command)
  return (← get).connection.scalar

def runCommand (r : Rendered) : Action Int := do
  let command ← start r
  changeConnection (·.receive command)
  return (← get).connection.affected

-- The entities of a result, as new instances in the store.
def materialize (env : Environment) (r : Rendered) (root : Entity)
    (converter : Conversion.Converter) : Action (List InstanceId) := do
  let set ← runReader r
  let trees := (r.includes.map Include.Plan.trees).getD []
  let s ← get
  let reading := Materializer.read { root, converter, trees, same := Value.sameKey env.hashes } set
  let (result, state) := reading.run { store := s.store, cancelled := s.connection.cancelled }
  modify fun s => { s with store := state.store }
  changeConnection fun c => { c with cancelled := state.cancelled }
  result

def requireConverter (s : Services) : Result Conversion.Converter :=
  match s.converter with
  | some converter => .ok converter
  | none => .error (.contract .noValueConverter)

def fetch (s : Services) (env : Environment) (v : Variant) (p : Plan) :
    Action (List InstanceId) := do
  let converter ← requireConverter s
  let rendered ← rows s env v p
  materialize env rendered p.root converter

end Session

end EntitySql.Query
