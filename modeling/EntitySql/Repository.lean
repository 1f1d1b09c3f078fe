import EntitySql.Query.Grouping
import EntitySql.Query.Registration
import EntitySql.Settings

-- A repository answers queries over one entity type. The queries that it
-- makes share its services, and the session that they run in.

namespace EntitySql

open Query

structure Repository where
  entity : Entity
  services : Services

namespace Repository

def modeOf (e : EngineSettings) : Sql.Mode := if e.parameterized then .parameterized else .literal

def servicesOf (e : EngineSettings) (registry : Registry) : Services where
  registry := registry
  options :=
    { nowHeuristic := e.nowHeuristic, nowTolerance := e.nowToleranceSeconds * 1000000 }
  mode := modeOf e
  maxIncludeDepth := e.maxIncludeDepth

-- The settings must be in range and the type registered.
def new (settings : Settings) (registry : Option Registry) (type : EntityType) :
    Result Repository := do
  settings.validate
  match registry with
  | none => throw (.configuration .noRegistry)
  | some registry =>
    match registry.find? type with
    | none => throw (.configuration (.unregisteredEntity type.tag))
    | some entity => return ⟨entity, servicesOf settings.engine registry⟩

-- The session of a new repository.
def session (settings : Settings) (connection : Option Connection) : Result Session :=
  Session.new connection (some { enabled := settings.engine.captureSql })
    (some (LruCache.new settings.engine.cacheCapacity))

-- A new query takes its root from the registry and needs something to run
-- it.
def query (registry : Option Registry) (maxIncludeDepth : Int) (session : Option Session)
    (type : EntityType) : Result Plan := do
  match session, registry with
  | none, _ => throw (.contract .noExecutor)
  | some _, none => throw (.contract .noRegistry)
  | some _, some registry => return Plan.new (← registry.get type) maxIncludeDepth

def count (s : Services) (env : Environment) (p : Plan) (predicate : Option Expr) : Action Int := do
  let v ← Session.runScalar (← Session.measure s env p .count predicate)
  scalarToInt v

def any (s : Services) (env : Environment) (p : Plan) (predicate : Option Expr) : Action Bool := do
  let v ← Session.runScalar (← Session.measure s env p .any predicate)
  scalarToBool v

-- Null when there is no row.
def aggregate (s : Services) (env : Environment) (p : Plan) (f : Sql.Aggregate)
    (selector : Option Expr) : Action Value := do
  Session.runScalar (← Session.measure s env p (.aggregate f selector) none)

-- The number of rows that an update has changed. The predicate comes on top
-- of the filters of the query.
def update (s : Services) (env : Environment) (p : Plan) (predicate assignments : Option Expr) :
    Action Int := do
  let p ← (Registration.filter predicate).run.result p
  Session.runCommand (← Session.update s env p assignments)

def requireSql (sql : Text) : Result Unit :=
  if sql.isEmpty then .error (.contract (.missing .sql)) else .ok ()

-- Entities from hand-written SQL, whose columns are found by their names.
def ofSql (r : Repository) (env : Environment) (sql : Text) (bindings : List Sql.Binding) :
    Action (List InstanceId) := do
  requireSql sql
  let converter ← Session.requireConverter r.services
  Session.materialize env ⟨sql, bindings, none⟩ r.entity converter

def execute (sql : Text) (bindings : List Sql.Binding) : Action Int := do
  requireSql sql
  Session.runCommand ⟨sql, bindings, none⟩

end Repository

end EntitySql
