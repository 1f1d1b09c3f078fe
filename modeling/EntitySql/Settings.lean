import EntitySql.Error
import EntitySql.Json

-- The settings of a repository: its connection, the engine and logging.

namespace EntitySql

inductive SslMode where
  | disable
  | allow
  | prefer
  | require
  | verifyCa
  | verifyFull
  deriving DecidableEq

namespace SslMode

def name : SslMode → Text
  | .disable => "Disable"
  | .allow => "Allow"
  | .prefer => "Prefer"
  | .require => "Require"
  | .verifyCa => "VerifyCA"
  | .verifyFull => "VerifyFull"

def all : List SslMode := [.disable, .allow, .prefer, .require, .verifyCa, .verifyFull]

def isFiller (c : UInt8) : Bool := c == Byte.minus || c == Byte.underscore

-- Case, dashes and underscores do not matter.
def ofName? (t : Text) : Option SslMode :=
  all.find? fun m => Text.lower m.name == (Text.lower t).filter fun c => !isFiller c

end SslMode

inductive LogLevel where
  | trace
  | debug
  | info
  | warn
  | error
  | critical
  deriving DecidableEq

namespace LogLevel

def name : LogLevel → Text
  | .trace => "trace"
  | .debug => "debug"
  | .info => "info"
  | .warn => "warn"
  | .error => "error"
  | .critical => "critical"

-- Ignores case. Any other text means info.
def ofName (t : Text) : LogLevel :=
  let t := Text.lower t
  if t == "trace" then .trace
  else if t == "debug" then .debug
  else if t == "warn" || t == "warning" then .warn
  else if t == "error" || t == "err" then .error
  else if t == "critical" || t == "crit" then .critical
  else .info

end LogLevel

-- Properties under other names are kept in the order of the names.
structure ConnectionSettings where
  hostname : Text := []
  port : Option Int := none
  username : Text := []
  password : Text := []
  database : Text := []
  connectionTimeout : Option Int := none
  commandTimeout : Option Int := none
  minPoolSize : Option Int := none
  maxPoolSize : Option Int := none
  pooling : Option Bool := none
  sslMode : Option SslMode := none
  additional : List (Text × Text) := []
  deriving DecidableEq

structure EngineSettings where
  maxIncludeDepth : Int := 5
  captureSql : Bool := false
  parameterized : Bool := false
  nowHeuristic : Bool := true
  nowToleranceSeconds : Int := 5
  cacheCapacity : Nat := 1024
  deriving DecidableEq

structure LogSettings where
  level : Text := "info"
  file : Text := []
  deriving DecidableEq

structure Settings where
  connection : ConnectionSettings := {}
  engine : EngineSettings := {}
  log : LogSettings := {}
  deriving DecidableEq

def defaultPort : Int := 5432

namespace ConnectionSettings

def insertProperty (key value : Text) : List (Text × Text) → List (Text × Text)
  | [] => [(key, value)]
  | (k, v) :: rest =>
    match Text.order key k with
    | .lt => (key, value) :: (k, v) :: rest
    | .eq => (key, value) :: rest
    | .gt => (k, v) :: insertProperty key value rest

-- A property that is set again keeps the last value.
def setProperty (c : ConnectionSettings) (key value : Text) : ConnectionSettings :=
  { c with additional := insertProperty key value c.additional }

end ConnectionSettings

namespace Settings

def poolsCrossed (c : ConnectionSettings) : Bool :=
  match c.minPoolSize, c.maxPoolSize with
  | some low, some high => decide (high < low)
  | _, _ => false

def badPort? (c : ConnectionSettings) : Option Int :=
  c.port.filter fun port => decide (port ≤ 0) || decide (65535 < port)

-- The first value that is out of range.
def fault? (s : Settings) : Option ConfigurationFault :=
  if s.engine.maxIncludeDepth < 1 then some (.maxIncludeDepth s.engine.maxIncludeDepth)
  else if s.engine.nowToleranceSeconds < 0 then some .negativeTolerance
  else if s.engine.cacheCapacity = 0 then some .cacheCapacity
  else match badPort? s.connection with
    | some port => some (.portOutOfRange port)
    | none => if poolsCrossed s.connection then some .poolSizes else none

def validate (s : Settings) : Result Unit :=
  match s.fault? with
  | some fault => .error (.configuration fault)
  | none => .ok ()

def member (key : String) (value : Json) : Text × Json := (key, value)

def number (n : Int) : Json := .int (.ofInt n)

def optional {α : Type} (key : String) (toJson : α → Json) : Option α → List (Text × Json)
  | none => []
  | some a => [(Text.ofString key, toJson a)]

-- A password that is set is shown as stars.
def connectionJson (c : ConnectionSettings) : Json :=
  Json.ofMembers <|
    [member "hostname" (.string c.hostname), member "port" (number (c.port.getD defaultPort)),
      member "username" (.string c.username), member "database" (.string c.database)] ++
    (if c.password.isEmpty then [] else [member "password" (.string "***")]) ++
    optional "connection_timeout" number c.connectionTimeout ++
    optional "command_timeout" number c.commandTimeout ++
    optional "min_pool_size" number c.minPoolSize ++
    optional "max_pool_size" number c.maxPoolSize ++
    optional "pooling" .bool c.pooling ++
    optional "ssl_mode" (fun m => .string m.name) c.sslMode ++
    if c.additional.isEmpty then []
    else [member "additional_properties"
      (Json.ofMembers (c.additional.map fun p => (p.1, .string p.2)))]

def engineJson (e : EngineSettings) : Json :=
  Json.ofMembers
    [member "max_include_depth" (number e.maxIncludeDepth), member "capture_sql" (.bool e.captureSql),
      member "parameterized" (.bool e.parameterized),
      member "now_heuristic" (Json.ofMembers
        [member "enabled" (.bool e.nowHeuristic),
          member "tolerance_seconds" (number e.nowToleranceSeconds)]),
      member "accessor_cache_capacity" (.unsigned (.ofNat e.cacheCapacity))]

def logJson (l : LogSettings) : Json :=
  Json.ofMembers [member "level" (.string l.level), member "file" (.string l.file)]

def toJson (s : Settings) : Json :=
  Json.ofMembers
    [member "connection" (connectionJson s.connection), member "engine" (engineJson s.engine),
      member "logging" (logJson s.log)]

end Settings

end EntitySql
