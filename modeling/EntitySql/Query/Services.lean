import EntitySql.Conversion.Database
import EntitySql.Sql.Compiler
import EntitySql.Value.Key

-- What all queries of one repository share.

namespace EntitySql.Query

-- The SQL dialects that statements can be written in.
inductive Dialect where
  | postgreSql
  deriving DecidableEq

structure Services where
  registry : Registry
  converter : Option Conversion.Converter := some {}
  options : Sql.Options := {}
  mode : Sql.Mode := .literal
  maxIncludeDepth : Int := 5

-- What the host provides at the time of an operation: the current time, in
-- microseconds, the values of captured variables, and the hash functions of its
-- libraries.
structure Environment where
  now : Int
  captures : Captures
  hashes : HashFunctions

namespace Services

-- Statements need a registry and a dialect.
def require (registry : Option Registry) (dialect : Option Dialect) : Result Registry :=
  match registry, dialect with
  | some registry, some _ => .ok registry
  | _, _ => .error (.contract .incompleteServices)

def compiler (s : Services) (env : Environment) (root : Entity) (includes : Option Include.Plan) :
    Sql.Compiler where
  registry := s.registry
  options := s.options
  mode := s.mode
  now := env.now
  captures := env.captures
  rootType := some root.type
  includes := includes

end Services

end EntitySql.Query
