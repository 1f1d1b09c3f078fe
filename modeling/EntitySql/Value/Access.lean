import EntitySql.Error

-- Reading a value as one kind.

namespace EntitySql.Value

def wrongKind {α : Type} (v : Value) (expected : Kind) : Result α :=
  .error (.conversion (.wrongKind v.kind expected))

def asBool : Value → Result Bool
  | .bool b => .ok b
  | v => v.wrongKind .bool

def asInt : Value → Result Int64
  | .int n => .ok n
  | v => v.wrongKind .int

-- Integers widen to the nearest double.
def asDouble : Value → Result Float
  | .double x => .ok x
  | .int n => .ok (Binary64.ofInt n.toInt)
  | v => v.wrongKind .double

def asString : Value → Result Text
  | .string t => .ok t
  | v => v.wrongKind .string

def asUuid : Value → Result Uuid
  | .uuid u => .ok u
  | v => v.wrongKind .uuid

def asTimestamp : Value → Result Timestamp
  | .timestamp t => .ok t
  | v => v.wrongKind .timestamp

def asBytes : Value → Result (List UInt8)
  | .bytes b => .ok b
  | v => v.wrongKind .bytes

def asArray : Value → Result (List Value)
  | .array items => .ok items
  | v => v.wrongKind .array

def asJson : Value → Result Json
  | .json j => .ok j
  | v => v.wrongKind .json

def asInet : Value → Result Inet
  | .inet a => .ok a
  | v => v.wrongKind .inet

end EntitySql.Value
