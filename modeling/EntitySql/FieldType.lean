import EntitySql.Value

-- The declared types of mapped fields.

namespace EntitySql

-- Bit strings are held as bytes and geometric values as text.
inductive FieldType where
  | bool
  | int32
  | int64
  | double
  | string
  | uuid
  | timestamp
  | bytes
  | json
  | array
  | bitString
  | inet
  | geometric
  deriving DecidableEq, Repr

namespace FieldType

def name : FieldType → Text
  | .bool => "bool"
  | .int32 => "int32"
  | .int64 => "int64"
  | .double => "double"
  | .string => "string"
  | .uuid => "uuid"
  | .timestamp => "timestamp"
  | .bytes => "bytes"
  | .json => "json"
  | .array => "array"
  | .bitString => "bitstring"
  | .inet => "inet"
  | .geometric => "geometric"

def all : List FieldType :=
  [.bool, .int32, .int64, .double, .string, .uuid, .timestamp, .bytes, .json, .array, .bitString,
    .inet, .geometric]

def ofName? (t : Text) : Option FieldType := all.find? (·.name == t)

def isTextual : FieldType → Bool
  | .string => true
  | .geometric => true
  | _ => false

-- The value that stands for a database null in a field without nulls.
def default : FieldType → Value
  | .bool => .bool false
  | .int32 => .int 0
  | .int64 => .int 0
  | .double => .double 0
  | .string => .string []
  | .geometric => .string []
  | .uuid => .uuid Uuid.nil
  | .timestamp => .timestamp (Timestamp.ofUtc 0)
  | .bytes => .bytes []
  | .bitString => .bytes []
  | .json => .json .null
  | .array => .array []
  | .inet => .inet Inet.unspecified

end FieldType

end EntitySql
