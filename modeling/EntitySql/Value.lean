import EntitySql.Inet
import EntitySql.Json
import EntitySql.Timestamp
import EntitySql.Uuid

-- The dynamic values that pass between queries, rows and entities.

namespace EntitySql

inductive Kind where
  | null
  | bool
  | int
  | double
  | string
  | uuid
  | timestamp
  | bytes
  | array
  | json
  | inet
  deriving DecidableEq, Repr

-- Integers of every width are held in 64 bits.
inductive Value where
  | null
  | bool (b : Bool)
  | int (n : Int64)
  | double (x : Float)
  | string (t : Text)
  | uuid (u : Uuid)
  | timestamp (t : Timestamp)
  | bytes (b : List UInt8)
  | array (items : List Value)
  | json (j : Json)
  | inet (a : Inet)

namespace Kind

def name : Kind → Text
  | .null => "null"
  | .bool => "bool"
  | .int => "int"
  | .double => "double"
  | .string => "string"
  | .uuid => "uuid"
  | .timestamp => "timestamp"
  | .bytes => "bytes"
  | .array => "array"
  | .json => "json"
  | .inet => "inet"

-- The place of a kind in the order of values.
def rank : Kind → Nat
  | .null => 0
  | .bool => 1
  | .int => 2
  | .double => 3
  | .string => 4
  | .uuid => 5
  | .timestamp => 6
  | .bytes => 7
  | .array => 8
  | .json => 9
  | .inet => 10

end Kind

namespace Value

instance : Inhabited Value := ⟨.null⟩

def kind : Value → Kind
  | .null => .null
  | .bool _ => .bool
  | .int _ => .int
  | .double _ => .double
  | .string _ => .string
  | .uuid _ => .uuid
  | .timestamp _ => .timestamp
  | .bytes _ => .bytes
  | .array _ => .array
  | .json _ => .json
  | .inet _ => .inet

def isNull : Value → Bool
  | .null => true
  | _ => false

def isNumeric : Value → Bool
  | .int _ => true
  | .double _ => true
  | _ => false

mutual

-- Values of different kinds differ, also the numbers 1 and 1.0. A NaN
-- differs from itself.
def same : Value → Value → Bool
  | .null, .null => true
  | .bool a, .bool b => a == b
  | .int a, .int b => a == b
  | .double a, .double b => a == b
  | .string a, .string b => a == b
  | .uuid a, .uuid b => a == b
  | .timestamp a, .timestamp b => a.same b
  | .bytes a, .bytes b => a == b
  | .array a, .array b => sameItems a b
  | .json a, .json b => a.same b
  | .inet a, .inet b => a == b
  | _, _ => false

def sameItems : List Value → List Value → Bool
  | [], [] => true
  | a :: as, b :: bs => same a b && sameItems as bs
  | _, _ => false

end

instance : BEq Value := ⟨same⟩

def orderBy {α : Type} (less : α → α → Bool) (a b : α) : Ordering :=
  if less a b then .lt else if less b a then .gt else .eq

mutual

-- The kind decides first. Timestamps compare as instants, so an unzoned one
-- and a zoned one can be unequal without either coming first.
def order : Value → Value → Ordering
  | .bool a, .bool b => if a == b then .eq else if b then .lt else .gt
  | .int a, .int b => orderBy (fun x y => decide (x < y)) a b
  | .double a, .double b => Json.orderDoubles a b
  | .string a, .string b => Text.order a b
  | .uuid a, .uuid b => orderBy Uuid.less a b
  | .timestamp a, .timestamp b => orderBy Timestamp.less a b
  | .bytes a, .bytes b => Text.order a b
  | .array a, .array b => orderItems a b
  | .json a, .json b => Json.order a b
  | .inet a, .inet b => orderBy Inet.less a b
  | a, b => compare a.kind.rank b.kind.rank

def orderItems : List Value → List Value → Ordering
  | [], [] => .eq
  | _ :: _, [] => .gt
  | [], _ :: _ => .lt
  | a :: as, b :: bs => (order a b).then (orderItems as bs)

end

def less (a b : Value) : Bool := order a b == .lt

end Value

end EntitySql
