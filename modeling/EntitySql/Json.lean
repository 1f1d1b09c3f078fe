import EntitySql.Binary64
import EntitySql.Text

-- JSON documents. An object keeps its members sorted by the bytes of their
-- keys, each key once. Whole numbers are kept signed or unsigned: a text without
-- a sign gives an unsigned one.

namespace EntitySql

inductive Json where
  | null
  | bool (b : Bool)
  | int (n : Int64)
  | unsigned (n : UInt64)
  | double (x : Float)
  | string (t : Text)
  | array (items : List Json)
  | object (members : List (Text × Json))

namespace Json

instance : Inhabited Json := ⟨.null⟩

-- Puts a member in the place of its key; an earlier one of that key goes.
def insertMember (key : Text) (value : Json) : List (Text × Json) → List (Text × Json)
  | [] => [(key, value)]
  | (k, v) :: rest =>
    if k = key then (key, value) :: rest
    else if Text.less key k then (key, value) :: (k, v) :: rest
    else (k, v) :: insertMember key value rest

def ofMembers (members : List (Text × Json)) : Json :=
  .object (members.foldl (fun out m => insertMember m.1 m.2 out) [])

def member? (key : Text) : Json → Option Json
  | .object members => (members.find? fun m => m.1 = key).map (·.2)
  | _ => none

-- Null, booleans, numbers, objects, arrays and strings, in this order.
def rank : Json → Nat
  | .null => 0
  | .bool _ => 1
  | .int _ => 2
  | .unsigned _ => 2
  | .double _ => 2
  | .object _ => 3
  | .array _ => 4
  | .string _ => 5

mutual

-- Numbers of two kinds are equal when they are the same double, or the same
-- signed number if both are whole.
def same : Json → Json → Bool
  | .null, .null => true
  | .bool a, .bool b => a == b
  | .int a, .int b => a == b
  | .unsigned a, .unsigned b => a == b
  | .int a, .unsigned b => a == b.toInt64
  | .unsigned a, .int b => a.toInt64 == b
  | .double a, .double b => a == b
  | .int a, .double b => Binary64.ofInt a.toInt == b
  | .double a, .int b => a == Binary64.ofInt b.toInt
  | .unsigned a, .double b => Binary64.ofInt a.toNat == b
  | .double a, .unsigned b => a == Binary64.ofInt b.toNat
  | .string a, .string b => a == b
  | .array a, .array b => sameItems a b
  | .object a, .object b => sameMembers a b
  | _, _ => false

def sameItems : List Json → List Json → Bool
  | [], [] => true
  | a :: as, b :: bs => same a b && sameItems as bs
  | _, _ => false

def sameMembers : List (Text × Json) → List (Text × Json) → Bool
  | [], [] => true
  | (k, a) :: as, (l, b) :: bs => k == l && same a b && sameMembers as bs
  | _, _ => false

end

def orderInts (a b : Int) : Ordering := if a < b then .lt else if b < a then .gt else .eq

def orderDoubles (a b : Float) : Ordering := if a < b then .lt else if b < a then .gt else .eq

mutual

-- Within arrays and objects the first difference decides.
def order : Json → Json → Ordering
  | .bool a, .bool b => if a == b then .eq else if b then .lt else .gt
  | .int a, .int b => orderInts a.toInt b.toInt
  | .unsigned a, .unsigned b => orderInts a.toNat b.toNat
  | .int a, .unsigned b => orderInts a.toInt b.toInt64.toInt
  | .unsigned a, .int b => orderInts a.toInt64.toInt b.toInt
  | .double a, .double b => orderDoubles a b
  | .int a, .double b => orderDoubles (Binary64.ofInt a.toInt) b
  | .double a, .int b => orderDoubles a (Binary64.ofInt b.toInt)
  | .unsigned a, .double b => orderDoubles (Binary64.ofInt a.toNat) b
  | .double a, .unsigned b => orderDoubles a (Binary64.ofInt b.toNat)
  | .string a, .string b => Text.order a b
  | .array a, .array b => orderItems a b
  | .object a, .object b => orderMembers a b
  | a, b => compare a.rank b.rank

def orderItems : List Json → List Json → Ordering
  | [], [] => .eq
  | _ :: _, [] => .gt
  | [], _ :: _ => .lt
  | a :: as, b :: bs => (order a b).then (orderItems as bs)

def orderMembers : List (Text × Json) → List (Text × Json) → Ordering
  | [], [] => .eq
  | _ :: _, [] => .gt
  | [], _ :: _ => .lt
  | (k, a) :: as, (l, b) :: bs =>
    (Text.order k l).then ((order a b).then (orderMembers as bs))

end

end Json

end EntitySql
