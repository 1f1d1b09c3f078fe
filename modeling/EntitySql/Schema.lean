import EntitySql.Error
import EntitySql.Value.Access

-- How entity types are mapped: their fields, their navigations to other
-- entity types, and the registry that holds them.

namespace EntitySql

structure EntityType where
  name : Text
  deriving DecidableEq

-- The tag of a type in messages: its name behind the length of the name.
def EntityType.tag (t : EntityType) : Text := Text.ofNat t.name.length ++ t.name

-- The type of the member that holds a field in an instance.
inductive MemberType where
  | bool
  | int32
  | int64
  | double
  | string
  | uuid
  | timestamp
  | bytes
  | json
  | inet
  | array (item : MemberType)
  | optional (inner : MemberType)
  deriving DecidableEq

namespace MemberType

def fieldType : MemberType → FieldType
  | .bool => .bool
  | .int32 => .int32
  | .int64 => .int64
  | .double => .double
  | .string => .string
  | .uuid => .uuid
  | .timestamp => .timestamp
  | .bytes => .bytes
  | .json => .json
  | .inet => .inet
  | .array _ => .array
  | .optional inner => inner.fieldType

-- The innermost item type of an array; any other type is its own element.
def elementType : MemberType → FieldType
  | .array item => item.elementType
  | .optional inner => inner.elementType
  | scalar => scalar.fieldType

def isOptional : MemberType → Bool
  | .optional _ => true
  | _ => false

-- The value of the member in a new instance.
def initial : MemberType → Value
  | .bool => .bool false
  | .int32 => .int 0
  | .int64 => .int 0
  | .double => .double 0
  | .string => .string []
  | .uuid => .uuid Uuid.nil
  | .timestamp => .timestamp ⟨0, false, 0⟩
  | .bytes => .bytes []
  | .json => .json .null
  | .inet => .inet Inet.unspecified
  | .array _ => .array []
  | .optional _ => .null

-- The value as the member holds it. Only integers for doubles change their
-- kind, and only an optional member takes null.
def accept : MemberType → Value → Result Value
  | .bool, v => v.asBool.map .bool
  | .int32, v => do
    let n ← v.asInt
    if Text.inWord 32 n.toInt then return .int n
    else .error (.conversion (.outsideInt32 n.toInt))
  | .int64, v => v.asInt.map .int
  | .double, v => v.asDouble.map .double
  | .string, v => v.asString.map .string
  | .uuid, v => v.asUuid.map .uuid
  | .timestamp, v => v.asTimestamp.map .timestamp
  | .bytes, v => v.asBytes.map .bytes
  | .json, v => v.asJson.map .json
  | .inet, v => v.asInet.map .inet
  | .array item, v => do
    let items ← v.asArray
    let items ← items.mapM (accept item)
    return .array items
  | .optional inner, v => if v.isNull then .ok .null else accept inner v

end MemberType

structure Field where
  property : Text
  column : Text
  member : MemberType
  type : FieldType := member.fieldType
  primaryKey : Bool := false
  autoGenerated : Bool := false
  deriving DecidableEq

namespace Field

def element (f : Field) : FieldType := f.member.elementType

def nullable (f : Field) : Bool := f.member.isOptional

-- The value that a database null becomes.
def nullValue (f : Field) : Value := if f.nullable then .null else f.type.default

end Field

-- What a navigation joins on. The column of a reference belongs to the
-- entity that declares it, the column of a collection to its target.
inductive Relationship where
  | reference (foreignKey : Text)
  | collection (foreignKey : Text)
  | manyToMany (junction parentColumn targetColumn : Text)
  deriving DecidableEq

def Relationship.name : Relationship → Text
  | .reference _ => "foreign-key"
  | .collection _ => "inverse-foreign-key"
  | .manyToMany .. => "many-to-many"

structure Navigation where
  property : Text
  target : EntityType
  relationship : Relationship
  deriving DecidableEq

def Navigation.isCollection (n : Navigation) : Bool :=
  match n.relationship with
  | .reference _ => false
  | _ => true

structure Entity where
  type : EntityType
  name : Text
  table : Text
  fields : List Field := []
  navigations : List Navigation := []
  deriving DecidableEq

namespace Entity

-- By the exact name, or else the first that differs only in case.
def property? (e : Entity) (name : Text) : Option Field :=
  (e.fields.find? (·.property = name)).or (e.fields.find? fun f => Text.sameFolded f.property name)

def column? (e : Entity) (name : Text) : Option Field :=
  e.fields.find? fun f => Text.sameFolded f.column name

def navigation? (e : Entity) (name : Text) : Option Navigation :=
  e.navigations.find? (·.property = name)

-- The first field marked as key, or else the field of the property Id.
def primaryKey? (e : Entity) : Option Field :=
  (e.fields.find? (·.primaryKey)).or (e.fields.find? fun f => Text.sameFolded f.property "Id")

-- Adds a field; without a column of its own it is named like the property.
def addColumn (e : Entity) (property : Text) (member : MemberType) (column : Text)
    (primaryKey autoGenerated : Bool) : Entity :=
  let field : Field :=
    { property, member, primaryKey, autoGenerated,
      column := if column.isEmpty then property else column }
  { e with fields := e.fields ++ [field] }

def refines (declared requested : FieldType) : Bool :=
  (requested = .bitString && declared = .bytes) || (requested = .geometric && declared = .string) ||
    requested = declared

-- Declares the last field anew: bytes as a bit string or text as geometric.
def declareAs (e : Entity) (type : FieldType) : Result Entity :=
  match e.fields.getLast? with
  | none => .error (.contract (.typeWithoutColumn e.name))
  | some field =>
    if refines field.type type then
      .ok { e with fields := e.fields.dropLast ++ [{ field with type }] }
    else .error (.contract (.typeChange field.column field.type type))

end Entity

structure Registry where
  entities : List Entity

namespace Registry

def find? (r : Registry) (type : EntityType) : Option Entity := r.entities.find? (·.type = type)

def get (r : Registry) (type : EntityType) : Result Entity :=
  match r.find? type with
  | some e => .ok e
  | none => .error (.unresolved .entityType type.tag)

def size (r : Registry) : Nat := r.entities.length

end Registry

end EntitySql
