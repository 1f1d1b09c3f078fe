import EntitySql.Conversion.ArrayLiteral
import EntitySql.Conversion.BitString
import EntitySql.Conversion.Generic

-- Conversion between the raw values of a database driver and field types.
-- The field type and the column's type name choose one conversion; whatever
-- has none of its own goes to a fallback.

namespace EntitySql.Conversion

-- How values are converted that need no representation of the database.
structure Fallback where
  fromDatabase : Value → FieldType → FieldType → Result Value
  toDatabase : Value → FieldType → Result Value
  canConvert : FieldType → Bool

def Fallback.generic : Fallback where
  fromDatabase raw target element := Conversion.fromDatabase target element raw
  toDatabase value source := .ok (Conversion.toDatabase value source)
  canConvert _ := true

structure Converter where
  fallback : Fallback := Fallback.generic

namespace Converter

def ofFallback? : Option Fallback → Result Converter
  | some fallback => .ok ⟨fallback⟩
  | none => .error (.contract .noFallbackConverter)

end Converter

inductive Route where
  | uuid
  | timestamp
  | array
  | json
  | geometric
  | network
  | bitString
  | generic
  deriving DecidableEq

namespace Route

def name : Route → Text
  | .uuid => "uuid"
  | .timestamp => "timestamp"
  | .array => "array"
  | .json => "json"
  | .geometric => "geometric"
  | .network => "network"
  | .bitString => "bitstring"
  | .generic => "generic"

def jsonTypes : List Text := ["json", "jsonb"]

def networkTypes : List Text := ["inet", "cidr"]

def bitTypes : List Text := ["bit", "varbit", "bit varying"]

def shapeTypes : List Text := ["point", "line", "lseg", "box", "path", "polygon", "circle"]

-- Shapes, and ranges of any kind.
def isGeometric (type : Text) : Bool :=
  shapeTypes.elem type || ("range" : Text).isSuffixOf type

def isArray (type : Text) : Bool :=
  type.head? == some Byte.underscore || ("[]" : Text).isSuffixOf type

-- The field type decides first; the case of the type name does not matter.
def classify (target : FieldType) (databaseType : Text) : Route :=
  let type := Text.lower databaseType
  match target with
  | .uuid => .uuid
  | .timestamp => .timestamp
  | .array => .array
  | .json => .json
  | .geometric => .geometric
  | .inet => .network
  | .bitString => .bitString
  | .string =>
    if jsonTypes.elem type then .json
    else if networkTypes.elem type then .network
    else if isGeometric type then .geometric
    else .generic
  | .bytes => if bitTypes.elem type then .bitString else .generic
  | _ => if isArray type then .array else .generic

end Route

def toUuid : Value → Result Value
  | .uuid u => .ok (.uuid u)
  | .string t => (Uuid.ofText t).map .uuid
  | .bytes b =>
    match Uuid.ofBytes? b with
    | some u => .ok (.uuid u)
    | none => .error (.conversion (.notReadableAs (.bytes b) .uuid))
  | raw => .error (.conversion (.notReadableAs raw .uuid))

def toTimestamp : Value → Result Value
  | .timestamp t => .ok (.timestamp t.toUtc)
  | .string t => (Timestamp.ofText t).map fun s => .timestamp s.toUtc
  | raw => .error (.conversion (.notReadableAs raw .timestamp))

def toGeometric (raw : Value) (target : FieldType) : Result Value :=
  if target.isTextual then .ok (.string raw.text)
  else .error (.conversion (.geometricTarget target))

def networkOf : Value → Result Inet
  | .inet a => .ok a
  | .string t => Inet.ofText t
  | raw => .error (.conversion (.noNetworkAddress raw.kind))

def toNetwork (raw : Value) (target : FieldType) : Result Value :=
  (networkOf raw).map fun a => if target.isTextual then .string a.text else .inet a

def toBitString : Value → Result Value
  | .bytes b => .ok (.bytes b)
  | .string t => (BitString.ofText t).map .bytes
  | raw => .error (.conversion (.noBitString raw.kind))

namespace Converter

def toJson (c : Converter) (raw : Value) (target : FieldType) : Result Value :=
  if target.isTextual then
    match raw with
    | .json j => .ok (.string j.text)
    | raw => raw.asString.map .string
  else c.fallback.fromDatabase raw .json .json

-- All conversions but those of arrays; the value is no null.
def scalarFromDatabase (c : Converter) (raw : Value) (databaseType : Text)
    (target element : FieldType) : Result Value :=
  match Route.classify target databaseType with
  | .uuid => toUuid raw
  | .timestamp => toTimestamp raw
  | .array => .error (.conversion (.arrayColumn databaseType target))
  | .json => c.toJson raw target
  | .geometric => toGeometric raw target
  | .network => toNetwork raw target
  | .bitString => toBitString raw
  | .generic => c.fallback.fromDatabase raw target element

mutual

-- The items of an array that has been read already. An item that is an
-- array is converted in the same way; any other has the element type, and
-- an element type of arrays makes a text an array literal once more.
def arrayItems (c : Converter) (element : FieldType) (ofLiteral : Text → Result Value) :
    List Value → Result (List Value)
  | [] => .ok []
  | item :: rest => do
    let item ← arrayItem c element ofLiteral item
    let items ← arrayItems c element ofLiteral rest
    return item :: items

def arrayItem (c : Converter) (element : FieldType) (ofLiteral : Text → Result Value) :
    Value → Result Value
  | .null => .ok .null
  | .array inner => (arrayItems c element ofLiteral inner).map .array
  | .string t =>
    if element = .array then ofLiteral t else c.scalarFromDatabase (.string t) [] element element
  | item =>
    if element = .array then .error (.conversion (.notReadableAs item .array))
    else c.scalarFromDatabase item [] element element

end

-- Array literals inside the texts of an array literal are shorter than it,
-- so its length bounds their depth.
def nestedLiteral (c : Converter) : Nat → Text → Result Value
  | 0, t => .error (.conversion (.invalidArrayLiteral t))
  | fuel + 1, t => do
    let items ← ArrayLiteral.ofText t
    let items ← c.arrayItems .array (nestedLiteral c fuel) items
    return .array items

def toArray (c : Converter) (raw : Value) (element : FieldType) : Result Value := do
  let ofLiteral (t : Text) := c.nestedLiteral (t.length + 1) t
  match raw with
  | .array items => (c.arrayItems element ofLiteral items).map .array
  | .string t =>
    let items ← ArrayLiteral.ofText t
    let items ← c.arrayItems element ofLiteral items
    return .array items
  | raw => .error (.conversion (.notReadableAs raw .array))

def fromDatabase (c : Converter) (raw : Value) (databaseType : Text) (target element : FieldType) :
    Result Value :=
  if raw.isNull then .ok raw
  else if target = .array then c.toArray raw element
  else c.scalarFromDatabase raw databaseType target element

def scalarToDatabase (c : Converter) (value : Value) (source : FieldType) : Result Value :=
  match source with
  | .timestamp => value.asTimestamp.map fun t => .timestamp t.toUtc
  | .bitString => value.asBytes.map fun b => .string (BitString.text b)
  | _ => c.fallback.toDatabase value source

mutual

-- Null stays null; of an array of arrays the inner items have the element
-- type too.
def toDatabase (c : Converter) (source element : FieldType) : Value → Result Value
  | .null => .ok .null
  | .array items =>
    if source = .array then (toDatabaseItems c element items).map .array
    else c.scalarToDatabase (.array items) source
  | value =>
    if source = .array then value.wrongKind .array else c.scalarToDatabase value source

def toDatabaseItems (c : Converter) (element : FieldType) : List Value → Result (List Value)
  | [] => .ok []
  | .array inner :: rest => do
    let item ← toDatabase c .array element (.array inner)
    let items ← toDatabaseItems c element rest
    return item :: items
  | item :: rest => do
    let item ← toDatabase c element element item
    let items ← toDatabaseItems c element rest
    return item :: items

end

end Converter

end EntitySql.Conversion
