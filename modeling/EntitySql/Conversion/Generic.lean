import EntitySql.Binary64.Reader
import EntitySql.Value.Access
import EntitySql.Value.Reader

-- Coercions between numbers, texts and truth values with range checks. A
-- conversion that would truncate or guess fails.

namespace EntitySql.Conversion

def notConvertible {α : Type} (raw : Value) (target : FieldType) : Result α :=
  .error (.conversion (.notConvertible raw target))

-- Whole doubles up to the word limit are taken; that bound itself, which no
-- 64-bit integer reaches, becomes the least integer.
def integerOfDouble? (x : Float) : Option Int64 := do
  let n ← (Binary64.ofFloat x).whole?
  if -(Text.wordLimit 64 : Int) ≤ n && n ≤ Text.wordLimit 64 then some (Int64.ofInt n) else none

def integerOfText? (t : Text) : Option Int64 := (Text.toIntWithin? 64 t).map Int64.ofInt

def integer? : Value → Option Int64
  | .int n => some n
  | .bool b => some (if b then 1 else 0)
  | .double x => integerOfDouble? x
  | .string t => integerOfText? t
  | _ => none

def toInteger (raw : Value) (target : FieldType) : Result Value :=
  match integer? raw with
  | none => notConvertible raw target
  | some n =>
    if target = .int32 ∧ ¬Text.inWord 32 n.toInt then notConvertible raw target
    else .ok (.int n)

-- Two bytes as one hexadecimal number; a blank or a sign may take the place
-- of the first digit.
def hexPair? (a b : UInt8) : Option UInt8 := do
  let low ← Byte.hexValue? b
  match Byte.hexValue? a with
  | some high => some (UInt8.ofNat (16 * high + low))
  | none =>
    if Byte.isSpace a || a = Byte.plus then some (UInt8.ofNat low)
    else if a = Byte.minus then some (0 - UInt8.ofNat low)
    else none

def hexPairs? : Text → Option (List UInt8)
  | [] => some []
  | [_] => none
  | a :: b :: rest => do
    let byte ← hexPair? a b
    let bytes ← hexPairs? rest
    return byte :: bytes

-- Bytes are written as a backslash, an x and two digits for each byte.
def bytesOfText? : Text → Option (List UInt8)
  | Byte.backslash :: 0x78 :: digits => hexPairs? digits
  | _ => none

def boolOfText? (t : Text) : Option Bool :=
  if t == "true" || t == "t" || t == "1" then some true
  else if t == "false" || t == "f" || t == "0" then some false
  else none

def bool? : Value → Option Bool
  | .bool b => some b
  | .int n => if n = 0 then some false else if n = 1 then some true else none
  | .string t => boolOfText? t
  | _ => none

def double? : Value → Option Float
  | .double x => some x
  | .int n => some (Binary64.ofInt n.toInt)
  | .string t => Binary64.read? t
  | _ => none

-- Every scalar type; the value is not null.
def scalarFromDatabase (raw : Value) (target : FieldType) : Result Value :=
  match target, raw with
  | .bool, _ =>
    match bool? raw with
    | some b => .ok (.bool b)
    | none => notConvertible raw target
  | .int32, _ => toInteger raw target
  | .int64, _ => toInteger raw target
  | .double, _ =>
    match double? raw with
    | some x => .ok (.double x)
    | none => notConvertible raw target
  | .string, .array _ => notConvertible raw target
  | .string, _ => .ok (.string raw.text)
  | .geometric, .array _ => notConvertible raw target
  | .geometric, _ => .ok (.string raw.text)
  | .uuid, .uuid _ => .ok raw
  | .uuid, .string t => (Uuid.ofText t).map .uuid
  | .timestamp, .timestamp _ => .ok raw
  | .timestamp, .string t => (Timestamp.ofText t).map .timestamp
  | .bytes, .bytes _ => .ok raw
  | .bitString, .bytes _ => .ok raw
  | .bytes, .string t =>
    match bytesOfText? t with
    | some b => .ok (.bytes b)
    | none => notConvertible raw target
  | .bitString, .string t =>
    match bytesOfText? t with
    | some b => .ok (.bytes b)
    | none => notConvertible raw target
  | .json, .json _ => .ok raw
  | .json, .string t => (Json.ofText t).map .json
  | .inet, .inet _ => .ok raw
  | .inet, .string t => (Inet.ofText t).map .inet
  | _, _ => notConvertible raw target

mutual

-- Null stays null, and arrays are converted item by item. An item that is
-- no array is converted to the element type; when that is the array type
-- itself, the item does not fit.
def fromDatabase (target element : FieldType) : Value → Result Value
  | .null => .ok .null
  | .array items =>
    if target = .array then (fromDatabaseItems element items).map .array
    else scalarFromDatabase (.array items) target
  | raw => scalarFromDatabase raw target

def fromDatabaseItems (element : FieldType) : List Value → Result (List Value)
  | [] => .ok []
  | .array inner :: rest => do
    let item ← fromDatabase .array element (.array inner)
    let items ← fromDatabaseItems element rest
    return item :: items
  | item :: rest => do
    let item ← fromDatabase element element item
    let items ← fromDatabaseItems element rest
    return item :: items

end

def toDatabase (value : Value) (source : FieldType) : Value :=
  match source, value with
  | .geometric, .null => .null
  | .geometric, _ => .string value.text
  | _, _ => value

end EntitySql.Conversion
