import EntitySql.Text.Numeral

-- Universally unique identifiers: sixteen bytes, written as lower-case
-- hexadecimal digits in groups of 8, 4, 4, 4 and 12.

namespace EntitySql

structure Uuid where
  bytes : List UInt8
  length_bytes : bytes.length = 16 := by rfl
  deriving DecidableEq

namespace Uuid

def nil : Uuid := ⟨List.replicate 16 0, by rfl⟩

def isNil (u : Uuid) : Bool := u.bytes.all (· == 0)

def ofBytes? (bytes : List UInt8) : Option Uuid :=
  if h : bytes.length = 16 then some ⟨bytes, h⟩ else none

instance : Inhabited Uuid := ⟨nil⟩

-- The digits of the three accepted layouts: compact, with dashes at 8, 13,
-- 18 and 23, and with dashes inside braces.
def digits? (t : Text) : Option Text :=
  let body :=
    if t.length = 38 && t.head? = some Byte.openBrace && t.getLast? = some Byte.closeBrace then
      (t.drop 1).dropLast
    else t
  if body.length = 36 then
    if [8, 13, 18, 23].all fun i => body[i]? = some Byte.minus then
      some (body.take 8 ++ (body.drop 9).take 4 ++ (body.drop 14).take 4 ++ (body.drop 19).take 4 ++
        body.drop 24)
    else none
  else if body.length = 32 then some body
  else none

-- Two digits make a byte; a digit left over or a foreign byte refuses all.
def pairBytes? : Text → Option (List UInt8)
  | [] => some []
  | [_] => none
  | high :: low :: rest => do
    let h ← Byte.hexValue? high
    let l ← Byte.hexValue? low
    let bytes ← pairBytes? rest
    return UInt8.ofNat (16 * h + l) :: bytes

def read? (t : Text) : Option Uuid := do
  let digits ← digits? t
  let bytes ← pairBytes? digits
  ofBytes? bytes

-- Reads into a place that holds an identifier, which is written only at the end.
def tryRead (t : Text) : StateM Uuid Bool := do
  match read? t with
  | none => return false
  | some u =>
    set u
    return true

def text (u : Uuid) : Text :=
  let group (start count : Nat) := Text.hexBytes ((u.bytes.drop start).take count)
  Text.join "-" [group 0 4, group 4 2, group 6 2, group 8 2, group 10 6]

def less (a b : Uuid) : Bool := Text.less a.bytes b.bytes

end Uuid

end EntitySql
