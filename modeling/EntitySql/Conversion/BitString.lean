import EntitySql.Value.Access

-- Bit strings: each byte is written with its least significant bit first.

namespace EntitySql.Conversion.BitString

def bitText (b : UInt8) (i : Nat) : UInt8 :=
  if b.toNat / Nat.pow 2 i % 2 = 1 then Byte.one else Byte.zero

def byteText (b : UInt8) : Text := (List.range 8).map (bitText b)

def text (bytes : List UInt8) : Text := bytes.flatMap byteText

-- The byte whose bits start with the given digits; missing bits are zero.
def byteOf (bits : Text) : Nat :=
  bits.foldr (fun c n => (if c = Byte.one then 1 else 0) + 2 * n) 0

-- Eight digits make a byte; the fuel is the number of digits.
def chunks : Nat → Text → List UInt8
  | 0, _ => []
  | fuel + 1, bits =>
    if bits.isEmpty then [] else UInt8.ofNat (byteOf (bits.take 8)) :: chunks fuel (bits.drop 8)

def isBit (c : UInt8) : Bool := c == Byte.zero || c == Byte.one

def ofText (t : Text) : Result (List UInt8) :=
  if t.all isBit then .ok (chunks t.length t)
  else .error (.conversion (.invalidBitString t))

end EntitySql.Conversion.BitString
