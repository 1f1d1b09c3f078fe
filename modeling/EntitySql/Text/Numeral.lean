import EntitySql.Text

-- Decimal and hexadecimal numerals: writing numbers and bytes, and reading
-- the integers that are accepted from text.

namespace EntitySql.Text

-- The fuel bounds the number of digits; one more than the number suffices.
def digitsWithin : Nat → Nat → Text
  | 0, _ => []
  | fuel + 1, n =>
    if n < 10 then [Byte.digit n] else digitsWithin fuel (n / 10) ++ [Byte.digit (n % 10)]

def ofNat (n : Nat) : Text := digitsWithin (n + 1) n

def ofInt : Int → Text
  | .ofNat n => ofNat n
  | .negSucc n => Byte.minus :: ofNat (n + 1)

def zeroFilled (width : Nat) (digits : Text) : Text :=
  List.replicate (width - digits.length) Byte.zero ++ digits

-- At least the given number of digits, filled with zeros on the left.
def ofNatPadded (width n : Nat) : Text := zeroFilled width (ofNat n)

-- At least the given width, where a minus sign counts as part of the width.
def ofIntPadded (width : Nat) : Int → Text
  | .ofNat n => ofNatPadded width n
  | .negSucc n => Byte.minus :: ofNatPadded (width - 1) (n + 1)

def hexByte (b : UInt8) : Text := [Byte.digit (b.toNat / 16), Byte.digit (b.toNat % 16)]

def hexBytes (bytes : List UInt8) : Text := bytes.flatMap hexByte

-- The fewest hexadecimal digits of a number below 2 ^ 16.
def hexGroup (n : Nat) : Text :=
  if n < 0x10 then [Byte.digit n]
  else if n < 0x100 then [Byte.digit (n / 16), Byte.digit (n % 16)]
  else if n < 0x1000 then [Byte.digit (n / 256), Byte.digit (n / 16 % 16), Byte.digit (n % 16)]
  else [Byte.digit (n / 4096 % 16), Byte.digit (n / 256 % 16), Byte.digit (n / 16 % 16),
    Byte.digit (n % 16)]

-- The number that a run of decimal digits spells; other bytes do not occur.
def digitsValue (digits : Text) : Nat :=
  digits.foldl (fun n c => n * 10 + (c.toNat - 0x30)) 0

def hexDigitsValue (digits : Text) : Nat :=
  digits.foldl (fun n c => n * 16 + (Byte.hexValue? c).getD 0) 0

-- Exactly the given number of decimal digits at the front, and the rest.
def takeDigits? (count : Nat) (t : Text) : Option (Nat × Text) :=
  let digits := t.take count
  if digits.length = count && digits.all Byte.isDigit then some (digitsValue digits, t.drop count)
  else none

-- A sign at the front, if there is one: true stands for minus.
def takeSign : Text → Bool × Text
  | Byte.minus :: rest => (true, rest)
  | Byte.plus :: rest => (false, rest)
  | t => (false, t)

-- White space, an optional sign and at least one digit, with nothing behind.
def toInt? (t : Text) : Option Int :=
  let (negative, digits) := takeSign (t.dropWhile Byte.isSpace)
  if digits.isEmpty || !digits.all Byte.isDigit then none
  else some (if negative then -(digitsValue digits : Int) else digitsValue digits)

-- One past the greatest integer of the given number of bits in two's
-- complement.
def wordLimit (bits : Nat) : Nat := Nat.pow 2 (bits - 1)

-- The range of an integer of the given number of bits.
def inWord (bits : Nat) (n : Int) : Bool :=
  decide (-(wordLimit bits : Int) ≤ n) && decide (n < wordLimit bits)

def toIntWithin? (bits : Nat) (t : Text) : Option Int :=
  (toInt? t).filter (inWord bits)

end EntitySql.Text
