import EntitySql.Binary64
import EntitySql.Text.Numeral

-- Reading doubles from text: decimal and hexadecimal notation, infinities
-- and NaN, after white space and an optional sign. The whole text must be
-- one number. Values are rounded to nearest, ties to even.

namespace EntitySql.Binary64

-- Digits before and after an optional point.
structure Mantissa where
  digits : Text
  fractionLength : Nat

-- How many digits carry the value: zeros in front do not count.
def Mantissa.significant (m : Mantissa) : Nat :=
  (m.digits.dropWhile (· = Byte.zero)).length

-- Splits a mantissa off the front; at least one digit is required.
def takeMantissa? (isDigit : UInt8 → Bool) (t : Text) : Option (Mantissa × Text) :=
  let whole := t.takeWhile isDigit
  let (fraction, rest) := match t.dropWhile isDigit with
    | Byte.dot :: r => (r.takeWhile isDigit, r.dropWhile isDigit)
    | r => ([], r)
  if whole.isEmpty && fraction.isEmpty then none
  else some (⟨whole ++ fraction, fraction.length⟩, rest)

-- A signed exponent behind its mark, or nothing at all.
def exponent? (mark : UInt8) : Text → Option Int
  | [] => some 0
  | c :: rest =>
    if Byte.toLower c = mark then
      let (negative, digits) := Text.takeSign rest
      if digits.isEmpty || !digits.all Byte.isDigit then none
      else some (signed negative (Text.digitsValue digits))
    else none

-- Powers beyond these bounds decide the result without being computed.
def scaledDecimal (negative : Bool) (n count : Nat) (e : Int) : Float :=
  if n = 0 then nearest negative 0 1
  else if 400 < e + count then infinity negative
  else if e + count < -400 then nearest negative 0 1
  else if 0 ≤ e then nearest negative (n * Nat.pow 10 e.toNat) 1
  else nearest negative n (Nat.pow 10 (-e).toNat)

def scaledBinary (negative : Bool) (n count : Nat) (e : Int) : Float :=
  if n = 0 then nearest negative 0 1
  else if 1100 < e + 4 * count && 1100 < e then infinity negative
  else if e + 4 * count < -1200 then nearest negative 0 1
  else if 0 ≤ e then nearest negative (n * Nat.pow 2 e.toNat) 1
  else nearest negative n (Nat.pow 2 (-e).toNat)

def readDecimal? (negative : Bool) (t : Text) : Option Float := do
  let (mantissa, rest) ← takeMantissa? Byte.isDigit t
  let e ← exponent? 0x65 rest
  return scaledDecimal negative (Text.digitsValue mantissa.digits) mantissa.significant
    (e - mantissa.fractionLength)

def readHexadecimal? (negative : Bool) (t : Text) : Option Float := do
  let (mantissa, rest) ← takeMantissa? Byte.isHexDigit t
  let e ← exponent? 0x70 rest
  return scaledBinary negative (Text.hexDigitsValue mantissa.digits) mantissa.significant
    (e - 4 * mantissa.fractionLength)

-- NaN may carry a payload of letters, digits and underscores in parentheses.
def isNanText (t : Text) : Bool :=
  t == "nan" ||
    (("nan(" : Text).isPrefixOf t && t.getLast? == some 0x29 &&
      ((t.drop 4).dropLast.all fun c => Byte.isAlphanumeric c || c == Byte.underscore))

def read? (t : Text) : Option Float :=
  let (negative, body) := Text.takeSign (t.dropWhile Byte.isSpace)
  let folded := Text.lower body
  if folded == "inf" || folded == "infinity" then some (infinity negative)
  else if isNanText folded then some notANumber
  else if ("0x" : Text).isPrefixOf folded then readHexadecimal? negative (body.drop 2)
  else readDecimal? negative body

end EntitySql.Binary64
