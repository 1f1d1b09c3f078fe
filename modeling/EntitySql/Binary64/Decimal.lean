import EntitySql.Binary64
import EntitySql.Text.Numeral

-- Decimal texts of doubles: seventeen significant digits for messages and
-- SQL, the fewest digits that read back for JSON.

namespace EntitySql.Binary64

-- The digits d and the place p of the value 0.d * 10 ^ p.
structure Significand where
  digits : Text
  point : Int

-- The power of ten with 10 ^ k ≤ n / d < 10 ^ (k + 1), for a positive ratio.
-- Below one, the least j with 10 ^ j * n ≥ d is a count of digits.
def decimalExponent (n d : Nat) : Int :=
  if d ≤ n then (Text.ofNat (n / d)).length - 1
  else -((Text.ofNat ((d + n - 1) / n - 1)).length : Int)

def magnitude (m : Nat) (e : Int) : Nat × Nat :=
  if 0 ≤ e then (m * Nat.pow 2 e.toNat, 1) else (m, Nat.pow 2 (-e).toNat)

-- The ratio times 10 ^ k.
def shifted (n d : Nat) (k : Int) : Nat × Nat :=
  if 0 ≤ k then (n * Nat.pow 10 k.toNat, d) else (n, d * Nat.pow 10 (-k).toNat)

-- The decimal q * 10 ^ (k + 1 - count) for a q of count digits. Rounding up
-- to one digit more moves the point.
def Significand.ofScaled (count q : Nat) (k : Int) : Significand :=
  if q = Nat.pow 10 count then ⟨Text.ofNat (Nat.pow 10 (count - 1)), k + 2⟩
  else ⟨Text.ofNat q, k + 1⟩

-- A positive ratio rounded to the given count of digits, ties to even.
def significand (count : Nat) (n d : Nat) : Significand :=
  let k := decimalExponent n d
  let s := shifted n d (count - 1 - k)
  .ofScaled count (divideToEven s.1 s.2) k

def dropTrailingZeros (digits : Text) : Text :=
  (digits.reverse.dropWhile (· = Byte.zero)).reverse

def exponentText (e : Int) : Text :=
  "e" ++ (if e < 0 then [Byte.minus] else [Byte.plus]) ++ Text.ofNatPadded 2 e.natAbs

def pointed : Text → Text
  | [] => []
  | [c] => [c]
  | c :: rest => c :: Byte.dot :: rest

-- Positional notation: the digits with a point at the given place, filled
-- with zeros where the digits do not reach it.
def positional (digits : Text) (point : Int) : Text :=
  if point ≤ 0 then "0." ++ List.replicate point.natAbs Byte.zero ++ digits
  else if point.toNat < digits.length then
    digits.take point.toNat ++ Byte.dot :: digits.drop point.toNat
  else digits ++ List.replicate (point.toNat - digits.length) Byte.zero

def signText (negative : Bool) : Text := if negative then [Byte.minus] else []

-- Seventeen significant digits without trailing zeros; the exponent is
-- written when it is below -4 or at least 17.
def seventeenDigits (x : Float) : Text :=
  match ofFloat x with
  | .nan => "nan"
  | .infinite negative => signText negative ++ "inf"
  | .finite negative m e =>
    let body : Text :=
      if m = 0 then "0"
      else
        let r := magnitude m e
        let s := significand 17 r.1 r.2
        let digits := dropTrailingZeros s.digits
        if s.point ≤ -4 || 17 < s.point then pointed digits ++ exponentText (s.point - 1)
        else positional digits s.point
    signText negative ++ body

-- Of the two neighbours of n / d with the given count of digits, those that
-- are nearest to the same double; the nearer one first.
def candidates (count : Nat) (n d : Nat) : List Significand :=
  let k := decimalExponent n d
  let s := shifted n d (count - 1 - k)
  let below := s.1 / s.2
  let nearer := divideToEven s.1 s.2
  let farther := if nearer = below then below + 1 else below
  let back (q : Nat) : UInt64 :=
    let r := shifted q 1 (k + 1 - count)
    nearestBits false r.1 r.2
  let target := nearestBits false n d
  ([nearer, farther].filter fun q => back q = target).map fun q => .ofScaled count q k

-- The fewest digits that read back, by trying 1, 2, … 17 digits.
def shortest (n d : Nat) : Significand :=
  ((List.range 17).findSome? fun i => (candidates (i + 1) n d).head?).getD (significand 17 n d)

-- Positional when the point lies within the first 15 digits or at most three
-- zeros before them, with a fraction of at least one digit; otherwise with
-- an exponent.
def shortestText (x : Float) : Option Text :=
  match ofFloat x with
  | .finite negative m e =>
    let body : Text :=
      if m = 0 then "0.0"
      else
        let r := magnitude m e
        let s := shortest r.1 r.2
        let digits := dropTrailingZeros s.digits
        if -4 < s.point && s.point ≤ 15 then
          let text := positional digits s.point
          if text.elem Byte.dot then text else text ++ ".0"
        else pointed digits ++ exponentText (s.point - 1)
    some (signText negative ++ body)
  | _ => none

end EntitySql.Binary64
