import EntitySql.Text

-- Double-precision numbers taken apart and put together exactly. A finite
-- number is a sign, a natural mantissa and a power of two, so rounding,
-- remainders and the test for whole numbers are arithmetic on integers.

namespace EntitySql

inductive Binary64 where
  | nan
  | infinite (negative : Bool)
  | finite (negative : Bool) (mantissa : Nat) (exponent : Int)
  deriving DecidableEq

namespace Binary64

-- The implicit leading bit is made explicit; subnormal numbers have none.
def ofBits (bits : UInt64) : Binary64 :=
  let negative : Bool := decide (bits.toNat / Nat.pow 2 63 = 1)
  let field : Nat := bits.toNat / Nat.pow 2 52 % Nat.pow 2 11
  let fraction : Nat := bits.toNat % Nat.pow 2 52
  if field = 2047 then if fraction = 0 then .infinite negative else .nan
  else if field = 0 then .finite negative fraction (-1074)
  else .finite negative (fraction + Nat.pow 2 52) ((field : Int) - 1075)

def ofFloat (x : Float) : Binary64 := ofBits x.toBits

-- Division to the nearest whole number, a half going to the even neighbour.
def divideToEven (n d : Nat) : Nat :=
  let q := n / d
  let r := n % d
  if 2 * r < d then q else if d < 2 * r then q + 1 else q + q % 2

-- The ratio times 2 ^ (-e), as a ratio again.
def scaled (n d : Nat) (e : Int) : Nat × Nat :=
  if 0 ≤ e then (n, d * Nat.pow 2 e.toNat) else (n * Nat.pow 2 (-e).toNat, d)

-- The power of two at which a positive ratio has 53 bits before the point,
-- but not below the least one.
def unitExponent (n d : Nat) : Int :=
  let e : Int := (n.log2 : Int) - d.log2 - 53
  let s := scaled n d e
  max (if Nat.pow 2 53 ≤ s.1 / s.2 then e + 1 else e) (-1074)

-- The bits of the number nearest to n / d, ties going to the even mantissa.
-- A mantissa that rounds up to 2 ^ 53 carries into the exponent field by
-- itself; what passes the greatest finite number is infinite.
def nearestBits (negative : Bool) (n d : Nat) : UInt64 :=
  let sign := if negative then Nat.pow 2 63 else 0
  if n = 0 then UInt64.ofNat sign
  else
    let e := unitExponent n d
    let s := scaled n d e
    let magnitude := (e + 1074).toNat * Nat.pow 2 52 + divideToEven s.1 s.2
    UInt64.ofNat (sign + min magnitude (2047 * Nat.pow 2 52))

def nearest (negative : Bool) (n d : Nat) : Float := Float.ofBits (nearestBits negative n d)

def infinity (negative : Bool) : Float :=
  Float.ofBits (UInt64.ofNat ((if negative then Nat.pow 2 63 else 0) + 2047 * Nat.pow 2 52))

def notANumber : Float := Float.ofBits 0x7ff8000000000000

def ofInt (n : Int) : Float := nearest (decide (n < 0)) n.natAbs 1

def signed (negative : Bool) (n : Nat) : Int := if negative then -(n : Int) else n

-- The whole number that a float is, if it is one.
def whole? : Binary64 → Option Int
  | .finite negative m e =>
    if 0 ≤ e then some (signed negative (m * Nat.pow 2 e.toNat))
    else if m % Nat.pow 2 (-e).toNat = 0 then some (signed negative (m / Nat.pow 2 (-e).toNat))
    else none
  | _ => none

-- The nearest whole number, a half going away from zero.
def rounded? : Binary64 → Option Int
  | .finite negative m e =>
    if 0 ≤ e then some (signed negative (m * Nat.pow 2 e.toNat))
    else some (signed negative ((2 * m + Nat.pow 2 (-e).toNat) / Nat.pow 2 ((-e).toNat + 1)))
  | _ => none

-- The whole part, toward zero.
def truncated? : Binary64 → Option Int
  | .finite negative m e =>
    if 0 ≤ e then some (signed negative (m * Nat.pow 2 e.toNat))
    else some (signed negative (m / Nat.pow 2 (-e).toNat))
  | _ => none

-- The remainder of division with the quotient toward zero. It is exact and
-- has the sign of the dividend.
def remainder (x y : Float) : Float :=
  match ofFloat x, ofFloat y with
  | .finite negative m e, .finite _ m' e' =>
    if m' = 0 then notANumber
    else
      let low := min e e'
      let r := m * Nat.pow 2 (e - low).toNat % (m' * Nat.pow 2 (e' - low).toNat)
      if 0 ≤ low then nearest negative (r * Nat.pow 2 low.toNat) 1
      else nearest negative r (Nat.pow 2 (-low).toNat)
  | .finite .., .infinite _ => x
  | _, _ => notANumber

end Binary64

end EntitySql
