import EntitySql.Inet

-- Reading network addresses: dotted decimal bytes, or hexadecimal groups
-- with at most one run of zeros written as two colons; either may end in a
-- slash and a mask length.

namespace EntitySql.Inet

-- One to three digits.
def maskLength? (t : Text) : Option Nat :=
  if t.isEmpty || 3 < t.length || !t.all Byte.isDigit then none else some (Text.digitsValue t)

def v4Byte? (t : Text) : Option UInt8 :=
  if t.isEmpty || 3 < t.length || !t.all Byte.isDigit then none
  else if 255 < Text.digitsValue t then none
  else some (UInt8.ofNat (Text.digitsValue t))

def v4? (t : Text) : Option Ipv4 :=
  match (Text.split Byte.dot t).mapM v4Byte? with
  | some [a, b, c, d] => some ⟨[a, b, c, d], by rfl⟩
  | _ => none

-- The groups read so far, before and after the run of zeros.
structure Groups where
  front : List UInt16 := []
  back : List UInt16 := []
  compressed : Bool := false

namespace Groups

def push (g : Groups) (digits : Text) : Groups :=
  let group := UInt16.ofNat (Text.hexDigitsValue digits)
  if g.compressed then { g with back := g.back ++ [group] }
  else { g with front := g.front ++ [group] }

-- The missing groups of a compressed address are zeros.
def address? (g : Groups) : Option Ipv6 :=
  let count := g.front.length + g.back.length
  if h : count ≤ 8 ∧ (g.compressed ∨ count = 8) then
    some ⟨g.front ++ List.replicate (8 - count) 0 ++ g.back, by
      simp only [List.length_append, List.length_replicate]; omega⟩
  else none

end Groups

-- Reads groups of one to four digits, each behind a single colon or the one
-- pair of colons. The fuel bounds the number of groups.
def takeGroups? : Nat → Groups → Text → Option Groups
  | 0, _, _ => none
  | _ + 1, g, [] => some g
  | fuel + 1, g, t =>
    let digits := t.takeWhile Byte.isHexDigit
    if digits.isEmpty || 4 < digits.length then none
    else
      let g := g.push digits
      match t.dropWhile Byte.isHexDigit with
      | [] => some g
      | Byte.colon :: Byte.colon :: rest =>
        if g.compressed then none else takeGroups? fuel { g with compressed := true } rest
      | Byte.colon :: rest => takeGroups? fuel g rest
      | _ => none

def v6? (t : Text) : Option Ipv6 := do
  let groups ← match t with
    | Byte.colon :: Byte.colon :: rest => takeGroups? (t.length + 1) { compressed := true } rest
    | _ => takeGroups? (t.length + 1) {} t
  groups.address?

-- The text before the first slash and, if there is one, the text behind it.
def cutMask (t : Text) : Text × Option Text :=
  let host := t.takeWhile (· ≠ Byte.slash)
  match t.dropWhile (· ≠ Byte.slash) with
  | [] => (host, none)
  | _ :: mask => (host, some mask)

def withMask? (limit : Nat) (mask : Option Nat) (host : Host) : Option Inet :=
  match mask with
  | none => some ⟨host, none⟩
  | some n => if n ≤ limit then some ⟨host, some n⟩ else none

def read? (t : Text) : Option Inet := do
  let (host, maskText) := cutMask t
  let mask ← match maskText with
    | none => some none
    | some m => (maskLength? m).map some
  if host.elem Byte.colon then withMask? 128 mask (.v6 (← v6? host))
  else withMask? 32 mask (.v4 (← v4? host))

end EntitySql.Inet
