import EntitySql.Text.Numeral

-- Network addresses of both families with an optional mask length.

namespace EntitySql

structure Ipv4 where
  bytes : List UInt8
  length_bytes : bytes.length = 4 := by rfl
  deriving DecidableEq

structure Ipv6 where
  groups : List UInt16
  length_groups : groups.length = 8 := by rfl
  deriving DecidableEq

inductive Host where
  | v4 (address : Ipv4)
  | v6 (address : Ipv6)
  deriving DecidableEq

structure Inet where
  host : Host
  maskLength : Option Nat := none
  deriving DecidableEq

namespace Inet

def unspecified : Inet := ⟨.v4 ⟨[0, 0, 0, 0], by rfl⟩, none⟩

instance : Inhabited Inet := ⟨unspecified⟩

def isV6 (a : Inet) : Bool :=
  match a.host with
  | .v4 _ => false
  | .v6 _ => true

def Ipv6.bytes (a : Ipv6) : List UInt8 :=
  a.groups.flatMap fun g => [UInt8.ofNat (g.toNat / 256), UInt8.ofNat (g.toNat % 256)]

-- Sixteen bytes; those of the short family stand first.
def bytes (a : Inet) : List UInt8 :=
  match a.host with
  | .v4 h => h.bytes ++ List.replicate 12 0
  | .v6 h => Ipv6.bytes h

def v4Text (a : Ipv4) : Text := Text.join "." (a.bytes.map fun b => Text.ofNat b.toNat)

-- The length of the run of zero groups at the front.
def zeroRun (groups : List UInt16) : Nat := (groups.takeWhile (· == 0)).length

-- The leftmost longest run of at least two zero groups, as the count of
-- groups before it and its length. The best run so far is carried along.
def longestRun (best : Nat × Nat) (position : Nat) : List UInt16 → Nat × Nat
  | [] => best
  | g :: rest =>
    let run := zeroRun (g :: rest)
    longestRun (if best.2 < run ∧ 1 < run then (position, run) else best) (position + 1) rest

def groupsText (groups : List UInt16) : Text :=
  Text.join ":" (groups.map fun g => Text.hexGroup g.toNat)

-- The longest run of zeros is written as two colons.
def v6Text (a : Ipv6) : Text :=
  let (start, length) := longestRun (0, 0) 0 a.groups
  if length = 0 then groupsText a.groups
  else groupsText (a.groups.take start) ++ "::" ++ groupsText (a.groups.drop (start + length))

def text (a : Inet) : Text :=
  let host := match a.host with
    | .v4 h => v4Text h
    | .v6 h => v6Text h
  match a.maskLength with
  | none => host
  | some n => host ++ "/" ++ Text.ofNat n

-- The short family first, then the bytes, then no mask before any mask.
def less (a b : Inet) : Bool :=
  if a.isV6 ≠ b.isV6 then !a.isV6
  else if a.bytes ≠ b.bytes then Text.less a.bytes b.bytes
  else match a.maskLength, b.maskLength with
    | none, some _ => true
    | some m, some n => decide (m < n)
    | _, none => false

end Inet

end EntitySql
