import EntitySql.Conversion.Generic
import EntitySql.Proofs.Text.Plain
import Mathlib.Data.List.Forall2

-- Bytes and their texts. What is written for bytes is read as these bytes. The
-- reader also takes pairs that are never written, with white space or a sign in
-- the place of the first digit, and these are not written for what they are
-- read as.

namespace EntitySql

namespace Byte

-- What the reader of a pair takes in the place of the first digit.
def isLead (c : UInt8) : Bool := isSpace c || c == plus || c == minus

theorem hexValue?_of_isLead {c : UInt8} (h : isLead c = true) : hexValue? c = none := by
  have hall : ∀ c : UInt8, isLead c = true → hexValue? c = none :=
    forall_byte (by decide +kernel)
  exact hall c h

-- The digits of one value differ in case only.
theorem toLower_of_hexValue? {c : UInt8} {n : Nat} (h : hexValue? c = some n) :
    n < 16 ∧ toLower c = digit n := by
  have hall : ∀ c : UInt8, ∀ n ∈ hexValue? c, n < 16 ∧ toLower c = digit n :=
    forall_byte (by decide +kernel)
  exact hall c n h

theorem toLower_of_isLead {c : UInt8} (h : isLead c = true) : toLower c = c := by
  have hall : ∀ c : UInt8, isLead c = true → toLower c = c := forall_byte (by decide +kernel)
  exact hall c h

theorem isHexDigit_iff {c : UInt8} : isHexDigit c = true ↔ ∃ n, hexValue? c = some n :=
  Option.isSome_iff_exists

end Byte

namespace Text

-- The bytes of two bytes each.
def ofPairs (pairs : List (UInt8 × UInt8)) : Text := pairs.flatMap fun p => [p.1, p.2]

theorem hexByte_of_digits {high low : Nat} (hhigh : high < 16) (hlow : low < 16) :
    hexByte (UInt8.ofNat (16 * high + low)) = [Byte.digit high, Byte.digit low] := by
  have hvalue : (UInt8.ofNat (16 * high + low)).toNat = 16 * high + low :=
    UInt8.toNat_ofNat_of_lt' (by show 16 * high + low < 256; omega)
  rw [hexByte, hvalue]
  congr 2
  · omega
  · congr 1
    omega

end Text

namespace Conversion

open Byte (isLead isHexDigit hexValue? toLower)

theorem hexPair?_hexByte (b : UInt8) :
    hexPair? (Byte.digit (b.toNat / 16)) (Byte.digit (b.toNat % 16)) = some b := by
  have hlt : b.toNat < 256 := b.toNat_lt
  have hvalue : 16 * (b.toNat / 16) + b.toNat % 16 = b.toNat := Nat.div_add_mod ..
  simp only [hexPair?, Text.hexValue?_digit (show b.toNat / 16 < 16 by omega),
    Text.hexValue?_digit (show b.toNat % 16 < 16 by omega), Option.bind_eq_bind,
    Option.bind_some, hvalue, UInt8.ofNat_toNat]

theorem exists_hexPair?_iff {a b : UInt8} : (∃ byte, hexPair? a b = some byte) ↔
    (isHexDigit a = true ∨ isLead a = true) ∧ isHexDigit b = true := by
  rw [hexPair?, isHexDigit, isHexDigit]
  cases hb : hexValue? b with
  | none => simp
  | some low =>
    cases ha : hexValue? a with
    | some high => simp
    | none =>
      simp only [Option.bind_eq_bind, Option.bind_some, isLead, Bool.or_eq_true, beq_iff_eq,
        decide_eq_true_eq, Option.isSome_none, Option.isSome_some, Bool.false_eq_true, false_or,
        and_true]
      split
      · next h => simp [h]
      · next h => split <;> simp_all

-- A pair is written for the byte that it is read as if it has two digits.
theorem hexByte_of_hexPair? {a b byte : UInt8} (h : hexPair? a b = some byte) :
    Text.hexByte byte = [toLower a, toLower b] ↔ isHexDigit a = true := by
  obtain ⟨hfirst, hsecond⟩ := exists_hexPair?_iff.mp ⟨byte, h⟩
  obtain ⟨low, hlow⟩ := Byte.isHexDigit_iff.mp hsecond
  obtain ⟨hlow16, hlowered⟩ := Byte.toLower_of_hexValue? hlow
  constructor
  · intro hwritten
    refine hfirst.resolve_right fun hlead => ?_
    have hdigit : isHexDigit (toLower a) = true := by
      rw [← (List.cons.inj hwritten).1]
      have hlt : byte.toNat < 256 := byte.toNat_lt
      exact Text.isHexDigit_digit (by omega)
    rw [Byte.toLower_of_isLead hlead, isHexDigit, Byte.hexValue?_of_isLead hlead] at hdigit
    cases hdigit
  · intro hdigit
    obtain ⟨high, hhigh⟩ := Byte.isHexDigit_iff.mp hdigit
    obtain ⟨hhigh16, hlowered'⟩ := Byte.toLower_of_hexValue? hhigh
    simp only [hexPair?, hlow, hhigh, Option.bind_eq_bind, Option.bind_some,
      Option.some.injEq] at h
    rw [← h, Text.hexByte_of_digits hhigh16 hlow16, hlowered, hlowered']

theorem hexPairs?_hexBytes (bytes : List UInt8) :
    hexPairs? (Text.hexBytes bytes) = some bytes := by
  induction bytes with
  | nil => rfl
  | cons b rest ih =>
    have hcons : Text.hexBytes (b :: rest) =
        Byte.digit (b.toNat / 16) :: Byte.digit (b.toNat % 16) :: Text.hexBytes rest := rfl
    rw [hcons, hexPairs?, hexPair?_hexByte, ih]
    rfl

theorem hexPairs?_eq_some_iff {digits : Text} {bytes : List UInt8} :
    hexPairs? digits = some bytes ↔ ∃ pairs, digits = Text.ofPairs pairs ∧
      List.Forall₂ (fun p byte => hexPair? p.1 p.2 = some byte) pairs bytes := by
  constructor
  · intro h
    induction digits using hexPairs?.induct generalizing bytes with
    | case1 =>
      cases h
      exact ⟨[], rfl, .nil⟩
    | case2 => cases h
    | case3 a b rest ih =>
      obtain ⟨byte, hbyte, h⟩ := Option.bind_eq_some_iff.mp h
      obtain ⟨others, hothers, h⟩ := Option.bind_eq_some_iff.mp h
      cases h
      obtain ⟨pairs, rfl, hpairs⟩ := ih hothers
      exact ⟨(a, b) :: pairs, rfl, .cons hbyte hpairs⟩
  · rintro ⟨pairs, rfl, hpairs⟩
    induction hpairs with
    | nil => rfl
    | @cons p byte pairs bytes hbyte _ ih =>
      have hcons : Text.ofPairs (p :: pairs) = p.1 :: p.2 :: Text.ofPairs pairs := rfl
      rw [hcons, hexPairs?, hbyte, ih]
      rfl

theorem hexBytes_eq_lower_iff {pairs : List (UInt8 × UInt8)} {bytes : List UInt8}
    (h : List.Forall₂ (fun p byte => hexPair? p.1 p.2 = some byte) pairs bytes) :
    Text.hexBytes bytes = Text.lower (Text.ofPairs pairs) ↔
      ∀ p ∈ pairs, isHexDigit p.1 = true := by
  induction h with
  | nil => simp [Text.hexBytes, Text.ofPairs, Text.lower]
  | @cons p byte pairs bytes hbyte _ ih =>
    have hbytes : Text.hexBytes (byte :: bytes) = Text.hexByte byte ++ Text.hexBytes bytes := rfl
    have hpairs : Text.lower (Text.ofPairs (p :: pairs)) =
        [toLower p.1, toLower p.2] ++ Text.lower (Text.ofPairs pairs) := rfl
    rw [hbytes, hpairs, List.forall_mem_cons, ← hexByte_of_hexPair? hbyte, ← ih]
    constructor
    · intro h
      exact List.append_inj h rfl
    · rintro ⟨hfirst, hrest⟩
      rw [hfirst, hrest]

theorem bytesOfText?_eq_some_iff {t : Text} {bytes : List UInt8} : bytesOfText? t = some bytes ↔
    ∃ digits, t = Byte.backslash :: 0x78 :: digits ∧ hexPairs? digits = some bytes := by
  rw [bytesOfText?.eq_def]
  split
  · next digits => simp
  · next hother =>
    constructor
    · intro h
      cases h
    · rintro ⟨digits, rfl, -⟩
      exact absurd rfl (hother digits)

theorem fromDatabase_text {element : FieldType} {t : Text} {v : Value} :
    fromDatabase .bytes element (.string t) = .ok v ↔
      ∃ bytes, bytesOfText? t = some bytes ∧ v = .bytes bytes := by
  rw [fromDatabase, scalarFromDatabase]
  · cases bytesOfText? t <;> simp [notConvertible, eq_comm]
  · simp
  · simp

-- The texts that the reader takes: pairs of digits, but the first byte of a pair
-- may also be white space or a sign.
def PairsText (t : Text) (pairs : List (UInt8 × UInt8)) : Prop :=
  t = Byte.backslash :: 0x78 :: Text.ofPairs pairs ∧
    ∀ p ∈ pairs, (isHexDigit p.1 = true ∨ isLead p.1 = true) ∧ isHexDigit p.2 = true

theorem exists_forall₂_hexPair?_iff {pairs : List (UInt8 × UInt8)} :
    (∃ bytes, List.Forall₂ (fun p byte => hexPair? p.1 p.2 = some byte) pairs bytes) ↔
      ∀ p ∈ pairs, (isHexDigit p.1 = true ∨ isLead p.1 = true) ∧ isHexDigit p.2 = true := by
  induction pairs with
  | nil => simp
  | cons p rest ih =>
    rw [List.forall_mem_cons, ← ih, ← exists_hexPair?_iff]
    constructor
    · rintro ⟨_, _ | ⟨hbyte, hbytes⟩⟩
      exact ⟨⟨_, hbyte⟩, _, hbytes⟩
    · rintro ⟨⟨byte, hbyte⟩, bytes, hbytes⟩
      exact ⟨byte :: bytes, .cons hbyte hbytes⟩

theorem PairsText.exists_bytes {t : Text} {pairs : List (UInt8 × UInt8)} (h : PairsText t pairs) :
    ∃ bytes, bytesOfText? t = some bytes ∧
      List.Forall₂ (fun p byte => hexPair? p.1 p.2 = some byte) pairs bytes := by
  obtain ⟨rfl, hpairs⟩ := h
  obtain ⟨bytes, hbytes⟩ := exists_forall₂_hexPair?_iff.mpr hpairs
  exact ⟨bytes, bytesOfText?_eq_some_iff.mpr
    ⟨_, rfl, hexPairs?_eq_some_iff.mpr ⟨pairs, rfl, hbytes⟩⟩, hbytes⟩

-- Bytes are read from their text as they were. A text that is taken is, up to the
-- case of its letters, the text of its bytes if all its pairs have two digits, and
-- only then.
theorem fromDatabase_inverts_text (bytes : List UInt8) (t : Text) (element : FieldType) :
    fromDatabase .bytes element (.string (Value.bytes bytes).text) = .ok (.bytes bytes) ∧
      ((∃ v, fromDatabase .bytes element (.string t) = .ok v) ↔ ∃ pairs, PairsText t pairs) ∧
      ∀ pairs, PairsText t pairs →
        ∃ found, fromDatabase .bytes element (.string t) = .ok (.bytes found) ∧
          ((Value.bytes found).text = Text.lower t ↔ ∀ p ∈ pairs, isHexDigit p.1 = true) := by
  refine ⟨?_, ⟨?_, ?_⟩, fun pairs h => ?_⟩
  · have htext : bytesOfText? (Value.bytes bytes).text = some bytes :=
      bytesOfText?_eq_some_iff.mpr ⟨_, rfl, hexPairs?_hexBytes bytes⟩
    exact fromDatabase_text.mpr ⟨bytes, htext, rfl⟩
  · rintro ⟨v, hv⟩
    obtain ⟨found, hfound, -⟩ := fromDatabase_text.mp hv
    obtain ⟨digits, rfl, hdigits⟩ := bytesOfText?_eq_some_iff.mp hfound
    obtain ⟨pairs, rfl, hpairs⟩ := hexPairs?_eq_some_iff.mp hdigits
    exact ⟨pairs, rfl, exists_forall₂_hexPair?_iff.mp ⟨found, hpairs⟩⟩
  · rintro ⟨pairs, h⟩
    obtain ⟨found, hfound, -⟩ := h.exists_bytes
    exact ⟨_, fromDatabase_text.mpr ⟨found, hfound, rfl⟩⟩
  · obtain ⟨found, hfound, hpairs⟩ := h.exists_bytes
    refine ⟨found, fromDatabase_text.mpr ⟨found, hfound, rfl⟩, ?_⟩
    have hwritten : (Value.bytes found).text = Byte.backslash :: 0x78 :: Text.hexBytes found := rfl
    have hlowered : Text.lower t = Byte.backslash :: 0x78 :: Text.lower (Text.ofPairs pairs) := by
      rw [h.1]
      rfl
    rw [hwritten, hlowered, List.cons.injEq, List.cons.injEq, eq_self, true_and, eq_self, true_and,
      hexBytes_eq_lower_iff hpairs]

-- A blank and a minus sign in front of digits: read as 0f and f1.
theorem fromDatabase_inverts_text_blank :
    PairsText "\\x f-f" [(0x20, 0x66), (0x2d, 0x66)] ∧
      fromDatabase .bytes .bytes (.string (Value.bytes [0x0f, 0xf1]).text) =
        .ok (.bytes [0x0f, 0xf1]) ∧
      ∃ found, fromDatabase .bytes .bytes (.string "\\x f-f") = .ok (.bytes found) ∧
        (Value.bytes found).text ≠ Text.lower "\\x f-f" := by
  have hpairs : PairsText "\\x f-f" [(0x20, 0x66), (0x2d, 0x66)] :=
    ⟨by decide +kernel, List.forall_mem_cons.mpr
      ⟨⟨.inr rfl, rfl⟩, List.forall_mem_singleton.mpr ⟨.inr rfl, rfl⟩⟩⟩
  have hblank : ¬isHexDigit 0x20 = true := by decide
  obtain ⟨hinverts, -, hpairsRead⟩ :=
    fromDatabase_inverts_text [0x0f, 0xf1] "\\x f-f" .bytes
  obtain ⟨found, hfound, hwritten⟩ := hpairsRead _ hpairs
  exact ⟨hpairs, hinverts, found, hfound, fun h => hblank (hwritten.mp h _ (List.mem_cons_self ..))⟩

end Conversion

end EntitySql
