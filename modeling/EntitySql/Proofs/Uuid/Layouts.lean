import EntitySql.Proofs.Conversion.Bytes
import EntitySql.Value.Reader

-- The texts of identifiers. Three layouts of the same 32 digits are read, and
-- one of them, with its letters in lower case, is written.

namespace EntitySql

namespace Text

theorem hexBytes_cons (b : UInt8) (rest : List UInt8) :
    hexBytes (b :: rest) = hexByte b ++ hexBytes rest := rfl

theorem length_hexBytes (bytes : List UInt8) : (hexBytes bytes).length = 2 * bytes.length := by
  induction bytes with
  | nil => rfl
  | cons b rest ih => exact congrArg (· + 2) ih

-- Half of the digits are the digits of half of the bytes.
theorem hexBytes_take (n : Nat) (bytes : List UInt8) :
    hexBytes (bytes.take n) = (hexBytes bytes).take (2 * n) := by
  induction bytes generalizing n with
  | nil => simp [hexBytes]
  | cons b rest ih =>
    cases n with
    | zero => rfl
    | succ n => exact congrArg (hexByte b ++ ·) (ih n)

theorem hexBytes_drop (n : Nat) (bytes : List UInt8) :
    hexBytes (bytes.drop n) = (hexBytes bytes).drop (2 * n) := by
  induction bytes generalizing n with
  | nil => simp [hexBytes]
  | cons b rest ih =>
    cases n with
    | zero => rfl
    | succ n => exact ih n

theorem exists_digit_of_mem_hexBytes {bytes : List UInt8} {c : UInt8} (h : c ∈ hexBytes bytes) :
    ∃ n < 16, c = Byte.digit n := by
  obtain ⟨b, -, hc⟩ := List.mem_flatMap.mp h
  have hlt : b.toNat < 256 := b.toNat_lt
  simp only [hexByte, List.mem_cons, List.not_mem_nil, or_false] at hc
  rcases hc with rfl | rfl
  · exact ⟨b.toNat / 16, by omega, rfl⟩
  · exact ⟨b.toNat % 16, by omega, rfl⟩

-- Letters are written in lower case.
theorem lower_hexBytes (bytes : List UInt8) : lower (hexBytes bytes) = hexBytes bytes := by
  have hlower : ∀ n < 16, Byte.toLower (Byte.digit n) = Byte.digit n := by decide
  have hself : ∀ c ∈ hexBytes bytes, Byte.toLower c = id c := by
    intro c hc
    obtain ⟨n, hn, rfl⟩ := exists_digit_of_mem_hexBytes hc
    exact hlower n hn
  rw [lower, List.map_congr_left hself, List.map_id]

theorem hexByte_injective {a b : UInt8} (h : hexByte a = hexByte b) : a = b := by
  have hpairs := congrArg Conversion.hexPairs? h
  have hread (c : UInt8) : Conversion.hexPairs? (hexByte c) = some [c] :=
    Conversion.hexPairs?_hexBytes [c]
  rw [hread, hread] at hpairs
  exact (List.cons.inj (Option.some.inj hpairs)).1

end Text

namespace Uuid

open Byte (isHexDigit hexValue? toLower)

variable {t digits : Text} {bytes : List UInt8} {u : Uuid}

-- Digits in groups of 8, 4, 4, 4 and 12.
def grouped (digits : Text) : Text :=
  Text.join "-" [digits.take 8, (digits.drop 8).take 4, (digits.drop 12).take 4,
    (digits.drop 16).take 4, digits.drop 20]

def dashPlaces : List Nat := [8, 13, 18, 23]

structure IsCompact (t : Text) : Prop where
  length : t.length = 32
  digits : ∀ c ∈ t, isHexDigit c = true

structure IsDashed (t : Text) : Prop where
  length : t.length = 36
  dashes : ∀ i ∈ dashPlaces, t[i]? = some Byte.minus
  digits : ∀ i c, t[i]? = some c → i ∉ dashPlaces → isHexDigit c = true

def braced (t : Text) : Text := Byte.openBrace :: t ++ [Byte.closeBrace]

-- The layouts that are read.
inductive Spelled : Text → Prop
  | compact {t : Text} (h : IsCompact t) : Spelled t
  | dashed {t : Text} (h : IsDashed t) : Spelled t
  | braced {t : Text} (h : IsDashed t) : Spelled (braced t)

theorem join_groups (a b c d e : Text) : Text.join "-" [a, b, c, d, e] =
    a ++ Byte.minus :: (b ++ Byte.minus :: (c ++ Byte.minus :: (d ++ Byte.minus :: e))) := by
  have hdash : Text.ofString "-" = [Byte.minus] := rfl
  simp [Text.join, hdash]

-- Groups of the right lengths are those of their digits.
theorem grouped_append {a b c d e : Text} (ha : a.length = 8) (hb : b.length = 4)
    (hc : c.length = 4) (hd : d.length = 4) :
    grouped (a ++ (b ++ (c ++ (d ++ e)))) = Text.join "-" [a, b, c, d, e] := by
  have hfirst : (a ++ (b ++ (c ++ (d ++ e)))).drop 8 = b ++ (c ++ (d ++ e)) := List.drop_left' ha
  have hsecond : (a ++ (b ++ (c ++ (d ++ e)))).drop 12 = c ++ (d ++ e) := by
    rw [show 12 = 8 + 4 from rfl, ← List.drop_drop, hfirst, List.drop_left' hb]
  have hthird : (a ++ (b ++ (c ++ (d ++ e)))).drop 16 = d ++ e := by
    rw [show 16 = 12 + 4 from rfl, ← List.drop_drop, hsecond, List.drop_left' hc]
  have hfourth : (a ++ (b ++ (c ++ (d ++ e)))).drop 20 = e := by
    rw [show 20 = 16 + 4 from rfl, ← List.drop_drop, hthird, List.drop_left' hd]
  rw [grouped, hfirst, hsecond, hthird, hfourth, List.take_left' ha, List.take_left' hb,
    List.take_left' hc, List.take_left' hd]

-- The digits between dashes at their places.
def ungrouped (t : Text) : Text :=
  t.take 8 ++ (t.drop 9).take 4 ++ (t.drop 14).take 4 ++ (t.drop 19).take 4 ++ t.drop 24

-- A text of the right length with dashes at their places is cut there.
theorem grouped_ungrouped (hlength : t.length = 36)
    (hdashes : ∀ i ∈ dashPlaces, t[i]? = some Byte.minus) : grouped (ungrouped t) = t := by
  have hcut (n k : Nat) (hk : t[n + k]? = some Byte.minus) :
      t.drop n = (t.drop n).take k ++ Byte.minus :: t.drop (n + k + 1) := by
    have hbehind : t.drop (n + k) = Byte.minus :: t.drop (n + k + 1) := by
      rw [List.drop_eq_getElem?_toList_append, hk]
      rfl
    rw [← hbehind, ← List.drop_drop, List.take_append_drop]
  have hcount (n k : Nat) (h : n + k ≤ 36) : ((t.drop n).take k).length = k := by
    rw [List.length_take, List.length_drop, hlength]
    omega
  have hdigits : ungrouped t = (t.drop 0).take 8 ++ ((t.drop 9).take 4 ++ ((t.drop 14).take 4 ++
      ((t.drop 19).take 4 ++ t.drop 24))) := by
    simp [ungrouped]
  rw [hdigits, grouped_append (hcount 0 8 (by decide)) (hcount 9 4 (by decide))
    (hcount 14 4 (by decide)) (hcount 19 4 (by decide)), join_groups,
    ← hcut 19 4 (hdashes 23 (by decide)), ← hcut 14 4 (hdashes 18 (by decide)),
    ← hcut 9 4 (hdashes 13 (by decide)), ← hcut 0 8 (hdashes 8 (by decide)), List.drop_zero]

-- Past a dash, the places of a text are counted anew.
theorem getElem?_behind {a rest : Text} {n i : Nat} (ha : a.length = n) :
    (a ++ Byte.minus :: rest)[n + 1 + i]? = rest[i]? := by
  rw [List.getElem?_append_right (by omega), show n + 1 + i - a.length = i + 1 by omega,
    List.getElem?_cons_succ]

theorem drop_behind {a rest : Text} {n : Nat} (ha : a.length = n) :
    (a ++ Byte.minus :: rest).drop (n + 1) = rest := by
  rw [← List.drop_drop, List.drop_left' ha, List.drop_one, List.tail_cons]

theorem ungrouped_join {a b c d e : Text} (ha : a.length = 8) (hb : b.length = 4)
    (hc : c.length = 4) (hd : d.length = 4) :
    ungrouped (Text.join "-" [a, b, c, d, e]) = a ++ b ++ c ++ d ++ e := by
  rw [join_groups]
  generalize htext : a ++ Byte.minus :: (b ++ Byte.minus :: (c ++ Byte.minus ::
    (d ++ Byte.minus :: e))) = whole
  have hfirst : whole.drop 9 = b ++ Byte.minus :: (c ++ Byte.minus :: (d ++ Byte.minus :: e)) :=
    htext ▸ drop_behind ha
  have hsecond : whole.drop 14 = c ++ Byte.minus :: (d ++ Byte.minus :: e) := by
    rw [show 14 = 9 + (4 + 1) from rfl, ← List.drop_drop, hfirst, drop_behind hb]
  have hthird : whole.drop 19 = d ++ Byte.minus :: e := by
    rw [show 19 = 14 + (4 + 1) from rfl, ← List.drop_drop, hsecond, drop_behind hc]
  have hfourth : whole.drop 24 = e := by
    rw [show 24 = 19 + (4 + 1) from rfl, ← List.drop_drop, hthird, drop_behind hd]
  rw [ungrouped, hfirst, hsecond, hthird, hfourth, ← htext, List.take_left' ha, List.take_left' hb,
    List.take_left' hc, List.take_left' hd]

theorem append_groups (digits : Text) : digits.take 8 ++ (digits.drop 8).take 4 ++
    (digits.drop 12).take 4 ++ (digits.drop 16).take 4 ++ digits.drop 20 = digits := by
  have hcut (n k : Nat) : (digits.drop n).take k ++ digits.drop (n + k) = digits.drop n := by
    rw [← List.drop_drop, List.take_append_drop]
  rw [List.append_assoc, List.append_assoc, List.append_assoc, hcut 16 4, hcut 12 4, hcut 8 4,
    List.take_append_drop]

theorem ungrouped_grouped (h : digits.length = 32) : ungrouped (grouped digits) = digits := by
  rw [grouped, ungrouped_join (by simp [h]) (by simp [h]) (by simp [h]) (by simp [h]),
    append_groups]

theorem dash_of_grouped (h : digits.length = 32) :
    (grouped digits).length = 36 ∧ ∀ i ∈ dashPlaces, (grouped digits)[i]? = some Byte.minus := by
  rw [grouped, join_groups]
  refine ⟨by simp [h], ?_⟩
  simp [dashPlaces, h, List.getElem?_append]

theorem mem_or_behind {a rest : Text} {n i : Nat} {c : UInt8} (ha : a.length = n)
    (hc : (a ++ Byte.minus :: rest)[i]? = some c) (hi : i ≠ n) :
    c ∈ a ∨ ∃ j, i = n + 1 + j ∧ rest[j]? = some c := by
  by_cases hin : i < n
  · rw [List.getElem?_append_left (by omega)] at hc
    exact .inl (List.mem_of_getElem? hc)
  · obtain ⟨j, rfl⟩ : ∃ j, i = n + 1 + j := ⟨i - (n + 1), by omega⟩
    exact .inr ⟨j, rfl, getElem?_behind ha ▸ hc⟩

-- What stands at another place is one of the digits.
theorem mem_of_getElem?_grouped (h : digits.length = 32) {i : Nat} {c : UInt8}
    (hc : (grouped digits)[i]? = some c) (hi : i ∉ dashPlaces) : c ∈ digits := by
  have hgroup {n k : Nat} (hmem : c ∈ (digits.drop n).take k) : c ∈ digits :=
    List.mem_of_mem_drop (List.mem_of_mem_take hmem)
  simp only [dashPlaces, List.mem_cons, List.not_mem_nil, or_false, not_or] at hi
  rw [grouped, join_groups] at hc
  obtain hmem | ⟨j, rfl, hsecond⟩ := mem_or_behind (n := 8) (by simp [h]) hc hi.1
  · exact List.mem_of_mem_take hmem
  obtain hmem | ⟨j, rfl, hthird⟩ := mem_or_behind (n := 4) (by simp [h]) hsecond (by omega)
  · exact hgroup hmem
  obtain hmem | ⟨j, rfl, hfourth⟩ := mem_or_behind (n := 4) (by simp [h]) hthird (by omega)
  · exact hgroup hmem
  obtain hmem | ⟨j, rfl, hfifth⟩ := mem_or_behind (n := 4) (by simp [h]) hfourth (by omega)
  · exact hgroup hmem
  · exact List.mem_of_mem_drop (List.mem_of_getElem? hfifth)

-- And every digit stands at such a place.
theorem exists_getElem?_of_mem_ungrouped {c : UInt8} (hc : c ∈ ungrouped t) :
    ∃ i, t[i]? = some c ∧ i ∉ dashPlaces := by
  have hgroup {n k : Nat} (hgap : ∀ d ∈ dashPlaces, d < n ∨ n + k ≤ d)
      (hmem : c ∈ (t.drop n).take k) : ∃ i, t[i]? = some c ∧ i ∉ dashPlaces := by
    obtain ⟨i, hi⟩ := List.mem_iff_getElem?.mp hmem
    rw [List.getElem?_take] at hi
    split at hi
    · rw [List.getElem?_drop] at hi
      refine ⟨n + i, hi, fun hplace => ?_⟩
      have := hgap _ hplace
      omega
    · cases hi
  simp only [ungrouped, List.mem_append] at hc
  rcases hc with (((hmem | hmem) | hmem) | hmem) | hmem
  · exact hgroup (n := 0) (by decide) hmem
  · exact hgroup (by decide) hmem
  · exact hgroup (by decide) hmem
  · exact hgroup (by decide) hmem
  · obtain ⟨i, hi⟩ := List.mem_iff_getElem?.mp hmem
    rw [List.getElem?_drop] at hi
    refine ⟨24 + i, hi, ?_⟩
    simp only [dashPlaces, List.mem_cons, List.not_mem_nil, or_false]
    omega

theorem isDashed_iff : IsDashed t ↔ ∃ digits, IsCompact digits ∧ t = grouped digits := by
  constructor
  · intro h
    refine ⟨ungrouped t, ⟨?_, fun c hc => ?_⟩, (grouped_ungrouped h.length h.dashes).symm⟩
    · simp [ungrouped, h.length]
    · obtain ⟨i, hi, hplace⟩ := exists_getElem?_of_mem_ungrouped hc
      exact h.digits i c hi hplace
  · rintro ⟨digits, hdigits, rfl⟩
    obtain ⟨hlength, hdashes⟩ := dash_of_grouped hdigits.length
    exact ⟨hlength, hdashes, fun i c hc hi =>
      hdigits.digits c (mem_of_getElem?_grouped hdigits.length hc hi)⟩

theorem spelled_iff : Spelled t ↔
    ∃ digits, IsCompact digits ∧ (t = digits ∨ t = grouped digits ∨ t = braced (grouped digits)) := by
  constructor
  · rintro (h | h | h)
    · exact ⟨t, h, .inl rfl⟩
    · obtain ⟨digits, hdigits, rfl⟩ := isDashed_iff.mp h
      exact ⟨digits, hdigits, .inr (.inl rfl)⟩
    · obtain ⟨digits, hdigits, rfl⟩ := isDashed_iff.mp h
      exact ⟨digits, hdigits, .inr (.inr rfl)⟩
  · rintro ⟨digits, hdigits, rfl | rfl | rfl⟩
    · exact .compact hdigits
    · exact .dashed (isDashed_iff.mpr ⟨digits, hdigits, rfl⟩)
    · exact .braced (isDashed_iff.mpr ⟨digits, hdigits, rfl⟩)

-- Reading takes the braces off, and what is left is told apart by its length.

def unbraced (t : Text) : Text :=
  if t.length = 38 && t.head? = some Byte.openBrace && t.getLast? = some Byte.closeBrace then
    (t.drop 1).dropLast
  else t

theorem unbraced_of_length_ne (h : t.length ≠ 38) : unbraced t = t := by
  simp [unbraced, h]

theorem unbraced_braced (h : t.length = 36) : unbraced (braced t) = t := by
  have hlength : (braced t).length = 38 := by simp [braced, h]
  have hfirst : (braced t).head? = some Byte.openBrace := rfl
  have hlast : (braced t).getLast? = some Byte.closeBrace := by
    rw [braced, List.getLast?_append]
    rfl
  have hbody : ((braced t).drop 1).dropLast = t := by simp [braced]
  rw [unbraced, hlength, hfirst, hlast, hbody]
  exact if_pos rfl

theorem unbraced_cases (t : Text) :
    unbraced t = t ∨ ∃ body, body.length = 36 ∧ t = braced body := by
  by_cases h : t.length = 38 ∧ t.head? = some Byte.openBrace ∧ t.getLast? = some Byte.closeBrace
  · obtain ⟨hlength, hfirst, hlast⟩ := h
    obtain ⟨rest, rfl⟩ := List.head?_eq_some_iff.mp hfirst
    obtain ⟨front, hfront⟩ := List.getLast?_eq_some_iff.mp hlast
    cases front with
    | nil => simp [hfront] at hlength
    | cons c body =>
      obtain ⟨rfl, rfl⟩ := List.cons.inj hfront
      refine .inr ⟨body, ?_, rfl⟩
      simpa using hlength
  · left
    rw [unbraced, if_neg (by simpa [and_assoc] using h)]

theorem digits?_eq (t : Text) : digits? t =
    if (unbraced t).length = 36 then
      if ∀ i ∈ dashPlaces, (unbraced t)[i]? = some Byte.minus then some (ungrouped (unbraced t))
      else none
    else if (unbraced t).length = 32 then some (unbraced t)
    else none := by
  rw [digits?, ← unbraced]
  simp [ungrouped, dashPlaces]

theorem digits?_eq_some_iff_unbraced : digits? t = some digits ↔
    digits.length = 32 ∧ (unbraced t = digits ∨ unbraced t = grouped digits) := by
  rw [digits?_eq]
  generalize unbraced t = body
  constructor
  · intro h
    split at h
    · next hlength =>
      split at h
      · next hdashes =>
        cases h
        exact ⟨by simp [ungrouped, hlength], .inr (grouped_ungrouped hlength hdashes).symm⟩
      · cases h
    · split at h
      · next hlength =>
        cases h
        exact ⟨hlength, .inl rfl⟩
      · cases h
  · rintro ⟨hlength, rfl | rfl⟩
    · rw [if_neg (by omega), if_pos hlength]
    · obtain ⟨hlonger, hdashes⟩ := dash_of_grouped hlength
      rw [if_pos hlonger, if_pos hdashes, ungrouped_grouped hlength]

theorem digits?_eq_some_iff : digits? t = some digits ↔
    digits.length = 32 ∧ (t = digits ∨ t = grouped digits ∨ t = braced (grouped digits)) := by
  rw [digits?_eq_some_iff_unbraced]
  refine and_congr_right fun hlength => ?_
  have hgrouped := (dash_of_grouped hlength).1
  constructor
  · intro h
    rcases unbraced_cases t with hbare | ⟨body, hbody, rfl⟩
    · rw [hbare] at h
      exact h.imp_right .inl
    · rw [unbraced_braced hbody] at h
      rcases h with rfl | rfl
      · omega
      · exact .inr (.inr rfl)
  · rintro (rfl | rfl | rfl)
    · exact .inl (unbraced_of_length_ne (by omega))
    · exact .inr (unbraced_of_length_ne (by omega))
    · exact .inr (unbraced_braced hgrouped)

-- The digits as bytes.

theorem hexByte_of_hexValue? {high low : UInt8} {h l : Nat} (hhigh : hexValue? high = some h)
    (hlow : hexValue? low = some l) :
    Text.hexByte (UInt8.ofNat (16 * h + l)) = [toLower high, toLower low] := by
  obtain ⟨hlt, hhighLower⟩ := Byte.toLower_of_hexValue? hhigh
  obtain ⟨hlt', hlowLower⟩ := Byte.toLower_of_hexValue? hlow
  rw [Text.hexByte_of_digits hlt hlt', hhighLower, hlowLower]

theorem pairBytes?_eq_some_iff : pairBytes? digits = some bytes ↔
    (∀ c ∈ digits, isHexDigit c = true) ∧ Text.hexBytes bytes = Text.lower digits := by
  induction digits using pairBytes?.induct generalizing bytes with
  | case1 =>
    cases bytes with
    | nil => simp [pairBytes?, Text.hexBytes, Text.lower]
    | cons b rest => simp [pairBytes?, Text.hexBytes_cons, Text.hexByte, Text.lower]
  | case2 c =>
    refine iff_of_false (by simp [pairBytes?]) fun h => ?_
    have hlength := congrArg List.length h.2
    rw [Text.length_hexBytes, Text.lower, List.length_map, List.length_singleton] at hlength
    omega
  | case3 high low rest ih =>
    have hread : pairBytes? (high :: low :: rest) = some bytes ↔ ∃ h l others,
        hexValue? high = some h ∧ hexValue? low = some l ∧ pairBytes? rest = some others ∧
          UInt8.ofNat (16 * h + l) :: others = bytes := by
      simp [pairBytes?, Option.bind_eq_some_iff]
    have hlower : Text.lower (high :: low :: rest) =
        [toLower high, toLower low] ++ Text.lower rest := rfl
    rw [hread, List.forall_mem_cons, List.forall_mem_cons, hlower]
    constructor
    · rintro ⟨h, l, others, hhigh, hlow, hothers, rfl⟩
      obtain ⟨hdigits, hrest⟩ := ih.mp hothers
      refine ⟨⟨Byte.isHexDigit_iff.mpr ⟨h, hhigh⟩, Byte.isHexDigit_iff.mpr ⟨l, hlow⟩, hdigits⟩, ?_⟩
      rw [Text.hexBytes_cons, hexByte_of_hexValue? hhigh hlow, hrest]
    · rintro ⟨⟨hhigh, hlow, hdigits⟩, htext⟩
      obtain ⟨h, hhigh⟩ := Byte.isHexDigit_iff.mp hhigh
      obtain ⟨l, hlow⟩ := Byte.isHexDigit_iff.mp hlow
      cases bytes with
      | nil => cases htext
      | cons b others =>
        rw [Text.hexBytes_cons, ← hexByte_of_hexValue? hhigh hlow] at htext
        obtain ⟨hbyte, hothers⟩ := List.append_inj htext rfl
        exact ⟨h, l, others, hhigh, hlow, ih.mpr ⟨hdigits, hothers⟩,
          by rw [Text.hexByte_injective hbyte]⟩

theorem read?_eq_some_iff : read? t = some u ↔ ∃ digits, IsCompact digits ∧
    (t = digits ∨ t = grouped digits ∨ t = braced (grouped digits)) ∧
      Text.hexBytes u.bytes = Text.lower digits := by
  have hbytes (bytes : List UInt8) : ofBytes? bytes = some u ↔ bytes = u.bytes := by
    rw [ofBytes?]
    split
    · rw [Option.some_inj]
      constructor
      · rintro rfl
        rfl
      · rintro rfl
        rfl
    · next hlength =>
      refine iff_of_false nofun ?_
      rintro rfl
      exact hlength u.length_bytes
  simp only [read?, Option.bind_eq_bind, Option.bind_eq_some_iff, digits?_eq_some_iff,
    pairBytes?_eq_some_iff, hbytes]
  constructor
  · rintro ⟨digits, ⟨hlength, ht⟩, _, ⟨hdigits, htext⟩, rfl⟩
    exact ⟨digits, ⟨hlength, hdigits⟩, ht, htext⟩
  · rintro ⟨digits, hcompact, ht, htext⟩
    exact ⟨digits, ⟨hcompact.length, ht⟩, u.bytes, ⟨hcompact.digits, htext⟩, rfl⟩

theorem exists_hexBytes {n : Nat} (hlength : digits.length = 2 * n)
    (hdigits : ∀ c ∈ digits, isHexDigit c = true) :
    ∃ bytes : List UInt8, bytes.length = n ∧ Text.hexBytes bytes = Text.lower digits := by
  induction n generalizing digits with
  | zero => exact ⟨[], rfl, by rw [List.length_eq_zero_iff.mp hlength]; rfl⟩
  | succ n ih =>
    match digits with
    | [] => simp at hlength
    | [_] => simp at hlength; omega
    | high :: low :: rest =>
      rw [List.forall_mem_cons, List.forall_mem_cons] at hdigits
      obtain ⟨hhigh, hlow, hrest⟩ := hdigits
      obtain ⟨h, hhigh⟩ := Byte.isHexDigit_iff.mp hhigh
      obtain ⟨l, hlow⟩ := Byte.isHexDigit_iff.mp hlow
      have hfewer : rest.length = 2 * n := by
        rw [List.length_cons, List.length_cons] at hlength
        omega
      obtain ⟨bytes, hcount, hbytes⟩ := ih hfewer hrest
      refine ⟨UInt8.ofNat (16 * h + l) :: bytes, by rw [List.length_cons, hcount], ?_⟩
      rw [Text.hexBytes_cons, hexByte_of_hexValue? hhigh hlow, hbytes]
      rfl

theorem exists_read?_iff : (∃ u, read? t = some u) ↔ Spelled t := by
  simp only [read?_eq_some_iff, spelled_iff]
  constructor
  · rintro ⟨u, digits, hcompact, ht, -⟩
    exact ⟨digits, hcompact, ht⟩
  · rintro ⟨digits, hcompact, ht⟩
    obtain ⟨bytes, hcount, hbytes⟩ := exists_hexBytes (n := 16) hcompact.length hcompact.digits
    exact ⟨⟨bytes, hcount⟩, digits, hcompact, ht, hbytes⟩

theorem text_eq_grouped (u : Uuid) : u.text = grouped (Text.hexBytes u.bytes) := by
  have hlast : (u.bytes.drop 10).take 6 = u.bytes.drop 10 :=
    List.take_of_length_le (by rw [List.length_drop, u.length_bytes])
  simp only [text, grouped, hlast, List.drop_zero, Text.hexBytes_take, Text.hexBytes_drop]

-- What has been written is read again.
theorem read?_text (u : Uuid) : read? u.text = some u := by
  have hcompact : IsCompact (Text.hexBytes u.bytes) := by
    refine ⟨by rw [Text.length_hexBytes, u.length_bytes], fun c hc => ?_⟩
    obtain ⟨n, hn, rfl⟩ := Text.exists_digit_of_mem_hexBytes hc
    exact Text.isHexDigit_digit hn
  exact read?_eq_some_iff.mpr
    ⟨_, hcompact, .inr (.inl (text_eq_grouped u)), (Text.lower_hexBytes u.bytes).symm⟩

-- No other byte of a layout is a digit.
theorem filter_isHexDigit (h : IsCompact digits)
    (ht : t = digits ∨ t = grouped digits ∨ t = braced (grouped digits)) :
    t.filter isHexDigit = digits := by
  have hpart {part : Text} (hpart : ∀ c ∈ part, c ∈ digits) : part.filter isHexDigit = part :=
    List.filter_eq_self.mpr fun c hc => h.digits c (hpart c hc)
  have hgroup (n k : Nat) : ((digits.drop n).take k).filter isHexDigit = (digits.drop n).take k :=
    hpart fun c hc => List.mem_of_mem_drop (List.mem_of_mem_take hc)
  have hother : isHexDigit Byte.minus = false ∧ isHexDigit Byte.openBrace = false ∧
      isHexDigit Byte.closeBrace = false := by decide
  have hgrouped : (grouped digits).filter isHexDigit = digits := by
    rw [grouped, join_groups]
    simp only [List.filter_append, List.filter_cons, hother.1, Bool.false_eq_true, if_false]
    rw [hpart fun c hc => List.mem_of_mem_take hc, hgroup, hgroup, hgroup,
      hpart fun c hc => List.mem_of_mem_drop hc]
    simpa using append_groups digits
  rcases ht with rfl | rfl | rfl
  · exact hpart fun c hc => hc
  · exact hgrouped
  · simp [braced, hother, hgrouped]

theorem run_tryRead_eq_true_iff {held : Uuid} :
    (tryRead t).run held = (true, u) ↔ read? t = some u := by
  unfold tryRead
  cases read? t with
  | none => exact iff_of_false nofun nofun
  | some found =>
    have hrun : (do set found; return true : StateM Uuid Bool).run held = (true, found) := rfl
    rw [hrun, Prod.mk.injEq, eq_self, true_and, Option.some_inj]

theorem ofText_eq_ok_iff : ofText t = .ok u ↔ read? t = some u := by
  unfold ofText
  cases read? t <;> simp

-- A text is read exactly if it has one of the three layouts, and a text that is
-- refused changes nothing. What is read is written with the same digits, and what
-- is written is read as what it was.
theorem reads_layouts (t : Text) (held : Uuid) :
    ((∃ u, (tryRead t).run held = (true, u)) ↔ Spelled t) ∧
      (∀ u, (tryRead t).run held = (true, u) →
        ofText t = .ok u ∧ u.text = grouped (Text.lower (t.filter isHexDigit))) ∧
      (¬Spelled t → (tryRead t).run held = (false, held) ∧
        ofText t = .error (.conversion (.invalidUuid t))) ∧
      ∀ u : Uuid, ofText u.text = .ok u := by
  refine ⟨?_, fun u hu => ?_, fun h => ?_, fun u => ofText_eq_ok_iff.mpr (read?_text u)⟩
  · simp only [run_tryRead_eq_true_iff, exists_read?_iff]
  · have hread := run_tryRead_eq_true_iff.mp hu
    refine ⟨ofText_eq_ok_iff.mpr hread, ?_⟩
    obtain ⟨digits, hcompact, ht, htext⟩ := read?_eq_some_iff.mp hread
    rw [text_eq_grouped, htext, filter_isHexDigit hcompact ht]
  · have hnone : read? t = none := by
      rw [Option.eq_none_iff_forall_ne_some]
      exact fun u hu => h (exists_read?_iff.mp ⟨u, hu⟩)
    rw [tryRead, ofText, hnone]
    exact ⟨rfl, rfl⟩

-- Braces around digits of either case, and a dash that has moved by one place.

def bracedName : Text := "\x7b3F2504E0-4f89-11D3-9a0c-0305e82C3301\x7d"

def shiftedName : Text := "3F2504E04-f89-11D3-9a0c-0305e82C3301"

theorem reads_layouts_bracedName :
    (∃ u, (tryRead bracedName).run nil = (true, u) ∧
        u.text = ("3f2504e0-4f89-11d3-9a0c-0305e82c3301" : Text)) ∧
      ¬Spelled shiftedName ∧ (tryRead shiftedName).run nil = (false, nil) := by
  have hdigits : IsCompact "3F2504E04f8911D39a0c0305e82C3301" :=
    ⟨by decide +kernel, by decide +kernel⟩
  have hbraced : Spelled bracedName :=
    spelled_iff.mpr ⟨_, hdigits, .inr (.inr (by decide +kernel))⟩
  have hshifted : ¬Spelled shiftedName := by
    rw [← exists_read?_iff]
    have hnone : read? shiftedName = none := by decide +kernel
    simp [hnone]
  obtain ⟨u, hu⟩ := (reads_layouts bracedName nil).1.mpr hbraced
  have htext := ((reads_layouts bracedName nil).2.1 u hu).2
  exact ⟨⟨u, hu, htext.trans (by decide +kernel)⟩, hshifted,
    ((reads_layouts shiftedName nil).2.2.1 hshifted).1⟩

end Uuid

end EntitySql
