import EntitySql.Proofs.Inet.Grammar
import EntitySql.Proofs.Text.Numeral

-- A written address reads back. The text of eight groups is one of their
-- written forms, whichever run of zeros the pair of colons stands for.

namespace EntitySql.Inet

-- Runs of zeros.

def IsRun (groups : List UInt16) (run : Nat × Nat) : Prop :=
  (groups.drop run.1).take run.2 = List.replicate run.2 0

theorem take_zeroRun (groups : List UInt16) :
    groups.take (zeroRun groups) = List.replicate (zeroRun groups) 0 := by
  rw [zeroRun, ← List.prefix_iff_eq_take.mp (List.takeWhile_prefix _), List.eq_replicate_iff]
  refine ⟨rfl, fun g hg => ?_⟩
  have hzero := List.all_eq_true.mp List.all_takeWhile g hg
  exact eq_of_beq hzero

-- The search passes on a run that it has seen.
theorem isRun_longestRun {all rest : List UInt16} {position : Nat} {best : Nat × Nat}
    (hrest : all.drop position = rest) (hbest : IsRun all best) :
    IsRun all (longestRun best position rest) := by
  induction rest generalizing position best with
  | nil => exact hbest
  | cons g rest ih =>
    have hnext : all.drop (position + 1) = rest := by
      rw [← List.tail_drop, hrest]
      rfl
    rw [longestRun]
    refine ih hnext ?_
    split
    · unfold IsRun
      rw [hrest]
      exact take_zeroRun _
    · exact hbest

theorem IsRun.split {groups : List UInt16} {run : Nat × Nat} (h : IsRun groups run) :
    groups.take run.1 ++ List.replicate run.2 0 ++ groups.drop (run.1 + run.2) = groups := by
  rw [← h, ← List.drop_drop, List.append_assoc, List.take_append_drop, List.take_append_drop]

-- Groups are written in their fewest digits.

theorem isGroup_hexGroup (g : UInt16) : IsGroup (Text.hexGroup g.toNat) := by
  obtain ⟨values, heq, ⟨hne, hlength⟩, hvalues, -⟩ := Text.hexGroup_eq g.toNat_lt
  rw [heq]
  refine ⟨by simpa using hne, by simpa using hlength, fun c hc => ?_⟩
  obtain ⟨v, hv, rfl⟩ := List.mem_map.mp hc
  exact Text.isHexDigit_digit (hvalues v hv)

theorem groupValue_hexGroup (g : UInt16) : groupValue (Text.hexGroup g.toNat) = g := by
  obtain ⟨values, heq, -, hvalues, hvalue⟩ := Text.hexGroup_eq g.toNat_lt
  rw [groupValue, heq, Text.hexDigitsValue_map_digit hvalues, hvalue, UInt16.ofNat_toNat]

def hexRow (groups : List UInt16) : List Text := groups.map fun g => Text.hexGroup g.toNat

theorem isGroup_of_mem_hexRow (groups : List UInt16) : ∀ d ∈ hexRow groups, IsGroup d := by
  intro d hd
  obtain ⟨g, -, rfl⟩ := List.mem_map.mp hd
  exact isGroup_hexGroup g

theorem map_groupValue_hexRow (groups : List UInt16) : (hexRow groups).map groupValue = groups := by
  rw [hexRow, List.map_map]
  exact List.map_id'' groupValue_hexGroup groups

theorem spells_v6Text (a : Ipv6) : Spells (v6Text a) a.groups := by
  obtain ⟨run, hrun⟩ : ∃ run, run = longestRun (0, 0) 0 a.groups := ⟨_, rfl⟩
  have hzeros : IsRun a.groups run := by
    rw [hrun]
    exact isRun_longestRun rfl rfl
  have hlength := a.length_groups
  unfold v6Text
  dsimp only
  rw [← hrun]
  by_cases hnone : run.2 = 0
  · have hspells := Spells.full (isGroup_of_mem_hexRow a.groups)
      (by rw [hexRow, List.length_map, hlength])
    rw [map_groupValue_hexRow] at hspells
    rwa [if_pos hnone]
  · have hlengths := congrArg List.length hzeros.split
    rw [List.length_append, List.length_append, List.length_replicate, hlength] at hlengths
    have hlengthRow (groups : List UInt16) : (hexRow groups).length = groups.length :=
      List.length_map ..
    have hspells := Spells.compressed (isGroup_of_mem_hexRow (a.groups.take run.1))
      (isGroup_of_mem_hexRow (a.groups.drop (run.1 + run.2))) (by
        rw [hlengthRow, hlengthRow]
        omega)
    have hcount : 8 - ((a.groups.take run.1).length + (a.groups.drop (run.1 + run.2)).length) =
        run.2 := by omega
    rw [map_groupValue_hexRow, map_groupValue_hexRow, hlengthRow, hlengthRow, hcount,
      hzeros.split] at hspells
    rw [if_neg hnone, List.append_assoc]
    exact hspells

-- The short family in decimal bytes.

theorem v4Byte?_ofNat (b : UInt8) : v4Byte? (Text.ofNat b.toNat) = some b := by
  have hlt : b.toNat < 256 := b.toNat_lt
  have hempty : (Text.ofNat b.toNat).isEmpty = false :=
    List.isEmpty_eq_false_iff.mpr (Text.ofNat_ne_nil _)
  have hdigits : (Text.ofNat b.toNat).all Byte.isDigit = true :=
    List.all_eq_true.mpr fun c hc => Text.isDigit_of_mem_ofNat hc
  have hlength : (Text.ofNat b.toNat).length ≤ 3 :=
    Text.length_digitsWithin_le _ _ 2 (by omega : b.toNat < 1000)
  have hshort : decide (3 < (Text.ofNat b.toNat).length) = false := by
    simp
    omega
  rw [v4Byte?, hempty, hdigits, hshort, Text.digitsValue_ofNat]
  simp
  omega

theorem v4?_v4Text (a : Ipv4) : v4? (v4Text a) = some a := by
  obtain ⟨bytes, hlength⟩ := a
  match bytes, hlength with
  | [a, b, c, d], _ =>
    have hdot : ∀ p ∈ [a, b, c, d].map (fun b => Text.ofNat b.toNat), Byte.dot ∉ p := by
      intro p hp hmem
      obtain ⟨b, -, rfl⟩ := List.mem_map.mp hp
      have hdigit := Text.isDigit_of_mem_ofNat hmem
      exact absurd hdigit (by decide)
    have hsplit : Text.split Byte.dot (v4Text ⟨[a, b, c, d], rfl⟩) =
        [a, b, c, d].map fun b => Text.ofNat b.toNat := Text.split_join (by simp) hdot
    unfold v4?
    rw [hsplit]
    simp [v4Byte?_ofNat]

-- The families are told apart by a colon, and the host ends at a slash.

theorem mem_v4Text {a : Ipv4} {c : UInt8} (h : c ∈ v4Text a) :
    c = Byte.dot ∨ Byte.isDigit c = true := by
  rcases Text.mem_join h with hdot | ⟨p, hp, hc⟩
  · exact .inl (List.mem_singleton.mp hdot)
  · obtain ⟨b, -, rfl⟩ := List.mem_map.mp hp
    exact .inr (Text.isDigit_of_mem_ofNat hc)

theorem mem_rowText {row : List Text} (hrow : ∀ d ∈ row, IsGroup d) {c : UInt8}
    (h : c ∈ rowText row) : c = Byte.colon ∨ Byte.isHexDigit c = true := by
  rcases Text.mem_join h with hcolon | ⟨d, hd, hc⟩
  · exact .inl (List.mem_singleton.mp hcolon)
  · exact .inr ((hrow d hd).isHexDigit c hc)

namespace Spells

variable {t : Text} {groups : List UInt16} (h : Spells t groups)

include h

theorem colon_or_isHexDigit {c : UInt8} (hc : c ∈ t) :
    c = Byte.colon ∨ Byte.isHexDigit c = true := by
  cases h with
  | full hrow _ => exact mem_rowText hrow hc
  | compressed hfront hback _ =>
    simp only [List.mem_append, List.mem_cons] at hc
    rcases hc with hc | rfl | rfl | hc
    · exact mem_rowText hfront hc
    · exact .inl rfl
    · exact .inl rfl
    · exact mem_rowText hback hc

theorem colon_mem : Byte.colon ∈ t := by
  cases h with
  | full hrow hlength =>
    next row =>
    match row, hlength with
    | d :: e :: row, _ =>
      have hrow := rowText_cons_cons d e row []
      rw [List.append_nil] at hrow
      rw [hrow]
      simp
  | compressed => simp

end Spells

def hostText : Host → Text
  | .v4 a => v4Text a
  | .v6 a => v6Text a

def maskLimit : Host → Nat
  | .v4 _ => 32
  | .v6 _ => 128

theorem slash_not_mem_hostText (host : Host) : Byte.slash ∉ hostText host := by
  intro h
  cases host with
  | v4 a => rcases mem_v4Text h with h | h <;> exact absurd h (by decide)
  | v6 a => rcases (spells_v6Text a).colon_or_isHexDigit h with h | h <;> exact absurd h (by decide)

def maskText : Option Nat → Text
  | none => []
  | some n => Byte.slash :: Text.ofNat n

theorem text_eq (a : Inet) : a.text = hostText a.host ++ maskText a.maskLength := by
  obtain ⟨host, maskLength⟩ := a
  cases maskLength with
  | none => cases host <;> exact (List.append_nil _).symm
  | some n => cases host <;> exact List.append_assoc ..

-- A mask length in range has at most three digits.
theorem spellsMask_maskText {host : Host} {n : Option Nat} (h : ∀ k ∈ n, k ≤ maskLimit host) :
    SpellsMask (maskText n) n := by
  cases n with
  | none => exact .none
  | some n =>
    have hlimit : maskLimit host ≤ 128 := by
      cases host
      · exact Nat.le_of_ble_eq_true rfl
      · exact Nat.le_refl 128
    have hn : n ≤ maskLimit host := h n rfl
    have hlength : (Text.ofNat n).length ≤ 3 :=
      Text.length_digitsWithin_le _ _ 2 (by omega : n < 1000)
    have hmask := SpellsMask.some (Text.ofNat_ne_nil n) hlength
      fun c hc => Text.isDigit_of_mem_ofNat hc
    rwa [Text.digitsValue_ofNat] at hmask

theorem read?_text {a : Inet} (h : ∀ n ∈ a.maskLength, n ≤ maskLimit a.host) :
    read? a.text = some a := by
  rw [text_eq, read?_append (slash_not_mem_hostText a.host) (spellsMask_maskText h)]
  obtain ⟨host, maskLength⟩ := a
  cases host with
  | v4 a =>
    have hcolon : Byte.colon ∉ v4Text a := by
      intro hmem
      rcases mem_v4Text hmem with hc | hc <;> exact absurd hc (by decide)
    rw [hostText, if_neg hcolon, v4?_v4Text, Option.bind_some]
    exact withMask?_of_le h _
  | v6 a =>
    have hread := v6?_spelled (spells_v6Text a) (.inl rfl)
    rw [List.append_nil] at hread
    rw [hostText, if_pos (spells_v6Text a).colon_mem, hread, Option.bind_some]
    exact withMask?_of_le h _

-- An address without a mask or with one that its family has reads back from its
-- text, so that no two of them share a text.
theorem ofText_of_text_injective :
    (∀ a : Inet, (∀ n ∈ a.maskLength, n ≤ maskLimit a.host) → ofText a.text = .ok a) ∧
    ∀ a b : Inet, (∀ n ∈ a.maskLength, n ≤ maskLimit a.host) →
      (∀ n ∈ b.maskLength, n ≤ maskLimit b.host) → a ≠ b → a.text ≠ b.text := by
  refine ⟨fun a h => by rw [ofText, read?_text h], fun a b ha hb hne htext => hne ?_⟩
  have hread := read?_text ha
  rw [htext, read?_text hb] at hread
  exact (Option.some.inj hread).symm

-- Of two runs of the same length the first is compressed. The mask tells the
-- two addresses apart.
theorem ofText_of_text_injective_twoRuns :
    (⟨.v6 ⟨[0x2001, 0, 0, 1, 0, 0, 0xa, 0], by rfl⟩, some 128⟩ : Inet).text =
        ("2001::1:0:0:a:0/128" : Text) ∧
      ofText ("2001::1:0:0:a:0/128" : Text) =
        .ok ⟨.v6 ⟨[0x2001, 0, 0, 1, 0, 0, 0xa, 0], by rfl⟩, some 128⟩ ∧
      (⟨.v6 ⟨[0x2001, 0, 0, 1, 0, 0, 0xa, 0], by rfl⟩, some 128⟩ : Inet).text ≠
        (⟨.v6 ⟨[0x2001, 0, 0, 1, 0, 0, 0xa, 0], by rfl⟩, none⟩ : Inet).text := by
  have htext : (⟨.v6 ⟨[0x2001, 0, 0, 1, 0, 0, 0xa, 0], by rfl⟩, some 128⟩ : Inet).text =
      ("2001::1:0:0:a:0/128" : Text) := by decide
  refine ⟨htext, ?_, ofText_of_text_injective.2 _ _ (by decide) (by decide) (by decide)⟩
  rw [← htext]
  exact ofText_of_text_injective.1 _ (by decide)

end EntitySql.Inet
