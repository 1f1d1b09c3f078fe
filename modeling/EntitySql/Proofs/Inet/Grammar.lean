import EntitySql.Proofs.Inet.Groups
import EntitySql.Value.Reader

-- The written forms of addresses in hexadecimal groups. The reader accepts
-- them all, and besides them only such a form with one more colon behind its
-- last group.

namespace EntitySql.Inet

-- The texts of eight groups: a row of all of them, or two rows around a pair of
-- colons that stands for the zeros that are missing.
inductive Spells : Text → List UInt16 → Prop
  | full {row : List Text} (hrow : ∀ d ∈ row, IsGroup d) (hlength : row.length = 8) :
    Spells (rowText row) (row.map groupValue)
  | compressed {front back : List Text} (hfront : ∀ d ∈ front, IsGroup d)
    (hback : ∀ d ∈ back, IsGroup d) (hlength : front.length + back.length ≤ 8) :
    Spells (rowText front ++ Byte.colon :: Byte.colon :: rowText back)
      (front.map groupValue ++ List.replicate (8 - (front.length + back.length)) 0 ++
        back.map groupValue)

-- The address of the groups that were taken.

theorem Groups.address?_eq_some_iff {g : Groups} {a : Ipv6} : g.address? = some a ↔
    (g.front.length + g.back.length ≤ 8 ∧
      (g.compressed = true ∨ g.front.length + g.back.length = 8)) ∧
    a.groups = g.front ++ List.replicate (8 - (g.front.length + g.back.length)) 0 ++ g.back := by
  obtain ⟨groups, hgroups⟩ := a
  unfold Groups.address?
  dsimp only
  split
  · next h =>
    simp only [h, and_self, true_and, Option.some.injEq, Ipv6.mk.injEq]
    exact eq_comm
  · next h => simp [h]

theorem address?_row {row : List Text} {a : Ipv6} :
    (row.foldl Groups.push {}).address? = some a ↔
      row.length = 8 ∧ a.groups = row.map groupValue := by
  rw [Groups.foldl_push_of_not_compressed rfl, Groups.address?_eq_some_iff]
  simp only [List.nil_append, List.length_map, List.length_nil, Nat.add_zero, Bool.false_eq_true,
    false_or, List.append_nil]
  constructor
  · rintro ⟨⟨-, hlength⟩, hgroups⟩
    refine ⟨hlength, ?_⟩
    rw [hgroups, hlength]
    exact List.append_nil _
  · rintro ⟨hlength, hgroups⟩
    refine ⟨⟨Nat.le_of_eq hlength, hlength⟩, ?_⟩
    rw [hgroups, hlength]
    exact (List.append_nil _).symm

theorem address?_rows (front back : List Text) {a : Ipv6} :
    (back.foldl Groups.push
      { front.foldl Groups.push {} with compressed := true }).address? = some a ↔
      front.length + back.length ≤ 8 ∧ a.groups = front.map groupValue ++
        List.replicate (8 - (front.length + back.length)) 0 ++ back.map groupValue := by
  rw [Groups.foldl_push_of_not_compressed rfl front, Groups.foldl_push_of_compressed rfl back,
    Groups.address?_eq_some_iff]
  simp

theorem v6?_of_head {c : UInt8} (hc : c ≠ Byte.colon) (rest : Text) :
    v6? (c :: rest) = (takeGroups? ((c :: rest).length + 1) {} (c :: rest)).bind
      Groups.address? := by
  unfold v6?
  split
  · next heq => exact absurd (List.cons.inj heq).1 hc
  · rfl

theorem v6?_pair (rest : Text) :
    v6? (Byte.colon :: Byte.colon :: rest) =
      (takeGroups? (rest.length + 3) { compressed := true } rest).bind Groups.address? := rfl

theorem v6?_spelled {t tail : Text} {a : Ipv6} (h : Spells t a.groups)
    (htail : tail = [] ∨ EndsInDigit t ∧ tail = [Byte.colon]) : v6? (t ++ tail) = some a := by
  generalize hgroups : a.groups = groups at h
  cases h with
  | full hrow hlength =>
    next row =>
    obtain ⟨d, rest, rfl⟩ := List.exists_cons_of_length_eq_add_one hlength
    obtain ⟨c, more, hhead, hc⟩ := head_rowText (hrow d (by simp)) rest
    have hcloses : Closes (d :: rest) tail := htail.imp id fun h => ⟨by simp, h.2⟩
    have htake := takeGroups?_row hrow hcloses (Nat.lt_add_one _) {}
    rw [hhead, List.cons_append] at htake ⊢
    rw [v6?_of_head hc, htake, Option.bind_some]
    exact address?_row.mpr ⟨hlength, hgroups⟩
  | compressed hfront hback hlength =>
    next front back =>
    have hcloses : Closes back tail := by
      refine htail.imp id fun h => ⟨?_, h.2⟩
      rintro rfl
      have hbody : rowText front ++ Byte.colon :: Byte.colon :: rowText [] =
          rowText front ++ [Byte.colon] ++ [Byte.colon] := by simp [rowText, Text.join]
      exact not_endsInDigit_colon _ (hbody ▸ h.1)
    rw [List.append_assoc, List.cons_append, List.cons_append]
    cases front with
    | nil =>
      have htake := takeGroups?_row hback hcloses
        (by omega : _ < (rowText back ++ tail).length + 3) { compressed := true }
      show v6? (Byte.colon :: Byte.colon :: (rowText back ++ tail)) = some a
      rw [v6?_pair, htake, Option.bind_some]
      exact (address?_rows [] back).mpr ⟨hlength, hgroups⟩
    | cons d rest =>
      obtain ⟨c, more, hhead, hc⟩ := head_rowText (hfront d (by simp)) rest
      have htake := takeGroups?_rows hfront (by simp) hback hcloses (Nat.lt_add_one _)
        (g := {}) rfl
      rw [hhead, List.cons_append] at htake ⊢
      rw [v6?_of_head hc, htake, Option.bind_some]
      exact (address?_rows _ _).mpr ⟨hlength, hgroups⟩

theorem exists_spelled_of_v6? {t : Text} {a : Ipv6} (h : v6? t = some a) :
    ∃ body tail, t = body ++ tail ∧ Spells body a.groups ∧
      (tail = [] ∨ EndsInDigit body ∧ tail = [Byte.colon]) := by
  have hcloses {row : List Text} {tail : Text} (hrow : ∀ d ∈ row, IsGroup d)
      (htail : Closes row tail) (s : Text) :
      tail = [] ∨ EndsInDigit (s ++ rowText row) ∧ tail = [Byte.colon] :=
    htail.imp id fun h => ⟨(endsInDigit_rowText hrow h.1).append s, h.2⟩
  unfold v6? at h
  dsimp only at h
  split at h
  · obtain ⟨r, htake, haddress⟩ := Option.bind_eq_some_iff.mp h
    rcases takeGroups?_sound htake with ⟨row, tail, hrow, htail, rfl, rfl⟩ | ⟨hcompressed, -⟩
    · obtain ⟨hlength, hgroups⟩ := (address?_rows [] row).mp haddress
      rw [hgroups]
      exact ⟨_, tail, rfl, .compressed (by simp) hrow hlength,
        hcloses hrow htail [Byte.colon, Byte.colon]⟩
    · cases hcompressed
  · obtain ⟨r, htake, haddress⟩ := Option.bind_eq_some_iff.mp h
    rcases takeGroups?_sound htake with ⟨row, tail, hrow, htail, rfl, rfl⟩ |
      ⟨-, front, back, tail, hfront, hne, hback, htail, rfl, rfl⟩
    · obtain ⟨hlength, hgroups⟩ := address?_row.mp haddress
      rw [hgroups]
      exact ⟨_, tail, rfl, .full hrow hlength, hcloses hrow htail []⟩
    · obtain ⟨hlength, hgroups⟩ := (address?_rows front back).mp haddress
      rw [hgroups]
      refine ⟨_, tail, ?_, .compressed hfront hback hlength, ?_⟩
      · simp
      · rw [List.append_cons, List.append_cons]
        exact hcloses hback htail _

-- The texts of a mask length: nothing, or a slash and one to three digits.
inductive SpellsMask : Text → Option Nat → Prop
  | none : SpellsMask [] none
  | some {digits : Text} (hne : digits ≠ []) (hlength : digits.length ≤ 3)
    (hdigits : ∀ c ∈ digits, Byte.isDigit c = true) :
    SpellsMask (Byte.slash :: digits) (some (Text.digitsValue digits))

theorem maskLength?_of_digits {digits : Text} (hne : digits ≠ []) (hlength : digits.length ≤ 3)
    (hdigits : ∀ c ∈ digits, Byte.isDigit c = true) :
    maskLength? digits = some (Text.digitsValue digits) := by
  have hempty : digits.isEmpty = false := List.isEmpty_eq_false_iff.mpr hne
  have hall : digits.all Byte.isDigit = true := List.all_eq_true.mpr hdigits
  have hlong : decide (3 < digits.length) = false := by
    simp
    omega
  rw [maskLength?, hempty, hall, hlong]
  rfl

theorem withMask?_of_le {limit : Nat} {n : Option Nat} (h : ∀ k ∈ n, k ≤ limit) (host : Host) :
    withMask? limit n host = some ⟨host, n⟩ := by
  cases n with
  | none => rfl
  | some k => exact if_pos (h k rfl)

-- The first slash ends the host.
theorem read?_append {host mask : Text} {n : Option Nat} (hslash : Byte.slash ∉ host)
    (hmask : SpellsMask mask n) : read? (host ++ mask) =
      if Byte.colon ∈ host then (v6? host).bind fun a => withMask? 128 n (.v6 a)
      else (v4? host).bind fun a => withMask? 32 n (.v4 a) := by
  have hhost : ∀ c ∈ host, decide (c ≠ Byte.slash) = true := by
    intro c hc
    simp only [decide_eq_true_eq]
    rintro rfl
    exact hslash hc
  have hcut : cutMask (host ++ mask) = (host, mask.tail?) := by
    have hstop : ∀ c ∈ mask.head?, decide (c ≠ Byte.slash) = false := by
      cases hmask <;> simp
    unfold cutMask
    rw [Text.takeWhile_append_of_stop hhost hstop, Text.dropWhile_append_of_stop hhost hstop]
    cases hmask <;> rfl
  rw [read?, hcut]
  simp only [List.elem_eq_mem, decide_eq_true_eq]
  cases hmask with
  | none => rfl
  | some hne hlength hdigits =>
    simp only [List.tail?_cons, maskLength?_of_digits hne hlength hdigits]
    rfl

-- A colon right behind the last group.
def HasStrayColon (t : Text) : Prop :=
  ∃ body, t = body ++ [Byte.colon] ∧ EndsInDigit body ∧ ∃ groups, Spells body groups

theorem Spells.length_groups {t : Text} {groups : List UInt16} (h : Spells t groups) :
    groups.length = 8 := by
  cases h with
  | full _ hlength => rw [List.length_map, hlength]
  | compressed _ _ hlength =>
    simp only [List.length_append, List.length_map, List.length_replicate]
    omega

theorem Spells.endsInDigit_or {t : Text} {groups : List UInt16} (h : Spells t groups) :
    EndsInDigit t ∨ ∃ s, t = s ++ [Byte.colon, Byte.colon] := by
  cases h with
  | full hrow hlength => exact .inl (endsInDigit_rowText hrow (by rintro rfl; cases hlength))
  | compressed hfront hback hlength =>
    next front back =>
    by_cases hne : back = []
    · exact .inr ⟨rowText front, by rw [hne]; rfl⟩
    · rw [List.append_cons, List.append_cons]
      exact .inl ((endsInDigit_rowText hback hne).append _)

-- The stray colon makes another text of it, which has no written form.
theorem HasStrayColon.not_spells {t : Text} (h : HasStrayColon t) (groups : List UInt16) :
    ¬Spells t groups := by
  obtain ⟨body, rfl, hbody, -⟩ := h
  intro hspells
  rcases hspells.endsInDigit_or with hdigit | ⟨s, hs⟩
  · exact not_endsInDigit_colon body hdigit
  · have hbodies : body ++ [Byte.colon] = s ++ [Byte.colon] ++ [Byte.colon] := by simp [hs]
    rw [(List.append_inj' hbodies rfl).1] at hbody
    exact not_endsInDigit_colon s hbody

theorem v6?_isSome_iff {t : Text} :
    (∃ a, v6? t = some a) ↔ (∃ groups, Spells t groups) ∨ HasStrayColon t := by
  constructor
  · rintro ⟨a, ha⟩
    obtain ⟨body, tail, rfl, hbody, rfl | ⟨hdigit, rfl⟩⟩ := exists_spelled_of_v6? ha
    · exact .inl ⟨_, by rwa [List.append_nil]⟩
    · exact .inr ⟨body, rfl, hdigit, _, hbody⟩
  · rintro (⟨groups, h⟩ | ⟨body, rfl, hdigit, groups, h⟩)
    · have hread := v6?_spelled (a := ⟨groups, h.length_groups⟩) h (.inl rfl)
      rw [List.append_nil] at hread
      exact ⟨_, hread⟩
    · exact ⟨_, v6?_spelled (a := ⟨groups, h.length_groups⟩) h (.inr ⟨hdigit, rfl⟩)⟩

-- A text of hexadecimal groups with an optional mask length is accepted if and
-- only if the groups have a written form, or have one but for a single colon
-- behind the last group.
theorem accepts_groups {host mask : Text} {n : Option Nat} (hslash : Byte.slash ∉ host)
    (hcolon : Byte.colon ∈ host) (hmask : SpellsMask mask n) (hlimit : ∀ k ∈ n, k ≤ 128) :
    ((∃ a, ofText (host ++ mask) = .ok a) ↔ (∃ groups, Spells host groups) ∨ HasStrayColon host) ∧
      ¬((∃ groups, Spells host groups) ∧ HasStrayColon host) := by
  refine ⟨?_, fun ⟨⟨groups, hspells⟩, hstray⟩ => hstray.not_spells groups hspells⟩
  rw [← v6?_isSome_iff, ofText, read?_append hslash hmask, if_pos hcolon]
  cases hread : v6? host with
  | none => simp
  | some a => simp [withMask?_of_le hlimit]

-- Eight groups and one colon more.
theorem accepts_groups_strayColon :
    (Byte.slash ∉ ("1:2:3:4:5:6:7:8:" : Text) ∧ Byte.colon ∈ ("1:2:3:4:5:6:7:8:" : Text) ∧
      SpellsMask ("/064" : Text) (some 64)) ∧
      (∃ a, ofText (("1:2:3:4:5:6:7:8:" : Text) ++ ("/064" : Text)) = .ok a) ∧
      ¬∃ groups, Spells ("1:2:3:4:5:6:7:8:" : Text) groups := by
  have hslash : Byte.slash ∉ ("1:2:3:4:5:6:7:8:" : Text) := by decide
  have hcolon : Byte.colon ∈ ("1:2:3:4:5:6:7:8:" : Text) := by decide
  have hmask : SpellsMask ("/064" : Text) (some 64) :=
    @SpellsMask.some ("064" : Text) (by decide) (by decide) (List.all_eq_true.mp (by decide))
  have hrow : ∀ d ∈ (["1", "2", "3", "4", "5", "6", "7", "8"] : List Text), IsGroup d := by
    intro d hd
    simp only [List.mem_cons, List.not_mem_nil, or_false] at hd
    rcases hd with rfl | rfl | rfl | rfl | rfl | rfl | rfl | rfl
    all_goals exact ⟨by decide, by decide, List.all_eq_true.mp (by decide)⟩
  have hstray : HasStrayColon ("1:2:3:4:5:6:7:8:" : Text) :=
    ⟨("1:2:3:4:5:6:7:8" : Text), by decide, ⟨0x38, by decide, by decide⟩, _, .full hrow rfl⟩
  obtain ⟨haccepts, honly⟩ := accepts_groups hslash hcolon hmask (by decide)
  exact ⟨⟨hslash, hcolon, hmask⟩, haccepts.mpr (.inr hstray), fun h => honly ⟨h, hstray⟩⟩

end EntitySql.Inet
