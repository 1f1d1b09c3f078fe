import EntitySql.Inet.Reader
import EntitySql.Proofs.Text.Join
import EntitySql.Proofs.Text.Span

-- Rows of hexadecimal groups with single colons in between, and how the reader
-- takes them: one row, or two around the pair of colons. A colon may also stand
-- behind the last group of all.

namespace EntitySql.Inet

-- One to four hexadecimal digits.
structure IsGroup (digits : Text) : Prop where
  ne_nil : digits ≠ []
  length_le : digits.length ≤ 4
  isHexDigit : ∀ c ∈ digits, Byte.isHexDigit c = true

def groupValue (digits : Text) : UInt16 := UInt16.ofNat (Text.hexDigitsValue digits)

-- Groups with single colons between neighbours.
def rowText (row : List Text) : Text := Text.join [Byte.colon] row

def EndsInDigit (t : Text) : Prop := ∃ c ∈ t.getLast?, Byte.isHexDigit c = true

theorem not_isHexDigit_colon : Byte.isHexDigit Byte.colon = false := by decide

namespace IsGroup

variable {digits : Text} (h : IsGroup digits)

include h

theorem head : ∃ c rest, digits = c :: rest ∧ c ≠ Byte.colon := by
  obtain ⟨c, rest, rfl⟩ := List.exists_cons_of_ne_nil h.ne_nil
  refine ⟨c, rest, rfl, ?_⟩
  rintro rfl
  exact absurd (h.isHexDigit Byte.colon (List.mem_cons_self ..)) (by decide)

theorem isEmpty : digits.isEmpty = false := List.isEmpty_eq_false_iff.mpr h.ne_nil

theorem endsInDigit : EndsInDigit digits := by
  refine ⟨digits.getLast h.ne_nil, List.getLast?_eq_some_getLast h.ne_nil, ?_⟩
  exact h.isHexDigit _ (List.getLast_mem h.ne_nil)

end IsGroup

theorem EndsInDigit.append {t : Text} (h : EndsInDigit t) (s : Text) : EndsInDigit (s ++ t) := by
  obtain ⟨c, hc, hdigit⟩ := h
  exact ⟨c, by rw [List.getLast?_append, hc]; rfl, hdigit⟩

theorem not_endsInDigit_colon (s : Text) : ¬EndsInDigit (s ++ [Byte.colon]) := by
  rintro ⟨c, hc, hdigit⟩
  rw [List.getLast?_concat] at hc
  obtain rfl := Option.some.inj hc
  exact absurd hdigit (by decide)

section Row

variable {row : List Text}

theorem rowText_cons_cons (d e : Text) (row : List Text) (rest : Text) :
    rowText (d :: e :: row) ++ rest = d ++ Byte.colon :: (rowText (e :: row) ++ rest) := by
  simp [rowText, Text.join]

theorem head_rowText {d : Text} (h : IsGroup d) (row : List Text) :
    ∃ c rest, rowText (d :: row) = c :: rest ∧ c ≠ Byte.colon := by
  obtain ⟨c, rest, rfl, hc⟩ := h.head
  rw [rowText, Text.join_cons]
  exact ⟨c, _, rfl, hc⟩

theorem endsInDigit_rowText (hrow : ∀ d ∈ row, IsGroup d) (hne : row ≠ []) :
    EndsInDigit (rowText row) := by
  induction row with
  | nil => exact absurd rfl hne
  | cons d row ih =>
    cases row with
    | nil => exact (hrow d (by simp)).endsInDigit
    | cons e row =>
      have hrest := ih (fun d hd => hrow d (List.mem_cons_of_mem _ hd)) (by simp)
      have hrow := rowText_cons_cons d e row []
      rw [List.append_nil, List.append_nil, List.append_cons] at hrow
      rw [hrow]
      exact hrest.append _

end Row

-- What one group adds to the groups read so far.

namespace Groups

variable (g : Groups)

theorem compressed_push (digits : Text) : (g.push digits).compressed = g.compressed := by
  unfold push
  split <;> rfl

theorem foldl_push_of_compressed {g : Groups} (hg : g.compressed = true) (row : List Text) :
    row.foldl push g = { g with back := g.back ++ row.map groupValue } := by
  induction row generalizing g with
  | nil => simp
  | cons d row ih =>
    have hpush : g.push d = { g with back := g.back ++ [groupValue d] } := if_pos hg
    rw [List.foldl_cons, ih (by rw [compressed_push, hg]), hpush]
    simp

theorem foldl_push_of_not_compressed {g : Groups} (hg : g.compressed = false) (row : List Text) :
    row.foldl push g = { g with front := g.front ++ row.map groupValue } := by
  induction row generalizing g with
  | nil => simp
  | cons d row ih =>
    have hpush : g.push d = { g with front := g.front ++ [groupValue d] } := if_neg (by simp [hg])
    rw [List.foldl_cons, ih (by rw [compressed_push, hg]), hpush]
    simp

end Groups

-- A group is followed by nothing, a single colon or the pair of colons.
def takeRest? (fuel : Nat) (g : Groups) : Text → Option Groups
  | [] => some g
  | Byte.colon :: Byte.colon :: rest =>
    if g.compressed then none else takeGroups? fuel { g with compressed := true } rest
  | Byte.colon :: rest => takeGroups? fuel g rest
  | _ => none

theorem takeRest?_colon {fuel : Nat} {g : Groups} {rest : Text}
    (hrest : rest.head? ≠ some Byte.colon) :
    takeRest? fuel g (Byte.colon :: rest) = takeGroups? fuel g rest := by
  unfold takeRest?
  split
  · next heq => cases heq
  · next heq =>
    rw [(List.cons.inj heq).2] at hrest
    exact absurd rfl hrest
  · next heq => rw [(List.cons.inj heq).2]
  · next hne => exact absurd rfl (hne _)

theorem takeRest?_pair {fuel : Nat} {g : Groups} (hg : g.compressed = false) (rest : Text) :
    takeRest? fuel g (Byte.colon :: Byte.colon :: rest) =
      takeGroups? fuel { g with compressed := true } rest := if_neg (by simp [hg])

theorem takeRest?_eq_some {fuel : Nat} {g r : Groups} {t : Text} (h : takeRest? fuel g t = some r) :
    (t = [] ∧ r = g) ∨
    (∃ rest, t = Byte.colon :: rest ∧ takeGroups? fuel g rest = some r) ∨
    ∃ rest, t = Byte.colon :: Byte.colon :: rest ∧ g.compressed = false ∧
      takeGroups? fuel { g with compressed := true } rest = some r := by
  unfold takeRest? at h
  split at h
  · exact .inl ⟨rfl, (Option.some.inj h).symm⟩
  · next rest =>
    cases hg : g.compressed with
    | true => simp [hg] at h
    | false => exact .inr (.inr ⟨rest, rfl, rfl, by simpa [hg] using h⟩)
  · next rest _ => exact .inr (.inl ⟨rest, rfl, h⟩)
  · cases h

theorem takeGroups?_append {fuel : Nat} {g : Groups} {d rest : Text} (hd : IsGroup d)
    (hrest : ∀ c ∈ rest.head?, Byte.isHexDigit c = false) :
    takeGroups? (fuel + 1) g (d ++ rest) = takeRest? fuel (g.push d) rest := by
  obtain ⟨c, more, htext, -⟩ := hd.head
  have hlength : decide (4 < d.length) = false := by
    have := hd.length_le
    simp
    omega
  rw [htext, List.cons_append, takeGroups?, ← List.cons_append, ← htext,
    Text.takeWhile_append_of_stop hd.isHexDigit hrest,
    Text.dropWhile_append_of_stop hd.isHexDigit hrest, hd.isEmpty, hlength]
  · rfl
  · simp

theorem takeGroups?_eq_some {fuel : Nat} {g r : Groups} {t : Text} (ht : t ≠ [])
    (h : takeGroups? (fuel + 1) g t = some r) :
    ∃ d rest, t = d ++ rest ∧ IsGroup d ∧ takeRest? fuel (g.push d) rest = some r := by
  rw [takeGroups?] at h
  · split at h
    · cases h
    · next hdigits =>
      simp only [Bool.or_eq_true, decide_eq_true_eq, not_or, Bool.not_eq_true,
        List.isEmpty_eq_false_iff, Nat.not_lt] at hdigits
      exact ⟨t.takeWhile Byte.isHexDigit, t.dropWhile Byte.isHexDigit,
        List.takeWhile_append_dropWhile.symm,
        ⟨hdigits.1, hdigits.2, List.all_eq_true.mp List.all_takeWhile⟩, h⟩
  · exact ht

theorem takeGroups?_cons_cons {fuel : Nat} {g : Groups} {d e : Text} (hd : IsGroup d)
    (he : IsGroup e) (row : List Text) (rest : Text) :
    takeGroups? (fuel + 1) g (rowText (d :: e :: row) ++ rest) =
      takeGroups? fuel (g.push d) (rowText (e :: row) ++ rest) := by
  obtain ⟨c, more, hhead, hc⟩ := head_rowText he row
  rw [rowText_cons_cons, takeGroups?_append hd (by simp [not_isHexDigit_colon]), hhead]
  exact takeRest?_colon (by simpa using hc)

-- What may stand behind the last group of a row: nothing, or a colon.
def Closes (row : List Text) (tail : Text) : Prop :=
  tail = [] ∨ row ≠ [] ∧ tail = [Byte.colon]

-- A row of groups is taken group by group.
theorem takeGroups?_row {row : List Text} {tail : Text} (hrow : ∀ d ∈ row, IsGroup d)
    (htail : Closes row tail) {fuel : Nat} (hfuel : (rowText row ++ tail).length < fuel)
    (g : Groups) : takeGroups? fuel g (rowText row ++ tail) = some (row.foldl Groups.push g) := by
  induction row generalizing fuel g with
  | nil =>
    obtain ⟨fuel, rfl⟩ := Nat.exists_eq_add_one_of_ne_zero (by omega : fuel ≠ 0)
    rcases htail with rfl | ⟨hne, -⟩
    · rfl
    · exact absurd rfl hne
  | cons d row ih =>
    obtain ⟨fuel, rfl⟩ := Nat.exists_eq_add_one_of_ne_zero (by omega : fuel ≠ 0)
    obtain ⟨hd, hrow⟩ := List.forall_mem_cons.mp hrow
    cases row with
    | nil =>
      have hsingle : rowText [d] = d := rfl
      rw [hsingle] at hfuel ⊢
      rcases htail with rfl | ⟨-, rfl⟩
      · rw [takeGroups?_append hd (by simp)]
        rfl
      · obtain ⟨fuel, rfl⟩ := Nat.exists_eq_add_one_of_ne_zero (n := fuel) (by
          rw [List.length_append, List.length_singleton] at hfuel
          omega)
        rw [takeGroups?_append hd (by simp [not_isHexDigit_colon]), takeRest?_colon (by simp)]
        rfl
    | cons e row =>
      have hcloses : Closes (e :: row) tail := htail.imp id fun h => ⟨by simp, h.2⟩
      rw [rowText_cons_cons, List.length_append, List.length_cons] at hfuel
      rw [takeGroups?_cons_cons hd (hrow e (by simp)), ih hrow hcloses (by omega)]
      rfl

-- Two rows are taken around the pair of colons.
theorem takeGroups?_rows {front back : List Text} {tail : Text} (hfront : ∀ d ∈ front, IsGroup d)
    (hne : front ≠ []) (hback : ∀ d ∈ back, IsGroup d) (htail : Closes back tail) {fuel : Nat}
    (hfuel : (rowText front ++ Byte.colon :: Byte.colon :: (rowText back ++ tail)).length < fuel)
    {g : Groups} (hg : g.compressed = false) :
    takeGroups? fuel g (rowText front ++ Byte.colon :: Byte.colon :: (rowText back ++ tail)) =
      some (back.foldl Groups.push { front.foldl Groups.push g with compressed := true }) := by
  induction front generalizing fuel g with
  | nil => exact absurd rfl hne
  | cons d front ih =>
    obtain ⟨fuel, rfl⟩ := Nat.exists_eq_add_one_of_ne_zero (by omega : fuel ≠ 0)
    obtain ⟨hd, hfront⟩ := List.forall_mem_cons.mp hfront
    have hpush : (g.push d).compressed = false := by rw [g.compressed_push, hg]
    cases front with
    | nil =>
      have hsingle : rowText [d] = d := rfl
      rw [hsingle] at hfuel ⊢
      rw [List.length_append, List.length_cons, List.length_cons] at hfuel
      rw [takeGroups?_append hd (by simp [not_isHexDigit_colon]), takeRest?_pair hpush,
        takeGroups?_row hback htail (by omega)]
      rfl
    | cons e front =>
      rw [rowText_cons_cons, List.length_append, List.length_cons] at hfuel
      rw [takeGroups?_cons_cons hd (hfront e (by simp)), ih hfront (by simp) (by omega) hpush]
      rfl

-- Only rows are taken. By induction on the fuel, group by group.
theorem takeGroups?_sound {fuel : Nat} {g r : Groups} {t : Text}
    (h : takeGroups? fuel g t = some r) :
    (∃ row tail, (∀ d ∈ row, IsGroup d) ∧ Closes row tail ∧ t = rowText row ++ tail ∧
      r = row.foldl Groups.push g) ∨
    g.compressed = false ∧ ∃ front back tail, (∀ d ∈ front, IsGroup d) ∧ front ≠ [] ∧
      (∀ d ∈ back, IsGroup d) ∧ Closes back tail ∧
      t = rowText front ++ Byte.colon :: Byte.colon :: (rowText back ++ tail) ∧
      r = back.foldl Groups.push { front.foldl Groups.push g with compressed := true } := by
  induction fuel generalizing g t with
  | zero => cases h
  | succ fuel ih =>
    by_cases ht : t = []
    · subst ht
      obtain rfl := Option.some.inj h
      exact .inl ⟨[], [], by simp, .inl rfl, rfl, rfl⟩
    · obtain ⟨d, rest, rfl, hd, hrest⟩ := takeGroups?_eq_some ht h
      have hone : ∀ e ∈ [d], IsGroup e := by simpa using hd
      rcases takeRest?_eq_some hrest with ⟨rfl, rfl⟩ | ⟨rest, rfl, htake⟩ | ⟨rest, rfl, hg, htake⟩
      · exact .inl ⟨[d], [], hone, .inl rfl, rfl, rfl⟩
      · rcases ih htake with ⟨row, tail, hrow, htail, rfl, rfl⟩ |
          ⟨hg, front, back, tail, hfront, hne, hback, htail, rfl, rfl⟩
        · cases row with
          | nil =>
            rcases htail with rfl | ⟨hne, -⟩
            · exact .inl ⟨[d], [Byte.colon], hone, .inr ⟨by simp, rfl⟩, rfl, rfl⟩
            · exact absurd rfl hne
          | cons e row =>
            refine .inl ⟨d :: e :: row, tail, List.forall_mem_cons.mpr ⟨hd, hrow⟩,
              htail.imp id fun h => ⟨by simp, h.2⟩, ?_, rfl⟩
            rw [rowText_cons_cons]
        · obtain ⟨e, front, rfl⟩ := List.exists_cons_of_ne_nil hne
          refine .inr ⟨by rwa [g.compressed_push] at hg, d :: e :: front, back, tail,
            List.forall_mem_cons.mpr ⟨hd, hfront⟩, by simp, hback, htail, ?_, rfl⟩
          rw [rowText_cons_cons]
      -- Behind the pair of colons there is no further one.
      · rcases ih htake with ⟨row, tail, hrow, htail, rfl, rfl⟩ | ⟨hcompressed, -⟩
        · exact .inr ⟨by rwa [g.compressed_push] at hg, [d], row, tail, hone, by simp, hrow, htail,
            rfl, rfl⟩
        · cases hcompressed

end EntitySql.Inet
