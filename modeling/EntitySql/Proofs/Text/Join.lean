import EntitySql.Text
import Mathlib.Data.List.Infix

-- Joined, split, searched and compared texts.

namespace EntitySql.Text

theorem join_cons (separator first : Text) (rest : List Text) :
    join separator (first :: rest) = first ++ rest.flatMap (separator ++ ·) := by
  induction rest generalizing first with
  | nil => simp [join]
  | cons second rest ih => simp [join, ih]

theorem join_cons_cons (separator first second : Text) (rest : List Text) :
    join separator (first :: second :: rest) =
      first ++ separator ++ join separator (second :: rest) := rfl

theorem join_append (separator : Text) {a b : List Text} (ha : a ≠ []) (hb : b ≠ []) :
    join separator (a ++ b) = join separator a ++ separator ++ join separator b := by
  cases a with
  | nil => exact absurd rfl ha
  | cons first rest =>
    cases b with
    | nil => exact absurd rfl hb
    | cons second more => simp [join_cons]

theorem mem_join {c : UInt8} {separator : Text} {parts : List Text}
    (h : c ∈ join separator parts) : c ∈ separator ∨ ∃ p ∈ parts, c ∈ p := by
  cases parts with
  | nil => cases h
  | cons first rest =>
    rw [join_cons, List.mem_append, List.mem_flatMap] at h
    rcases h with h | ⟨p, hp, h⟩
    · exact .inr ⟨first, by simp, h⟩
    · rcases List.mem_append.mp h with h | h
      · exact .inl h
      · exact .inr ⟨p, List.mem_cons_of_mem first hp, h⟩

theorem split_ne_nil (separator : UInt8) (t : Text) : split separator t ≠ [] := by
  cases t with
  | nil => simp [split]
  | cons c rest =>
    unfold split
    split
    · simp
    · split <;> simp

-- Splitting loses nothing.
theorem join_split (separator : UInt8) (t : Text) : join [separator] (split separator t) = t := by
  induction t with
  | nil => rfl
  | cons c rest ih =>
    cases hpieces : split separator rest with
    | nil => exact absurd hpieces (split_ne_nil separator rest)
    | cons piece pieces =>
      rw [hpieces, join_cons] at ih
      unfold split
      by_cases hc : c = separator
      · rw [if_pos hc, hpieces, join_cons, ← ih, hc]
        simp
      · rw [if_neg hc, hpieces]
        dsimp only
        rw [join_cons, ← ih]
        simp

-- A text without the separator is the beginning of the first piece.
theorem split_append_of_not_mem {separator : UInt8} {a : Text} (ha : separator ∉ a) (t : Text) :
    ∃ piece pieces, split separator t = piece :: pieces ∧
      split separator (a ++ t) = (a ++ piece) :: pieces := by
  obtain ⟨piece, pieces, hpieces⟩ := List.exists_cons_of_ne_nil (split_ne_nil separator t)
  refine ⟨piece, pieces, hpieces, ?_⟩
  induction a with
  | nil => exact hpieces
  | cons c a ih =>
    simp only [List.mem_cons, not_or] at ha
    obtain ⟨hc, ha⟩ := ha
    simp [split, Ne.symm hc, ih ha]

theorem split_of_not_mem {separator : UInt8} {t : Text} (h : separator ∉ t) :
    split separator t = [t] := by
  obtain ⟨piece, pieces, hpieces, hsplit⟩ := split_append_of_not_mem h []
  obtain ⟨rfl, rfl⟩ := List.cons.inj hpieces
  simpa using hsplit

theorem split_append_cons (separator : UInt8) (a b : Text) :
    split separator (a ++ separator :: b) = split separator a ++ split separator b := by
  induction a with
  | nil => simp [split]
  | cons c a ih =>
    obtain ⟨piece, pieces, hpieces⟩ := List.exists_cons_of_ne_nil (split_ne_nil separator a)
    by_cases hc : c = separator
    · simp [split, hc, ih]
    · simp [split, hc, ih, hpieces]

-- No piece holds the separator.
theorem not_mem_of_mem_split {separator : UInt8} {t piece : Text} (h : piece ∈ split separator t) :
    separator ∉ piece := by
  induction t generalizing piece with
  | nil =>
    rw [split, List.mem_singleton] at h
    simp [h]
  | cons c rest ih =>
    obtain ⟨first, pieces, hpieces⟩ := List.exists_cons_of_ne_nil (split_ne_nil separator rest)
    rw [hpieces, List.forall_mem_cons] at ih
    by_cases hc : c = separator
    · simp only [split, hc, if_true, hpieces, List.mem_cons] at h
      rcases h with rfl | rfl | h
      · simp
      · exact ih.1
      · exact ih.2 _ h
    · simp only [split, hc, if_false, hpieces, List.mem_cons] at h
      rcases h with rfl | h
      · exact List.not_mem_cons_of_ne_of_not_mem (Ne.symm hc) ih.1
      · exact ih.2 _ h

-- Pieces without the separator are found again.
theorem split_join {separator : UInt8} {parts : List Text} (hne : parts ≠ [])
    (h : ∀ p ∈ parts, separator ∉ p) : split separator (join [separator] parts) = parts := by
  induction parts with
  | nil => exact absurd rfl hne
  | cons first rest ih =>
    obtain ⟨hfirst, hrest⟩ := List.forall_mem_cons.mp h
    cases rest with
    | nil => exact split_of_not_mem hfirst
    | cons second rest =>
      have hjoin : join [separator] (first :: second :: rest) =
          first ++ separator :: join [separator] (second :: rest) := by simp [join]
      rw [hjoin, split_append_cons, split_of_not_mem hfirst, ih (by simp) hrest]
      rfl

theorem occurs_iff {s t : Text} : occurs s t = true ↔ s <:+: t := by
  induction t with
  | nil => simp [occurs]
  | cons c t ih =>
    rw [occurs, Bool.or_eq_true, ih, List.isPrefixOf_iff_prefix]
    exact List.infix_cons_iff.symm

theorem sameFolded_iff {a b : Text} : sameFolded a b = true ↔ lower a = lower b := by
  rw [sameFolded, beq_iff_eq]

end EntitySql.Text
