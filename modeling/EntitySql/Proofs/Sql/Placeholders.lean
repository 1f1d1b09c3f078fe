import EntitySql.Proofs.Text.Plain
import EntitySql.Sql.Term
import Mathlib.Data.List.TakeWhile

-- The placeholders that stand in a text: every "@p" with the digits behind it.
-- They are read byte by byte, so a placeholder may also begin in one piece of a
-- text and end in the next; the pieces are read apart where the next one begins
-- with a byte that belongs to no placeholder.

namespace EntitySql.Sql

def atSign : UInt8 := 0x40

def letterP : UInt8 := 0x70

def marker : Text := "@p"

def placeholders : Text → List Text
  | [] => []
  | c :: rest =>
    if marker.isPrefixOf (c :: rest) then
      (marker ++ (rest.drop 1).takeWhile Byte.isDigit) :: placeholders rest
    else placeholders rest

def Unmarked (t : Text) : Prop := Text.occurs marker t = false

instance (t : Text) : Decidable (Unmarked t) := inferInstanceAs (Decidable (_ = _))

theorem isPrefixOf_marker (c : UInt8) (rest : Text) :
    marker.isPrefixOf (c :: rest) = (c == atSign && rest.head? == some letterP) := by
  have hmarker : marker = [atSign, letterP] := by decide
  cases rest with
  | nil => simp [hmarker, List.isPrefixOf]
  | cons d rest =>
    simp [hmarker, List.isPrefixOf]
    rw [Bool.beq_comm (a := atSign), Bool.beq_comm (a := letterP)]

theorem placeholders_of_unmarked {t : Text} (h : Unmarked t) : placeholders t = [] := by
  induction t with
  | nil => rfl
  | cons c rest ih =>
    simp only [Unmarked, Text.occurs, Bool.or_eq_false_iff] at h
    obtain ⟨hfirst, hrest⟩ := h
    rw [placeholders, if_neg (by simp [hfirst])]
    exact ih hrest

-- A byte that neither completes a marker nor goes on with a number.
def separates (c : UInt8) : Bool := c != letterP && !Byte.isDigit c

-- A text that begins with such a byte, if it begins at all.
def Opens (t : Text) : Prop := ∀ c ∈ t.head?, separates c = true

instance (t : Text) : Decidable (Opens t) :=
  decidable_of_iff (t.head?.all separates = true) (by cases t <;> simp [Opens])

theorem isPrefixOf_marker_append (c : UInt8) (s : Text) {t : Text} (ht : Opens t) :
    marker.isPrefixOf (c :: (s ++ t)) = marker.isPrefixOf (c :: s) := by
  rw [isPrefixOf_marker, isPrefixOf_marker]
  cases s with
  | cons d s => simp
  | nil =>
    cases t with
    | nil => rfl
    | cons d t =>
      have hd : d ≠ letterP := by
        have hseparates := ht d (by simp)
        simp only [separates, Bool.and_eq_true, bne_iff_ne] at hseparates
        exact hseparates.1
      simp [hd]

theorem takeWhile_isDigit_append (s : Text) {t : Text} (ht : Opens t) :
    (s ++ t).takeWhile Byte.isDigit = s.takeWhile Byte.isDigit := by
  induction s with
  | nil =>
    cases t with
    | nil => rfl
    | cons d t =>
      have hd : Byte.isDigit d = false := by
        have hseparates := ht d (by simp)
        simp only [separates, Bool.and_eq_true, Bool.not_eq_true'] at hseparates
        exact hseparates.2
      simp [hd]
  | cons c s ih => simp [List.takeWhile_cons, ih]

theorem placeholders_append (s : Text) {t : Text} (ht : Opens t) :
    placeholders (s ++ t) = placeholders s ++ placeholders t := by
  induction s with
  | nil => rfl
  | cons c s ih =>
    rw [List.cons_append, placeholders, placeholders, isPrefixOf_marker_append c s ht]
    by_cases hmarker : marker.isPrefixOf (c :: s) = true
    · rw [if_pos hmarker, if_pos hmarker, ih, List.cons_append]
      cases s with
      | nil =>
        rw [isPrefixOf_marker] at hmarker
        simp at hmarker
      | cons d s => simp [takeWhile_isDigit_append s ht]
    · rw [if_neg hmarker, if_neg hmarker, ih]

theorem placeholders_append_of_not_mem {s : Text} (hs : atSign ∉ s) (t : Text) :
    placeholders (s ++ t) = placeholders t := by
  induction s with
  | nil => rfl
  | cons c s ih =>
    simp only [List.mem_cons, not_or] at hs
    obtain ⟨hc, hs⟩ := hs
    rw [List.cons_append, placeholders, isPrefixOf_marker, if_neg (by simp [Ne.symm hc])]
    exact ih hs

theorem placeholders_of_not_mem {s : Text} (hs : atSign ∉ s) : placeholders s = [] := by
  rw [← List.append_nil s, placeholders_append_of_not_mem hs]
  rfl

theorem Opens.nil : Opens [] := by simp [Opens]

theorem Opens.append {s t : Text} (hs : Opens s) (ht : Opens t) : Opens (s ++ t) := by
  cases s with
  | nil => exact ht
  | cons c s => exact hs

theorem Opens.flatMap {α : Type} {f : α → Text} (h : ∀ a, Opens (f a)) (items : List α) :
    Opens (items.flatMap f) := by
  induction items with
  | nil => exact .nil
  | cons a rest ih => exact (h a).append ih

theorem placeholders_flatMap_opens {α : Type} {f : α → Text} (h : ∀ a, Opens (f a))
    (items : List α) : placeholders (items.flatMap f) = items.flatMap fun a => placeholders (f a) := by
  induction items with
  | nil => rfl
  | cons a rest ih =>
    rw [List.flatMap_cons, placeholders_append _ (.flatMap h rest), ih, List.flatMap_cons]

-- Words that keep the pieces around them apart.
def Parts (w : Text) : Prop := (w.head?.any separates && !w.elem atSign) = true

instance (w : Text) : Decidable (Parts w) := inferInstanceAs (Decidable (_ = _))

namespace Parts

variable {w : Text}

theorem not_mem (h : Parts w) : atSign ∉ w := by
  simp only [Parts, Bool.and_eq_true, Bool.not_eq_true'] at h
  simpa using h.2

theorem opens (h : Parts w) (t : Text) : Opens (w ++ t) := by
  simp only [Parts, Bool.and_eq_true] at h
  cases w with
  | nil => cases h.1
  | cons c w => simpa [Opens] using h.1

end Parts

theorem placeholders_between (s t : Text) {w : Text} (hw : Parts w) :
    placeholders (s ++ (w ++ t)) = placeholders s ++ placeholders t := by
  rw [placeholders_append s (hw.opens t), placeholders_append_of_not_mem hw.not_mem]

theorem placeholders_before (s : Text) {w : Text} (hw : Parts w) :
    placeholders (s ++ w) = placeholders s := by
  rw [placeholders_append s (by simpa using hw.opens []), placeholders_of_not_mem hw.not_mem,
    List.append_nil]

-- A word in front of an operand, and one behind it.
theorem placeholders_enclosed {before after : Text} (hbefore : atSign ∉ before)
    (hafter : Parts after) (t : Text) :
    placeholders (before ++ t ++ after) = placeholders t := by
  rw [placeholders_before _ hafter, placeholders_append_of_not_mem hbefore]

theorem placeholders_beside (s t : Text) {w : Text} (hw : Parts w) :
    placeholders (s ++ w ++ t) = placeholders s ++ placeholders t := by
  rw [List.append_assoc, placeholders_between s t hw]

theorem placeholders_join {separator : Text} (hseparator : Parts separator) (parts : List Text) :
    placeholders (Text.join separator parts) = parts.flatMap placeholders := by
  induction parts with
  | nil => rfl
  | cons p rest ih =>
    cases rest with
    | nil => simp [Text.join]
    | cons q rest =>
      rw [show Text.join separator (p :: q :: rest) =
          p ++ separator ++ Text.join separator (q :: rest) from rfl,
        List.append_assoc, placeholders_between p _ hseparator, ih]
      rfl

-- Numbered names.

theorem marker_eq : marker = [atSign, letterP] := by decide

-- Only a digit would go on with the number.
theorem placeholders_numbered_append {digits rest : Text}
    (h : ∀ c ∈ digits, Byte.isDigit c = true) (hrest : ∀ c ∈ rest.head?, Byte.isDigit c = false) :
    placeholders (marker ++ digits ++ rest) = (marker ++ digits) :: placeholders rest := by
  have hall : ∀ c : UInt8, Byte.isDigit c = true → atSign ≠ c := forall_byte (by decide +kernel)
  have hdigits : atSign ∉ digits := fun hmem => hall _ (h _ hmem) rfl
  have hbehind : atSign ∉ letterP :: digits := by
    simp only [List.mem_cons, not_or]
    exact ⟨by decide, hdigits⟩
  have hend : rest.takeWhile Byte.isDigit = [] := by
    cases rest with
    | nil => rfl
    | cons c rest => simp [hrest c rfl]
  have htext : marker ++ digits ++ rest = atSign :: ((letterP :: digits) ++ rest) := by
    simp [marker_eq]
  rw [htext, placeholders, isPrefixOf_marker, if_pos (by simp),
    placeholders_append_of_not_mem hbehind, List.cons_append, List.drop_one, List.tail_cons,
    List.takeWhile_append_of_pos h, hend, List.append_nil]

theorem placeholders_parameterName_append (index : Nat) {rest : Text}
    (hrest : ∀ c ∈ rest.head?, Byte.isDigit c = false) :
    placeholders (parameterName index ++ rest) = parameterName index :: placeholders rest :=
  placeholders_numbered_append (fun _ hc => Text.isDigit_of_mem_ofNat hc) hrest

theorem placeholders_parameterName (index : Nat) :
    placeholders (parameterName index) = [parameterName index] := by
  have hname := @placeholders_parameterName_append index [] (by simp)
  rwa [List.append_nil] at hname

theorem placeholders_of_plain {t : Text} (h : Text.Plain t) : placeholders t = [] :=
  placeholders_of_not_mem (h.not_mem rfl)

-- Quoting.

theorem placeholders_cons_eq_nil {c : UInt8} {rest : Text} :
    placeholders (c :: rest) = [] ↔
      marker.isPrefixOf (c :: rest) = false ∧ placeholders rest = [] := by
  rw [placeholders]
  by_cases h : marker.isPrefixOf (c :: rest) = true
  · rw [if_pos h]
    simp [h]
  · rw [if_neg h]
    simp [h]

theorem placeholders_behind {s t : Text} (h : placeholders (s ++ t) = []) : placeholders t = [] := by
  induction s with
  | nil => exact h
  | cons c s ih => exact ih (placeholders_cons_eq_nil.mp h).2

-- Escaping changes no byte in a way that completes a marker.
theorem placeholders_flatMap {escape : UInt8 → Text}
    (hescape : ∀ c, escape c = [c] ∨ Parts (escape c)) {t : Text} (h : placeholders t = []) :
    placeholders (t.flatMap escape) = [] := by
  induction t with
  | nil => rfl
  | cons c rest ih =>
    obtain ⟨hmarker, hrest⟩ := placeholders_cons_eq_nil.mp h
    rw [List.flatMap_cons]
    rcases hescape c with hc | hc
    · rw [hc, List.singleton_append, placeholders_cons_eq_nil]
      refine ⟨?_, ih hrest⟩
      rw [isPrefixOf_marker] at hmarker ⊢
      cases rest with
      | nil => simp
      | cons d rest =>
        rcases hescape d with hd | hd
        · simpa [hd] using hmarker
        · have hopens := hd.opens (rest.flatMap escape)
          cases hfirst : (escape d ++ rest.flatMap escape).head? with
          | none => simp [hfirst]
          | some e =>
            have hseparates := hopens e hfirst
            have he : e ≠ letterP := by
              simp only [separates, Bool.and_eq_true, bne_iff_ne] at hseparates
              exact hseparates.1
            simp [hfirst, he]
    · rw [placeholders_append_of_not_mem hc.not_mem]
      exact ih hrest

theorem placeholders_quotedSegment {segment : Text} (h : placeholders segment = []) :
    placeholders (quotedSegment segment) = [] := by
  have hquote : atSign ∉ [Byte.doubleQuote] := by decide
  have hclose : Parts [Byte.doubleQuote] := by decide
  unfold quotedSegment
  by_cases hstar : segment = [Byte.star]
  · rw [if_pos hstar]
    exact h
  · rw [if_neg hstar, ← List.singleton_append, List.append_assoc,
      placeholders_append_of_not_mem hquote, placeholders_before _ hclose]
    refine placeholders_flatMap (fun c => ?_) h
    unfold quoteByte
    by_cases hc : c = Byte.doubleQuote
    · rw [if_pos hc]
      exact .inr (by decide)
    · rw [if_neg hc]
      exact .inl rfl

theorem placeholders_quoted {name : Text} (h : placeholders name = []) :
    placeholders (quoted name) = [] := by
  have hdot : Parts [Byte.dot] := by decide
  rw [← Text.join_split Byte.dot name, placeholders_join hdot, List.flatMap_eq_nil_iff] at h
  rw [quoted, placeholders_join hdot, List.flatMap_eq_nil_iff]
  intro t ht
  obtain ⟨segment, hsegment, rfl⟩ := List.mem_map.mp ht
  exact placeholders_quotedSegment (h segment hsegment)

theorem placeholders_columnText {table : Option Text} {name : Text}
    (htable : ∀ aliasName ∈ table, placeholders aliasName = []) (hname : placeholders name = []) :
    placeholders (Term.columnText table name) = [] := by
  cases table with
  | none => exact placeholders_quoted hname
  | some aliasName =>
    have hdot : Parts [Byte.dot] := by decide
    show placeholders (quoted aliasName ++ ([Byte.dot] ++ quoted name)) = []
    rw [placeholders_between _ _ hdot, placeholders_quoted (htable aliasName rfl),
      placeholders_quoted hname]
    rfl

theorem parts_literalByte (c : UInt8) : literalByte c = [c] ∨ Parts (literalByte c) := by
  have hall : ∀ c : UInt8, literalByte c = [c] ∨ Parts (literalByte c) :=
    forall_byte (by decide +kernel)
  exact hall c

theorem placeholders_stringLiteral {s t : Text} (hs : placeholders s = [])
    (h : stringLiteral s = .ok t) : placeholders t = [] := by
  have hquote : Parts [Byte.quote] := by decide
  unfold stringLiteral at h
  split at h
  · cases h
  · cases h
    have hopening : atSign ∉ (if s.any fun c => (escapeLetter? c).isSome then Text.ofString "E'"
        else Text.ofString "'") := by
      split <;> decide
    rw [placeholders_before _ hquote, placeholders_append_of_not_mem hopening]
    exact placeholders_flatMap parts_literalByte hs

end EntitySql.Sql
