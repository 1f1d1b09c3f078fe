import EntitySql.Proofs.Sql.Numbering
import EntitySql.Query.RawText

-- Hand-written SQL with its slots filled. A value that is put into a slot has
-- its placeholder read where it stands, unless a digit behind the slot goes on
-- with the number.

namespace EntitySql.Query

open EntitySql.Sql

namespace RawToken

def source : RawToken → Text
  | .byte c => [c]
  | .slot digits => Byte.openBrace :: digits ++ [Byte.closeBrace]

theorem flatMap_source_abandoned (digits : Text) :
    (abandoned digits).flatMap source = Byte.openBrace :: digits := by
  rw [abandoned, List.flatMap_map]
  exact List.flatMap_singleton' _

-- The tokens are the text again.
theorem flatMap_source_scan (pending : Option Text) (sql : Text) :
    (scan pending sql).flatMap source =
      (pending.map (Byte.openBrace :: ·)).getD [] ++ sql := by
  induction sql generalizing pending with
  | nil =>
    cases pending with
    | none => rfl
    | some digits => simpa [scan] using flatMap_source_abandoned digits
  | cons c rest ih =>
    cases pending with
    | none =>
      rw [scan]
      by_cases hopen : c = Byte.openBrace
      · rw [if_pos hopen, ih, hopen]
        rfl
      · rw [if_neg hopen, List.flatMap_cons, ih]
        rfl
    | some digits =>
      rw [scan]
      by_cases hdigit : Byte.isDigit c = true
      · rw [if_pos hdigit, ih]
        simp
      · rw [if_neg hdigit]
        by_cases hclose : (c = Byte.closeBrace && !digits.isEmpty) = true
        · rw [if_pos hclose, List.flatMap_cons, ih]
          simp only [Bool.and_eq_true, decide_eq_true_eq] at hclose
          simp [source, hclose.1]
        · rw [if_neg hclose]
          by_cases hopen : c = Byte.openBrace
          · rw [if_pos hopen, List.flatMap_append, flatMap_source_abandoned, ih, hopen]
            simp
          · rw [if_neg hopen, List.flatMap_append, flatMap_source_abandoned, List.flatMap_cons, ih]
            simp [source]

theorem flatMap_source_ofText (sql : Text) : (ofText sql).flatMap source = sql :=
  flatMap_source_scan none sql

-- A digit right behind a slot.
def meets : RawToken → RawToken → Bool
  | .slot _, .byte c => Byte.isDigit c
  | _, _ => false

end RawToken

-- No slot of the text is followed by a digit.
def Separated (sql : Text) : Prop :=
  (RawToken.ofText sql).IsChain fun a b => a.meets b = false

instance (sql : Text) : Decidable (Separated sql) :=
  inferInstanceAs (Decidable (List.IsChain _ _))

-- What a constant is compiled to when values are bound.
def IsBound (t : Term) : Prop := t = .null ∨ t = .currentTimestamp ∨ ∃ index, t = .placeholder index

theorem isBound_constant {c : Compiler} (hmode : c.mode = .parameterized) {v : Value}
    {s s' : Compiler.State} {t : Term} (h : Yields (c.constant v) s t s') : IsBound t := by
  unfold Compiler.constant at h
  simp only [Yields.ite_iff, Yields.pure_iff, hmode] at h
  rcases h with ⟨-, rfl, -⟩ | ⟨-, ⟨-, rfl, -⟩ | ⟨-, h⟩⟩
  · exact .inl rfl
  · exact .inr (.inl rfl)
  · unfold Compiler.placeholder at h
    rw [Yields.get_bind_iff] at h
    obtain ⟨_, u, -, hpure⟩ := Yields.bind_iff.mp h
    exact .inr (.inr ⟨_, (Yields.pure_iff.mp hpure).1⟩)

-- The piece that a token has become.
def Fills (token : RawToken) (piece : RawPiece) : Prop :=
  match token with
  | .byte c => piece = .byte c
  | .slot _ => ∃ t, piece = .term t ∧ IsBound t

def RawPiece.placeholders : RawPiece → List Text
  | .byte _ => []
  | .term t => t.placeholders

theorem placeholders_bound_append {t : Term} (h : IsBound t) {rest : Text}
    (hrest : ∀ c ∈ rest.head?, Byte.isDigit c = false) :
    Sql.placeholders (t.text ++ rest) = t.placeholders ++ Sql.placeholders rest := by
  rcases h with rfl | rfl | ⟨index, rfl⟩
  · rw [Term.placeholders_of_isCompound rfl]
    exact placeholders_append_of_not_mem (by decide) rest
  · rw [Term.placeholders_of_isCompound rfl]
    exact placeholders_append_of_not_mem (by decide) rest
  · rw [Term.placeholders, Term.text, placeholders_parameterName,
      placeholders_parameterName_append index hrest]
    rfl

-- The first byte of what a slot is filled with.
theorem head?_text_of_isBound {t : Term} (h : IsBound t) (rest : Text) {c : UInt8}
    (hc : c ∈ (t.text ++ rest).head?) : c ≠ letterP ∧ Byte.isDigit c = false := by
  rcases h with rfl | rfl | ⟨index, rfl⟩
  · have hc : c = 0x4e := (Option.some.inj hc).symm
    rw [hc]
    decide
  · have hc : c = 0x4e := (Option.some.inj hc).symm
    rw [hc]
    decide
  · have hc : c = atSign := (Option.some.inj hc).symm
    rw [hc]
    decide

-- The first byte behind, if it belongs to a placeholder, is one of the text.
theorem exists_byte_of_head? {tokens : List RawToken} {pieces : List RawPiece}
    (h : List.Forall₂ Fills tokens pieces) {c : UInt8}
    (hc : c ∈ (pieces.flatMap RawPiece.text).head?)
    (hbelongs : c = letterP ∨ Byte.isDigit c = true) :
    ∃ rest, tokens = .byte c :: rest := by
  cases h with
  | nil => cases hc
  | @cons token piece tokens pieces hfills _ =>
    cases token with
    | byte d =>
      rw [show piece = .byte d from hfills] at hc
      have hd : d = c := Option.some.inj hc
      exact ⟨tokens, by rw [hd]⟩
    | slot digits =>
      obtain ⟨t, rfl, hbound⟩ := hfills
      obtain ⟨hp, hdigit⟩ := head?_text_of_isBound hbound _ hc
      rcases hbelongs with rfl | hbelongs
      · exact absurd rfl hp
      · rw [hdigit] at hbelongs
        cases hbelongs

theorem placeholders_flatMap_text {tokens : List RawToken} {pieces : List RawPiece}
    (h : List.Forall₂ Fills tokens pieces)
    (hplain : Sql.placeholders (tokens.flatMap RawToken.source) = [])
    (hspaced : tokens.IsChain fun a b => a.meets b = false) :
    Sql.placeholders (pieces.flatMap RawPiece.text) = pieces.flatMap RawPiece.placeholders := by
  induction h with
  | nil => rfl
  | @cons token piece tokens pieces hfills hrest ih =>
    rw [List.flatMap_cons] at hplain ⊢
    rw [List.flatMap_cons]
    cases token with
    | byte c =>
      obtain ⟨hmarker, hplain⟩ := placeholders_cons_eq_nil.mp hplain
      rw [show piece = .byte c from hfills, RawPiece.text, List.singleton_append, placeholders,
        isPrefixOf_marker, if_neg, ih hplain hspaced.of_cons]
      · rfl
      · intro hfound
        simp only [Bool.and_eq_true, beq_iff_eq] at hfound
        obtain ⟨more, rfl⟩ := exists_byte_of_head? hrest hfound.2 (.inl rfl)
        rw [isPrefixOf_marker] at hmarker
        simp [hfound.1, RawToken.source] at hmarker
    | slot digits =>
      obtain ⟨t, rfl, hbound⟩ := hfills
      rw [RawPiece.text, placeholders_bound_append hbound,
        ih (placeholders_behind hplain) hspaced.of_cons]
      · rfl
      · intro c hc
        by_contra hdigit
        obtain ⟨more, rfl⟩ := exists_byte_of_head? hrest hc (.inr (by simpa using hdigit))
        have hmeets := (List.isChain_cons_cons.mp hspaced).1
        rw [RawToken.meets] at hmeets
        exact hdigit hmeets

variable {c : Compiler} {values : List Value}

theorem fills_of_fillToken (hmode : c.mode = .parameterized) {sql : Text} {token : RawToken}
    {s s' : Compiler.State} {piece : RawPiece}
    (h : Yields (fillToken c sql values token) s piece s') : Fills token piece := by
  cases token with
  | byte b => exact (Yields.pure_iff.mp h).1
  | slot digits =>
    obtain ⟨v, -, h⟩ := Yields.lift_bind_iff.mp h
    obtain ⟨t, u, ht, h⟩ := Yields.bind_iff.mp h
    exact ⟨t, (Yields.pure_iff.mp h).1, isBound_constant hmode ht⟩

theorem numbered_fillToken (hmode : c.mode = .parameterized) (sql : Text) (token : RawToken) :
    Compiler.Numbered [] (fillToken c sql values token) RawPiece.placeholders := by
  cases token with
  | byte b => exact .pure (.refl _)
  | slot digits =>
    exact .lift_bind fun v _ => .bind (Compiler.numbered_constant hmode v) fun t => .pure (.refl _)

theorem numbered_fillSlots (hmode : c.mode = .parameterized) {sql : Text} (hplain : Unmarked sql)
    (hspaced : Separated sql) :
    Compiler.Numbered [] (fillSlots c sql values)
      fun pieces => Sql.placeholders (pieces.flatMap RawPiece.text) := by
  have hsource : Sql.placeholders ((RawToken.ofText sql).flatMap RawToken.source) = [] := by
    rw [RawToken.flatMap_source_ofText]
    exact placeholders_of_unmarked hplain
  have hpieces : Compiler.Numbered [] (fillSlots c sql values)
      fun pieces => pieces.flatMap RawPiece.placeholders :=
    .mapM fun token _ => numbered_fillToken hmode sql token
  refine hpieces.congr fun s pieces s' h => ?_
  have hfills : List.Forall₂ Fills (RawToken.ofText sql) pieces :=
    Yields.forall₂_of_mapM (f := fillToken c sql values)
      (fun _ _ _ _ _ hpiece => fills_of_fillToken hmode hpiece) h
  exact placeholders_flatMap_text hfills hsource hspaced

end EntitySql.Query
