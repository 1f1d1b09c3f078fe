import EntitySql.Proofs.Query.Statements
import EntitySql.Proofs.Text.Span
import EntitySql.Query.Statement

-- The slots of hand-written SQL. A text is split into slots and other bytes in one
-- way only, and filling the slots replaces each of them by its value and nothing
-- else; what the values are written as is not split again.

namespace EntitySql.Query

open EntitySql.Sql (Binding Compiler Term literal parameterName)

namespace RawToken

-- A slot begins the text.
def BeginsSlot (t : Text) : Prop :=
  ∃ digits rest, digits ≠ [] ∧ (∀ c ∈ digits, Byte.isDigit c = true) ∧
    t = Byte.openBrace :: (digits ++ Byte.closeBrace :: rest)

-- From left to right: a slot wherever one begins, and else a byte.
inductive Splits : Text → List RawToken → Prop where
  | nil : Splits [] []
  | slot {digits rest : Text} {tokens : List RawToken} (hne : digits ≠ [])
      (hdigits : ∀ c ∈ digits, Byte.isDigit c = true) (h : Splits rest tokens) :
      Splits (Byte.openBrace :: (digits ++ Byte.closeBrace :: rest)) (.slot digits :: tokens)
  | byte {c : UInt8} {rest : Text} {tokens : List RawToken} (hnone : ¬BeginsSlot (c :: rest))
      (h : Splits rest tokens) : Splits (c :: rest) (.byte c :: tokens)

-- The digits in front of another byte are those of the text.
theorem eq_of_digits {digits digits' rest rest' : Text} {c c' : UInt8}
    (hdigits : ∀ d ∈ digits, Byte.isDigit d = true) (hdigits' : ∀ d ∈ digits', Byte.isDigit d = true)
    (hc : Byte.isDigit c = false) (hc' : Byte.isDigit c' = false)
    (h : digits ++ c :: rest = digits' ++ c' :: rest') : digits = digits' ∧ c = c' ∧ rest = rest' := by
  have hfirst : (digits ++ c :: rest).takeWhile Byte.isDigit = digits :=
    Text.takeWhile_append_of_stop hdigits (by simpa using hc)
  have hsecond : (digits' ++ c' :: rest').takeWhile Byte.isDigit = digits' :=
    Text.takeWhile_append_of_stop hdigits' (by simpa using hc')
  have heq : digits = digits' := by rw [← hfirst, ← hsecond, h]
  subst heq
  exact ⟨rfl, List.cons.inj (List.append_cancel_left h)⟩

-- Digits behind an opening brace, and then a byte that does not make them a slot.
theorem not_beginsSlot {digits rest : Text} {c : UInt8}
    (hdigits : ∀ d ∈ digits, Byte.isDigit d = true) (hc : Byte.isDigit c = false)
    (hclose : c = Byte.closeBrace → digits = []) :
    ¬BeginsSlot (Byte.openBrace :: (digits ++ c :: rest)) := by
  rintro ⟨digits', rest', hne, hdigits', heq⟩
  obtain ⟨rfl, rfl, -⟩ := eq_of_digits hdigits hdigits' hc rfl (List.cons.inj heq).2
  exact hne (hclose rfl)

theorem not_beginsSlot_of_ne {c : UInt8} (hc : c ≠ Byte.openBrace) (rest : Text) :
    ¬BeginsSlot (c :: rest) := by
  rintro ⟨digits, rest', -, -, heq⟩
  exact hc (List.cons.inj heq).1

-- What has been begun as a slot and is none is split into its bytes.
theorem splits_abandoned {digits rest : Text} {tokens : List RawToken}
    (hdigits : ∀ d ∈ digits, Byte.isDigit d = true)
    (hnone : ¬BeginsSlot (Byte.openBrace :: (digits ++ rest))) (h : Splits rest tokens) :
    Splits (Byte.openBrace :: (digits ++ rest)) (abandoned digits ++ tokens) := by
  refine .byte hnone ?_
  clear hnone
  induction digits with
  | nil => exact h
  | cons d digits ih =>
    obtain ⟨hd, hdigits⟩ := List.forall_mem_cons.mp hdigits
    refine .byte (not_beginsSlot_of_ne ?_ _) (ih hdigits)
    rintro rfl
    cases hd

-- Behind the digits of what has been begun as a slot comes another byte.
theorem splits_ended {digits rest : Text} {c : UInt8}
    (hdigits : ∀ d ∈ digits, Byte.isDigit d = true) (hc : Byte.isDigit c = false)
    (houtside : Splits rest (scan none rest))
    (hinside : Splits (Byte.openBrace :: rest) (scan (some []) rest)) :
    Splits (Byte.openBrace :: (digits ++ c :: rest)) (scan (some digits) (c :: rest)) := by
  rw [scan, if_neg (by simp [hc])]
  by_cases hclose : (c = Byte.closeBrace && !digits.isEmpty) = true
  · rw [if_pos hclose]
    simp only [Bool.and_eq_true, decide_eq_true_eq, Bool.not_eq_true', List.isEmpty_eq_false_iff]
      at hclose
    rw [hclose.1]
    exact .slot hclose.2 hdigits houtside
  · rw [if_neg hclose]
    have hnone : ¬BeginsSlot (Byte.openBrace :: (digits ++ c :: rest)) := by
      refine not_beginsSlot hdigits hc fun hc => ?_
      simpa [hc] using hclose
    by_cases hopen : c = Byte.openBrace
    · rw [if_pos hopen]
      subst hopen
      exact splits_abandoned hdigits hnone hinside
    · rw [if_neg hopen]
      exact splits_abandoned hdigits hnone (.byte (not_beginsSlot_of_ne hopen rest) houtside)

-- By induction on the text, outside of a slot and inside.
theorem splits_scan (t : Text) : Splits t (scan none t) ∧
    ∀ digits, (∀ d ∈ digits, Byte.isDigit d = true) →
      Splits (Byte.openBrace :: (digits ++ t)) (scan (some digits) t) := by
  induction t with
  | nil =>
    refine ⟨.nil, fun digits hdigits => ?_⟩
    rw [scan, ← List.append_nil (abandoned digits)]
    refine splits_abandoned hdigits ?_ .nil
    rintro ⟨digits', rest', -, -, heq⟩
    have hmem : Byte.closeBrace ∈ digits := by
      rw [List.append_nil] at heq
      rw [(List.cons.inj heq).2]
      simp
    cases hdigits _ hmem
  | cons c rest ih =>
    obtain ⟨houtside, hinside⟩ := ih
    refine ⟨?_, fun digits hdigits => ?_⟩
    · rw [scan]
      by_cases hopen : c = Byte.openBrace
      · rw [if_pos hopen, hopen]
        exact hinside [] (by simp)
      · rw [if_neg hopen]
        exact .byte (not_beginsSlot_of_ne hopen rest) houtside
    · by_cases hdigit : Byte.isDigit c = true
      · rw [scan, if_pos hdigit, List.append_cons]
        refine hinside (digits ++ [c]) fun d hd => ?_
        rcases List.mem_append.mp hd with hd | hd
        · exact hdigits d hd
        · rwa [List.mem_singleton.mp hd]
      · exact splits_ended hdigits (by simpa using hdigit) houtside (hinside [] (by simp))

theorem Splits.unique {t : Text} {tokens tokens' : List RawToken} (h : Splits t tokens)
    (h' : Splits t tokens') : tokens = tokens' := by
  induction h generalizing tokens' with
  | nil =>
    cases h'
    rfl
  | @slot digits rest tokens hne hdigits _ ih =>
    generalize ht : Byte.openBrace :: (digits ++ Byte.closeBrace :: rest) = t at h'
    cases h' with
    | nil => cases ht
    | @slot digits' rest' tokens' hne' hdigits' h' =>
      obtain ⟨rfl, -, rfl⟩ := eq_of_digits hdigits hdigits' rfl rfl (List.cons.inj ht).2
      rw [ih h']
    | byte hnone h' => exact absurd ⟨digits, rest, hne, hdigits, ht.symm⟩ hnone
  | @byte c rest tokens hnone _ ih =>
    generalize ht : c :: rest = t at h'
    cases h' with
    | nil => cases ht
    | slot hne' hdigits' h' => exact absurd ⟨_, _, hne', hdigits', ht⟩ hnone
    | byte hnone' h' =>
      obtain ⟨rfl, rfl⟩ := List.cons.inj ht
      rw [ih h']

theorem Splits.ofText_eq {t : Text} {tokens : List RawToken} (h : Splits t tokens) :
    ofText t = tokens :=
  (splits_scan t).1.unique h

end RawToken

-- Values.

section Values

variable {c : Compiler} {v : Value} {s u : Compiler.State} {t : Term}

-- NULL and the current time have words of their own, in either mode.
def binds (c : Compiler) (v : Value) : Bool :=
  decide (c.mode = .parameterized) && !v.isNull && !c.isCurrent v

-- How a value is written where `n` values have been bound before it.
def valueText (c : Compiler) (n : Nat) (v : Value) : Text :=
  if v.isNull then "NULL"
  else if c.isCurrent v then Sql.currentTimestamp
  else match c.mode with
    | .literal => (literal v).toOption.getD []
    | .parameterized => parameterName n

-- Every value can be bound; not every one has a literal.
def Formattable (c : Compiler) (v : Value) : Prop := c.mode = .literal → ∃ sql, literal v = .ok sql

-- The values as they are bound in order behind `n` others.
def numbered (n : Nat) (values : List Value) : List Binding :=
  (values.zipIdx n).map fun p => ⟨parameterName p.2, p.1⟩

-- The four ways to compile a constant.

theorem constant_null (hnull : v.isNull = true) : c.constant v = pure .null := by
  rw [Compiler.constant, if_pos hnull]

theorem constant_current (hnull : v.isNull = false) (hcurrent : c.isCurrent v = true) :
    c.constant v = pure .currentTimestamp := by
  rw [Compiler.constant, if_neg (by simp [hnull]), if_pos hcurrent]

theorem constant_literal (hnull : v.isNull = false) (hcurrent : c.isCurrent v = false)
    (hmode : c.mode = .literal) :
    c.constant v = (do return .value (← (liftM (literal v) : Compiler.Step Text))) := by
  rw [Compiler.constant, if_neg (by simp [hnull]), if_neg (by simp [hcurrent]), hmode]

theorem constant_parameterized (hnull : v.isNull = false) (hcurrent : c.isCurrent v = false)
    (hmode : c.mode = .parameterized) : c.constant v = Compiler.placeholder v := by
  rw [Compiler.constant, if_neg (by simp [hnull]), if_neg (by simp [hcurrent]), hmode]

-- NULL and timestamps have literals, so the modes differ in no other value.
theorem exists_literal (h : v.isNull = true ∨ c.isCurrent v = true) : ∃ sql, literal v = .ok sql := by
  cases v with
  | null => exact ⟨_, rfl⟩
  | timestamp t => exact ⟨_, rfl⟩
  | _ => simp [Value.isNull, Compiler.isCurrent] at h

theorem exists_constant_iff : (∃ t u, Yields (c.constant v) s t u) ↔ Formattable c v := by
  cases hnull : v.isNull with
  | true =>
    rw [constant_null hnull]
    exact ⟨fun _ _ => exists_literal (c := c) (.inl hnull), fun _ => ⟨_, _, rfl⟩⟩
  | false =>
    cases hcurrent : c.isCurrent v with
    | true =>
      rw [constant_current hnull hcurrent]
      exact ⟨fun _ _ => exists_literal (.inr hcurrent), fun _ => ⟨_, _, rfl⟩⟩
    | false =>
      cases hmode : c.mode with
      | literal =>
        simp only [constant_literal hnull hcurrent hmode, Yields.lift_bind_iff, Yields.pure_iff]
        constructor
        · rintro ⟨t, u, sql, hsql, -⟩ -
          exact ⟨sql, hsql⟩
        · intro h
          obtain ⟨sql, hsql⟩ := h hmode
          exact ⟨_, _, sql, hsql, rfl, rfl⟩
      | parameterized =>
        rw [constant_parameterized hnull hcurrent hmode]
        refine ⟨fun _ h => ?_, fun _ => ⟨_, _, rfl⟩⟩
        rw [hmode] at h
        cases h

theorem constant_eq (h : Yields (c.constant v) s t u) :
    t.text = valueText c s.bindings.length v ∧
      u = { s with
        bindings := s.bindings ++ numbered s.bindings.length ([v].filter (binds c)) } := by
  unfold valueText
  cases hnull : v.isNull with
  | true =>
    rw [constant_null hnull, Yields.pure_iff] at h
    obtain ⟨rfl, rfl⟩ := h
    simp [binds, hnull, numbered, Term.text]
  | false =>
    cases hcurrent : c.isCurrent v with
    | true =>
      rw [constant_current hnull hcurrent, Yields.pure_iff] at h
      obtain ⟨rfl, rfl⟩ := h
      simp [binds, hcurrent, numbered, Term.text]
    | false =>
      cases hmode : c.mode with
      | literal =>
        rw [constant_literal hnull hcurrent hmode, Yields.lift_bind_iff] at h
        obtain ⟨sql, hsql, h⟩ := h
        obtain ⟨rfl, rfl⟩ := Yields.pure_iff.mp h
        simp [binds, hmode, hsql, numbered, Term.text, Except.toOption]
      | parameterized =>
        rw [constant_parameterized hnull hcurrent hmode] at h
        obtain ⟨rfl, rfl⟩ := h.unique (Compiler.yields_placeholder v s)
        simp [binds, hnull, hcurrent, hmode, numbered, Term.text, Compiler.State.push]

end Values

-- Tokens.

def slotValues (values : List Value) (tokens : List RawToken) : List Value :=
  tokens.filterMap fun
    | .byte _ => none
    | .slot digits => values[Text.digitsValue digits]?

-- The tokens with a value for each slot, where `n` values have been bound before.
def substituted (c : Compiler) (values : List Value) (n : Nat) : List RawToken → Text
  | [] => []
  | .byte b :: rest => b :: substituted c values n rest
  | .slot digits :: rest =>
    match values[Text.digitsValue digits]? with
    | none => substituted c values n rest
    | some v => valueText c n v ++ substituted c values (if binds c v then n + 1 else n) rest

theorem numbered_append (n : Nat) (values more : List Value) :
    numbered n (values ++ more) = numbered n values ++ numbered (n + values.length) more := by
  rw [numbered, List.zipIdx_append, List.map_append]
  rfl

section Tokens

variable {c : Compiler} {sql digits : Text} {values : List Value} {tokens : List RawToken}
  {s u : Compiler.State} {piece : RawPiece} {pieces : List RawPiece}
  (hcount : values.length ≤ Nat.pow 2 64)

include hcount

theorem slotValue_eq_ok {v : Value} :
    slotValue sql values digits = .ok v ↔ values[Text.digitsValue digits]? = some v := by
  unfold slotValue
  dsimp only
  by_cases hlarge : Nat.pow 2 64 ≤ Text.digitsValue digits
  · rw [if_pos hlarge, List.getElem?_eq_none (hcount.trans hlarge)]
    simp
  · rw [if_neg hlarge]
    cases values[Text.digitsValue digits]? <;> simp

theorem yields_slot_iff : Yields (fillToken c sql values (.slot digits)) s piece u ↔
    ∃ v t, values[Text.digitsValue digits]? = some v ∧ Yields (c.constant v) s t u ∧
      piece = .term t := by
  rw [fillToken, Yields.lift_bind_iff]
  simp only [slotValue_eq_ok hcount, Yields.bind_iff, Yields.pure_iff]
  constructor
  · rintro ⟨v, hv, t, m, ht, rfl, rfl⟩
    exact ⟨v, t, hv, ht, rfl⟩
  · rintro ⟨v, t, hv, ht, rfl⟩
    exact ⟨v, hv, t, u, ht, rfl, rfl⟩

-- By induction on the tokens, each of which is filled from the state that those
-- before it have left.
theorem eq_of_fillTokens (h : Yields (tokens.mapM (fillToken c sql values)) s pieces u) :
    pieces.flatMap RawPiece.text = substituted c values s.bindings.length tokens ∧
      u = { s with
        bindings := s.bindings ++
          numbered s.bindings.length ((slotValues values tokens).filter (binds c)) } := by
  induction tokens generalizing s pieces with
  | nil =>
    obtain ⟨rfl, rfl⟩ := Yields.pure_iff.mp h
    simp [substituted, slotValues, numbered]
  | cons token rest ih =>
    rw [List.mapM_cons] at h
    obtain ⟨piece, m, hpiece, h⟩ := Yields.bind_iff.mp h
    obtain ⟨more, u', hmore, h⟩ := Yields.bind_iff.mp h
    obtain ⟨rfl, rfl⟩ := Yields.pure_iff.mp h
    obtain ⟨htext, hstate⟩ := ih hmore
    rw [List.flatMap_cons, htext]
    cases token with
    | byte b =>
      obtain ⟨rfl, rfl⟩ := Yields.pure_iff.mp hpiece
      exact ⟨rfl, hstate⟩
    | slot digits =>
      obtain ⟨v, t, hv, ht, rfl⟩ := (yields_slot_iff hcount).mp hpiece
      obtain ⟨hterm, rfl⟩ := constant_eq ht
      have hvalues : slotValues values (.slot digits :: rest) = v :: slotValues values rest :=
        List.filterMap_cons_some hv
      rw [substituted, hv, hvalues, hstate, RawPiece.text, hterm]
      cases hbinds : binds c v with
      | false => simp [hbinds, numbered]
      | true =>
        have hlength : (numbered s.bindings.length [v]).length = 1 := rfl
        simp [hbinds, hlength]
        exact (numbered_append _ [v] _).symm

theorem exists_fillToken_iff {token : RawToken} :
    (∃ piece u, Yields (fillToken c sql values token) s piece u) ↔
      ∀ digits, token = .slot digits →
        ∃ v, values[Text.digitsValue digits]? = some v ∧ Formattable c v := by
  cases token with
  | byte b => exact ⟨by simp, fun _ => ⟨_, _, rfl⟩⟩
  | slot digits =>
    simp only [yields_slot_iff hcount, RawToken.slot.injEq, forall_eq']
    constructor
    · rintro ⟨piece, u, v, t, hv, ht, -⟩
      exact ⟨v, hv, exists_constant_iff.mp ⟨t, u, ht⟩⟩
    · rintro ⟨v, hv, hformattable⟩
      obtain ⟨t, u, ht⟩ := exists_constant_iff.mpr hformattable
      exact ⟨_, u, v, t, hv, ht, rfl⟩

theorem exists_fillTokens_iff :
    (∃ pieces u, Yields (tokens.mapM (fillToken c sql values)) s pieces u) ↔
      ∀ digits, .slot digits ∈ tokens →
        ∃ v, values[Text.digitsValue digits]? = some v ∧ Formattable c v := by
  induction tokens generalizing s with
  | nil => exact ⟨by simp, fun _ => ⟨[], s, rfl⟩⟩
  | cons token rest ih =>
    have hsteps : (∃ pieces u, Yields ((token :: rest).mapM (fillToken c sql values)) s pieces u) ↔
        (∃ piece m, Yields (fillToken c sql values token) s piece m ∧
          ∃ more u, Yields (rest.mapM (fillToken c sql values)) m more u) := by
      simp only [List.mapM_cons, Yields.bind_iff, Yields.pure_iff]
      constructor
      · rintro ⟨_, _, piece, m, hpiece, more, u, hmore, -⟩
        exact ⟨piece, m, hpiece, more, u, hmore⟩
      · rintro ⟨piece, m, hpiece, more, u, hmore⟩
        exact ⟨_, _, piece, m, hpiece, more, u, hmore, rfl, rfl⟩
    simp only [hsteps, ih, exists_and_right]
    rw [exists_fillToken_iff hcount]
    constructor
    · rintro ⟨hfirst, hrest⟩ digits hmem
      rcases List.mem_cons.mp hmem with heq | hmem
      · exact hfirst digits heq.symm
      · exact hrest digits hmem
    · intro h
      exact ⟨fun digits heq => h digits (heq ▸ List.mem_cons_self),
        fun digits hmem => h digits (List.mem_cons_of_mem _ hmem)⟩

end Tokens

-- The filter of a hand-written condition.

variable {services : Services} {env : Environment} {clauses : Clauses} {c : Compiler} {sql : Text}
  {values : List Value} {tokens : List RawToken}

theorem yields_raw_iff {s u : Compiler.State} {f : Filter Select} :
    Yields (filter services env clauses c (.raw sql values)) s f u ↔
      ∃ pieces, Yields (fillSlots c sql values) s pieces u ∧ f = .raw pieces := by
  rw [filter, Yields.bind_iff]
  simp only [Yields.pure_iff]
  constructor
  · rintro ⟨pieces, m, hpieces, rfl, rfl⟩
    exact ⟨pieces, hpieces, rfl⟩
  · rintro ⟨pieces, hpieces, rfl⟩
    exact ⟨pieces, u, hpieces, rfl, rfl⟩

-- A text has one split. Its condition is compiled exactly if every slot names a
-- value that can be written, and then it is the text with these values in place of
-- the slots, in parentheses. The values that are bound are those of the slots from
-- left to right.
theorem substitutes_slots (hcount : values.length ≤ Nat.pow 2 64) (s : Compiler.State) :
    (∃ tokens, RawToken.Splits sql tokens) ∧ ∀ tokens, RawToken.Splits sql tokens →
      ((∃ f u, Yields (filter services env clauses c (.raw sql values)) s f u) ↔
        ∀ digits, .slot digits ∈ tokens → Text.digitsValue digits < values.length ∧
          ∀ v ∈ values[Text.digitsValue digits]?, Formattable c v) ∧
      ∀ f u, Yields (filter services env clauses c (.raw sql values)) s f u →
        Select.filterText f = "(" ++ substituted c values s.bindings.length tokens ++ ")" ∧
          u = { s with
            bindings := s.bindings ++
              numbered s.bindings.length ((slotValues values tokens).filter (binds c)) } := by
  refine ⟨⟨_, (RawToken.splits_scan sql).1⟩, fun tokens hsplits => ?_⟩
  have htokens : fillSlots c sql values = tokens.mapM (fillToken c sql values) := by
    rw [fillSlots, hsplits.ofText_eq]
  simp only [yields_raw_iff, htokens]
  have hfilled : (∃ pieces u, Yields (tokens.mapM (fillToken c sql values)) s pieces u) ↔ _ :=
    exists_fillTokens_iff hcount
  refine ⟨⟨?_, fun h => ?_⟩, ?_⟩
  · rintro ⟨_, u, pieces, hpieces, -⟩ digits hmem
    obtain ⟨v, hv, hformattable⟩ := hfilled.mp ⟨pieces, u, hpieces⟩ digits hmem
    rw [hv]
    exact ⟨(List.getElem?_eq_some_iff.mp hv).1, by simpa using hformattable⟩
  · have hvalues : ∀ digits, .slot digits ∈ tokens →
        ∃ v, values[Text.digitsValue digits]? = some v ∧ Formattable c v := by
      intro digits hmem
      obtain ⟨hlt, hformattable⟩ := h digits hmem
      have hv := List.getElem?_eq_getElem hlt
      exact ⟨_, hv, hformattable _ hv⟩
    obtain ⟨pieces, u, hpieces⟩ := hfilled.mpr hvalues
    exact ⟨_, u, pieces, hpieces, rfl⟩
  · rintro f u ⟨pieces, hpieces, rfl⟩
    obtain ⟨htext, hstate⟩ := eq_of_fillTokens hcount hpieces
    rw [Select.filterText, htext]
    exact ⟨rfl, hstate⟩

-- Slots behind and between other braces, and a value that reads as a slot.
def bracedText : Text := "\x7bx\x7b1\x7d\x7b\x7d\x7b\x7b00\x7d\x7b1\x7d\x7b0"

def bracedValues : List Value := [.string "\x7b1\x7d", .int 7]

def companyCompiler (mode : Sql.Mode) : Compiler :=
  { readServices with mode := mode }.compiler readEnvironment Catalogue.companyEntity none

theorem substitutes_slots_bracedText : bracedValues.length ≤ Nat.pow 2 64 ∧
    (∃ f u, Yields (filter readServices readEnvironment { root := Catalogue.companyEntity }
        (companyCompiler .parameterized) (.raw bracedText bracedValues)) {} f u ∧
      Select.filterText f = "(\x7bx@p0\x7b\x7d\x7b@p1@p2\x7b0)" ∧
      u.bindings = [⟨"@p0", .int 7⟩, ⟨"@p1", .string "\x7b1\x7d"⟩, ⟨"@p2", .int 7⟩]) ∧
    ∃ f u, Yields (filter readServices readEnvironment { root := Catalogue.companyEntity }
        (companyCompiler .literal) (.raw bracedText bracedValues)) {} f u ∧
      Select.filterText f = "(\x7bx7\x7b\x7d\x7b'\x7b1\x7d'7\x7b0)" ∧ u.bindings = [] := by
  have hcount : bracedValues.length ≤ Nat.pow 2 64 := by decide
  have hsplits := (RawToken.splits_scan bracedText).1
  have hnamed : ∀ mode digits, .slot digits ∈ RawToken.scan none bracedText →
      Text.digitsValue digits < bracedValues.length ∧
        ∀ v ∈ bracedValues[Text.digitsValue digits]?, Formattable (companyCompiler mode) v := by
    intro mode digits hmem
    have hslots : ∀ t ∈ RawToken.scan none bracedText,
        (∃ b, t = .byte b) ∨ t = .slot "1" ∨ t = .slot "00" := by
      have hscan : RawToken.scan none bracedText = [.byte 0x7b, .byte 0x78, .slot "1",
          .byte 0x7b, .byte 0x7d, .byte 0x7b, .slot "00", .slot "1", .byte 0x7b, .byte 0x30] := by
        decide
      rw [hscan]
      simp
    have hdigits : digits = "1" ∨ digits = "00" := by
      simpa using hslots _ hmem
    rcases hdigits with rfl | rfl
    · refine ⟨by decide, fun v hv _ => ?_⟩
      cases hv
      exact ⟨_, rfl⟩
    · refine ⟨by decide, fun v hv _ => ?_⟩
      cases hv
      exact ⟨_, rfl⟩
  have hfilled (mode : Sql.Mode) := (@substitutes_slots readServices readEnvironment
    { root := Catalogue.companyEntity } (companyCompiler mode) bracedText bracedValues hcount
    {}).2 _ hsplits
  refine ⟨hcount, ?_, ?_⟩
  · obtain ⟨f, u, hyields⟩ := (hfilled .parameterized).1.mpr (hnamed .parameterized)
    obtain ⟨htext, hstate⟩ := (hfilled .parameterized).2 f u hyields
    refine ⟨f, u, hyields, htext.trans (by decide), ?_⟩
    rw [hstate]
    rfl
  · obtain ⟨f, u, hyields⟩ := (hfilled .literal).1.mpr (hnamed .literal)
    obtain ⟨htext, hstate⟩ := (hfilled .literal).2 f u hyields
    refine ⟨f, u, hyields, htext.trans (by decide), ?_⟩
    rw [hstate]
    rfl

-- NULL and the current time are written without a parameter, and a value that no
-- slot names may be one that cannot be written.
theorem unbound_and_unnamed_values :
    Yields (filter readServices readEnvironment { root := Catalogue.companyEntity }
        (companyCompiler .parameterized) (.raw "\x7b0\x7d" [.null])) {} (.raw [.term .null]) {} ∧
    Select.filterText (.raw [.term .null]) = "(NULL)" ∧
    Yields (filter readServices readEnvironment { root := Catalogue.companyEntity }
        (companyCompiler .parameterized) (.raw "\x7b0\x7d" [.timestamp ⟨0, true, 0⟩])) {}
      (.raw [.term .currentTimestamp]) {} ∧
    Select.filterText (.raw [.term .currentTimestamp]) = "(NOW())" ∧
    literal (.string [Byte.nul]) = .error (.conversion .nulInLiteral) ∧
    ∃ f, Yields (filter readServices readEnvironment { root := Catalogue.companyEntity }
        (companyCompiler .literal) (.raw "TRUE" [.string [Byte.nul]])) {} f {} ∧
      Select.filterText f = "(TRUE)" :=
  ⟨rfl, by decide, rfl, by decide, rfl, _, rfl, by decide⟩

end EntitySql.Query
