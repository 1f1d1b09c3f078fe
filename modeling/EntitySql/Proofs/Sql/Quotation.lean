import EntitySql.Proofs.Sql.Operands

-- Where the string literals of a text begin and end, and what stands outside
-- of them. A literal ends at a quote that is not doubled; behind an E, a
-- backslash also takes the byte behind it along.

namespace EntitySql.Sql.Quotation

inductive Lexeme where
  | byte (c : UInt8)
  | literal (text : Text)
  | unended (text : Text)
  deriving DecidableEq

def Lexeme.text : Lexeme → Text
  | .byte c => [c]
  | .literal t => t
  | .unended t => t

-- Outside of literals, at the start of a word or within one, or inside of a
-- literal of which the given bytes are read. A lone E is kept back: it may turn
-- out to open a literal. A quote inside is the end or the first half of a pair.
inductive Mode where
  | between
  | word
  | letterE (c : UInt8)
  | inside (escapes : Bool) (t : Text)
  | escaped (t : Text)
  | quoted (escapes : Bool) (t : Text)
  deriving DecidableEq

def Mode.finish : Mode → List Lexeme
  | .between => []
  | .word => []
  | .letterE c => [.byte c]
  | .inside _ t => [.unended t]
  | .escaped t => [.unended t]
  | .quoted _ t => [.literal t]

def dollar : UInt8 := 0x24

def isWordByte (c : UInt8) : Bool :=
  Byte.isAlphanumeric c || c == Byte.underscore || c == dollar || 0x80 ≤ c

-- The mode behind a byte outside of literals.
def behind (c : UInt8) : Mode := if isWordByte c then .word else .between

def start (c : UInt8) : List Lexeme × Mode :=
  if c = Byte.quote then ([], .inside false [c])
  else if Byte.toLower c = Scanner.letterE then ([], .letterE c)
  else ([.byte c], behind c)

def step : Mode → UInt8 → List Lexeme × Mode
  | .between, c => start c
  | .word, c => if c = Byte.quote then ([], .inside false [c]) else ([.byte c], behind c)
  | .letterE e, c =>
    if c = Byte.quote then ([], .inside true [e, c]) else ([.byte e, .byte c], behind c)
  | .inside escapes t, c =>
    if c = Byte.quote then ([], .quoted escapes (t ++ [c]))
    else if escapes && c = Byte.backslash then ([], .escaped (t ++ [c]))
    else ([], .inside escapes (t ++ [c]))
  | .escaped t, c => ([], .inside true (t ++ [c]))
  | .quoted escapes t, c =>
    if c = Byte.quote then ([], .inside escapes (t ++ [c]))
    else (.literal t :: (start c).1, (start c).2)

def lexemes : Mode → Text → List Lexeme
  | m, [] => m.finish
  | m, c :: rest => (step m c).1 ++ lexemes (step m c).2 rest

-- Two bytes outside of literals that open a comment.
def Lexeme.opensComment : Lexeme → Lexeme → Bool
  | .byte a, .byte b =>
    (a == Byte.minus && b == Byte.minus) || (a == Byte.slash && b == Byte.star)
  | _, _ => false

-- Every literal has ended, and nothing outside of the literals ends a statement
-- or hides what stands behind it.
structure Harmless (pieces : List Lexeme) : Prop where
  ended : ∀ t, .unended t ∉ pieces
  outside : ∀ c, .byte c ∈ pieces → c ≠ Byte.quote ∧ c ≠ Byte.semicolon
  uncommented : pieces.IsChain fun a b => a.opensComment b = false

-- No quote is doubled where the text goes on.
def Unquoted (rest : Text) : Prop := rest.head? ≠ some Byte.quote

def Mode.isOutside : Mode → Bool
  | .between => true
  | .word => true
  | _ => false

-- The text read from the mode, whatever follows it.
def Splits (m : Mode) (t : Text) (pieces : List Lexeme) : Prop :=
  ∃ m' : Mode, m'.isOutside = true ∧
    ∀ rest, Unquoted rest → lexemes m (t ++ rest) = pieces ++ lexemes m' rest

-- The bytes that have been read and stand in no lexeme yet.
def Mode.pending : Mode → Text
  | .between => []
  | .word => []
  | .letterE c => [c]
  | .inside _ t => t
  | .escaped t => t
  | .quoted _ t => t

theorem flatMap_text_finish (m : Mode) : m.finish.flatMap Lexeme.text = m.pending := by
  cases m <;> simp [Mode.finish, Mode.pending, Lexeme.text]

theorem pending_behind (c : UInt8) : (behind c).pending = [] := by
  unfold behind
  split <;> rfl

theorem flatMap_text_start (c : UInt8) :
    (start c).1.flatMap Lexeme.text ++ (start c).2.pending = [c] := by
  unfold start
  split
  · rfl
  · split
    · rfl
    · simp [Lexeme.text, pending_behind]

theorem flatMap_text_step (m : Mode) (c : UInt8) :
    (step m c).1.flatMap Lexeme.text ++ (step m c).2.pending = m.pending ++ [c] := by
  cases m with
  | between => exact flatMap_text_start c
  | word =>
    by_cases hc : c = Byte.quote
    · simp [step, hc, Mode.pending]
    · simp only [step, if_neg hc, pending_behind]
      rfl
  | letterE e =>
    by_cases hc : c = Byte.quote
    · simp [step, hc, Mode.pending]
    · simp only [step, if_neg hc, pending_behind]
      rfl
  | inside escapes t =>
    by_cases hc : c = Byte.quote
    · simp [step, hc, Mode.pending]
    · by_cases hescape : (escapes && c = Byte.backslash) = true
      · simp only [step, if_neg hc, if_pos hescape]
        rfl
      · simp only [step, if_neg hc, if_neg hescape]
        rfl
  | escaped t => rfl
  | quoted escapes t =>
    by_cases hc : c = Byte.quote
    · simp [step, hc, Mode.pending]
    · simp only [step, if_neg hc, List.flatMap_cons, List.append_assoc, flatMap_text_start]
      rfl

-- The lexemes are the text again.
theorem flatMap_text_lexemes (m : Mode) (t : Text) :
    (lexemes m t).flatMap Lexeme.text = m.pending ++ t := by
  induction t generalizing m with
  | nil => simp [lexemes, flatMap_text_finish]
  | cons c rest ih =>
    rw [lexemes, List.flatMap_append, ih, ← List.append_assoc, flatMap_text_step]
    simp

theorem Splits.flatMap_text {t : Text} {pieces : List Lexeme} (h : Splits .between t pieces) :
    pieces.flatMap Lexeme.text = t := by
  obtain ⟨m, hm, hrest⟩ := h
  have hpending : m.pending = [] := by
    cases m <;> first | rfl | cases hm
  have htext := congrArg (List.flatMap Lexeme.text) (hrest [] (by simp [Unquoted]))
  rw [List.flatMap_append, flatMap_text_lexemes, flatMap_text_lexemes, hpending] at htext
  simpa [Mode.pending] using htext.symm

-- Texts outside of literals.

theorem ne_quote_of_unquoted {c : UInt8} {rest : Text} (h : Unquoted (c :: rest)) :
    c ≠ Byte.quote := by
  rintro rfl
  exact h rfl

theorem unquoted_append {t rest : Text} (ht : Byte.quote ∉ t) (hrest : Unquoted rest) :
    Unquoted (t ++ rest) := by
  cases t with
  | nil => exact hrest
  | cons c t =>
    intro hc
    have hquote : c = Byte.quote := Option.some.inj hc
    exact ht (by simp [hquote])

-- A letter that has been kept back is a word of its own.
theorem lexemes_letterE (e : UInt8) {rest : Text} (hrest : Unquoted rest) :
    lexemes (.letterE e) rest = .byte e :: lexemes .word rest := by
  cases rest with
  | nil => rfl
  | cons c rest =>
    have hc := ne_quote_of_unquoted hrest
    simp [lexemes, step, hc]

-- The modes in which no literal has begun.
def Mode.begins : Mode → Bool
  | .letterE _ => true
  | m => m.isOutside

theorem begins_behind (c : UInt8) : (behind c).begins = true := by
  unfold behind
  split <;> rfl

theorem exists_lexemes_outside {m : Mode} (hm : m.begins = true) {t : Text}
    (ht : Byte.quote ∉ t) : ∃ m' : Mode, m'.isOutside = true ∧ ∀ rest, Unquoted rest →
      lexemes m (t ++ rest) = (m.pending ++ t).map .byte ++ lexemes m' rest := by
  induction t generalizing m with
  | nil =>
    cases m with
    | between => exact ⟨.between, rfl, fun _ _ => rfl⟩
    | word => exact ⟨.word, rfl, fun _ _ => rfl⟩
    | letterE e => exact ⟨.word, rfl, fun rest hrest => lexemes_letterE e hrest⟩
    | _ => cases hm
  | cons c t ih =>
    simp only [List.mem_cons, not_or] at ht
    obtain ⟨hc, ht⟩ := ht
    have hc := Ne.symm hc
    obtain ⟨next, hnext, hlexemes⟩ := ih (begins_behind c) ht
    rw [pending_behind, List.nil_append] at hlexemes
    cases m with
    | between =>
      by_cases hletter : Byte.toLower c = Scanner.letterE
      · obtain ⟨next, hnext, hlexemes⟩ := ih (m := .letterE c) rfl ht
        refine ⟨next, hnext, fun rest hrest => ?_⟩
        simpa [lexemes, step, start, hc, hletter, Mode.pending] using hlexemes rest hrest
      · refine ⟨next, hnext, fun rest hrest => ?_⟩
        simpa [lexemes, step, start, hc, hletter, Mode.pending] using hlexemes rest hrest
    | word =>
      refine ⟨next, hnext, fun rest hrest => ?_⟩
      simpa [lexemes, step, hc, Mode.pending] using hlexemes rest hrest
    | letterE e =>
      refine ⟨next, hnext, fun rest hrest => ?_⟩
      simpa [lexemes, step, hc, Mode.pending] using hlexemes rest hrest
    | _ => cases hm

theorem splits_outside {m : Mode} (hm : m.isOutside = true) {t : Text} (ht : Byte.quote ∉ t) :
    Splits m t (t.map .byte) := by
  cases m with
  | between => exact exists_lexemes_outside rfl ht
  | word => exact exists_lexemes_outside rfl ht
  | _ => cases hm

theorem Splits.append {a b : Text} {pieces more : List Lexeme} {m : Mode} (ha : Splits m a pieces)
    (hb : ∀ m' : Mode, m'.isOutside = true → Splits m' b more)
    (hunquoted : ∀ rest, Unquoted rest → Unquoted (b ++ rest)) :
    Splits m (a ++ b) (pieces ++ more) := by
  obtain ⟨m', hm', hfirst⟩ := ha
  obtain ⟨m'', hm'', hsecond⟩ := hb m' hm'
  refine ⟨m'', hm'', fun rest hrest => ?_⟩
  rw [List.append_assoc, hfirst _ (hunquoted rest hrest), hsecond rest hrest, List.append_assoc]

-- Literals.

theorem lexemes_inside {escapes : Bool} {c : UInt8} (h : escapes = true ∨ escapeLetter? c = none)
    (t rest : Text) : lexemes (.inside escapes t) (literalByte c ++ rest) =
      lexemes (.inside escapes (t ++ literalByte c)) rest := by
  unfold literalByte
  by_cases hquote : c = Byte.quote
  · simp [hquote, lexemes, step]
  · rw [if_neg hquote]
    cases hletter : escapeLetter? c with
    | none =>
      have hbackslash : c ≠ Byte.backslash := by
        rintro rfl
        exact absurd hletter (by decide)
      simp [lexemes, step, hquote, hbackslash]
    | some letter =>
      have hescapes : escapes = true := h.resolve_right (by simp [hletter])
      have hne : Byte.backslash ≠ Byte.quote := by decide
      simp [hescapes, lexemes, step, hne]

theorem lexemes_inside_flatMap {escapes : Bool} {s : Text}
    (h : escapes = true ∨ ∀ c ∈ s, escapeLetter? c = none) (t rest : Text) :
    lexemes (.inside escapes t) (s.flatMap literalByte ++ rest) =
      lexemes (.inside escapes (t ++ s.flatMap literalByte)) rest := by
  induction s generalizing t with
  | nil => simp
  | cons c s ih =>
    have hc := h.imp_right fun hall => hall c (by simp)
    have hs := h.imp_right fun hall d hd => hall d (List.mem_cons_of_mem c hd)
    rw [List.flatMap_cons, List.append_assoc, lexemes_inside hc, ih hs, List.append_assoc]

-- Without escapes, a backslash inside is a byte like any other.
theorem lexemes_inside_plain {body : Text} (h : Byte.quote ∉ body) (t rest : Text) :
    lexemes (.inside false t) (body ++ rest) = lexemes (.inside false (t ++ body)) rest := by
  induction body generalizing t with
  | nil => simp
  | cons c body ih =>
    simp only [List.mem_cons, not_or] at h
    obtain ⟨hc, hbody⟩ := h
    have hstep : lexemes (.inside false t) (c :: (body ++ rest)) =
        lexemes (.inside false (t ++ [c])) (body ++ rest) := by
      simp [lexemes, step, Ne.symm hc]
    rw [List.cons_append, hstep, ih hbody]
    simp

-- What has been read ends at the quote, since no second one follows.
theorem lexemes_closing (escapes : Bool) (t : Text) {rest : Text} (hrest : Unquoted rest) :
    lexemes (.inside escapes t) (Byte.quote :: rest) =
      .literal (t ++ [Byte.quote]) :: lexemes .between rest := by
  cases rest with
  | nil => simp [lexemes, step, Mode.finish]
  | cons c rest =>
    have hc := ne_quote_of_unquoted hrest
    simp [lexemes, step, hc]

theorem lexemes_stringLiteral {s t : Text} (h : stringLiteral s = .ok t) {rest : Text}
    (hrest : Unquoted rest) :
    lexemes .between (t ++ rest) = .literal t :: lexemes .between rest := by
  unfold stringLiteral at h
  split at h
  · cases h
  · cases h
    by_cases hany : s.any fun c => (escapeLetter? c).isSome
    · have hopening : lexemes .between (("E'" : Text) ++
          (s.flatMap literalByte ++ Byte.quote :: rest)) =
          lexemes (.inside true "E'") (s.flatMap literalByte ++ Byte.quote :: rest) := rfl
      rw [if_pos hany, List.append_assoc, List.append_assoc, List.singleton_append, hopening,
        lexemes_inside_flatMap (.inl rfl), lexemes_closing _ _ hrest]
    · have hopening : lexemes .between (("'" : Text) ++
          (s.flatMap literalByte ++ Byte.quote :: rest)) =
          lexemes (.inside false "'") (s.flatMap literalByte ++ Byte.quote :: rest) := rfl
      have hall : ∀ c ∈ s, escapeLetter? c = none := by simpa using hany
      rw [if_neg hany, List.append_assoc, List.append_assoc, List.singleton_append, hopening,
        lexemes_inside_flatMap (.inr hall), lexemes_closing _ _ hrest]

theorem splits_stringLiteral {s t : Text} (h : stringLiteral s = .ok t) :
    Splits .between t [.literal t] :=
  ⟨.between, rfl, fun _ hrest => lexemes_stringLiteral h hrest⟩

theorem splits_unescaped {body : Text} (h : Byte.quote ∉ body) :
    Splits .between (("'" : Text) ++ body ++ [Byte.quote])
      [.literal (("'" : Text) ++ body ++ [Byte.quote])] := by
  refine ⟨.between, rfl, fun rest hrest => ?_⟩
  have hopening : lexemes .between (("'" : Text) ++ (body ++ Byte.quote :: rest)) =
      lexemes (.inside false "'") (body ++ Byte.quote :: rest) := rfl
  rw [List.append_assoc, List.append_assoc, List.singleton_append, hopening,
    lexemes_inside_plain h, lexemes_closing _ _ hrest]
  rfl

end EntitySql.Sql.Quotation
