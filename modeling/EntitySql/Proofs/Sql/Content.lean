import EntitySql.Proofs.Sql.Quotation

-- What string literals stand for. Between plain quotes only a doubled quote is
-- more than itself; behind an E, a backslash and the byte behind it stand for
-- one byte. The content of a literal is the text that it was made from, but for
-- vertical tabs: the server knows no escape for them.

namespace EntitySql.Sql.Quotation

-- The letters that open escapes of several digits.
def opensNumber (letter : UInt8) : Bool :=
  letter == 0x6f || letter == 0x78 || letter == 0x75 || letter == 0x55

-- The byte that a letter behind a backslash stands for. Most letters stand for
-- themselves.
def unescaped? (letter : UInt8) : Option UInt8 :=
  if letter = Byte.backslash then some Byte.backslash
  else if letter = 0x62 then some Byte.backspace
  else if letter = 0x66 then some Byte.formFeed
  else if letter = 0x6e then some Byte.lineFeed
  else if letter = 0x72 then some Byte.carriageReturn
  else if letter = 0x74 then some Byte.tab
  else if Byte.isLetter letter && !opensNumber letter then some letter
  else none

-- What stands before the closing quote. The literal is all of the text, so
-- nothing stands behind that quote.
def inner? (escapes : Bool) : Text → Option Text
  | [] => none
  | [c] => if c = Byte.quote then some [] else none
  | c :: d :: rest =>
    if c = Byte.quote then
      if d = Byte.quote then (inner? escapes rest).map (Byte.quote :: ·) else none
    else if escapes && c = Byte.backslash then do
      let byte ← unescaped? d
      let content ← inner? escapes rest
      return byte :: content
    else (inner? escapes (d :: rest)).map (c :: ·)

def content? : Text → Option Text
  | [] => none
  | c :: rest =>
    if c = Byte.quote then inner? false rest
    else if Byte.toLower c = Scanner.letterE ∧ rest.head? = some Byte.quote then
      inner? true rest.tail
    else none

-- A vertical tab is written as a backslash and the letter v.
def readBack (c : UInt8) : UInt8 := if c = Byte.verticalTab then 0x76 else c

theorem unescaped?_of_escapeLetter? {c letter : UInt8} (h : escapeLetter? c = some letter) :
    unescaped? letter = some (readBack c) := by
  have hall : ∀ c : UInt8, (escapeLetter? c).all (unescaped? · == some (readBack c)) = true :=
    forall_byte (by decide +kernel)
  have hc := hall c
  rw [h] at hc
  simpa using hc

theorem readBack_of_escapeLetter? {c : UInt8} (h : escapeLetter? c = none) : readBack c = c := by
  have hc : c ≠ Byte.verticalTab := by
    rintro rfl
    exact absurd h (by decide)
  exact if_neg hc

-- One byte of a text at a time.
theorem inner?_literalByte {escapes : Bool} {c : UInt8}
    (h : escapes = true ∨ escapeLetter? c = none) (rest : Text) :
    inner? escapes (literalByte c ++ rest) = (inner? escapes rest).map (readBack c :: ·) := by
  unfold literalByte
  by_cases hquote : c = Byte.quote
  · subst hquote
    rfl
  rw [if_neg hquote]
  cases hletter : escapeLetter? c with
  | none =>
    have hbackslash : c ≠ Byte.backslash := by
      rintro rfl
      exact absurd hletter (by decide)
    rw [readBack_of_escapeLetter? hletter]
    cases rest with
    | nil => simp [inner?, hquote]
    | cons d rest => simp [inner?, hquote, hbackslash]
  | some letter =>
    have hescapes : escapes = true := h.resolve_right (by simp [hletter])
    have hne : Byte.backslash ≠ Byte.quote := by decide
    have hbyte := unescaped?_of_escapeLetter? hletter
    cases hrest : inner? true rest <;> simp [inner?, hescapes, hne, hbyte, hrest]

theorem inner?_flatMap {escapes : Bool} {s : Text}
    (h : escapes = true ∨ ∀ c ∈ s, escapeLetter? c = none) :
    inner? escapes (s.flatMap literalByte ++ [Byte.quote]) = some (s.map readBack) := by
  induction s with
  | nil => rfl
  | cons c s ih =>
    have hc := h.imp_right fun hall => hall c (List.mem_cons_self ..)
    have hs := h.imp_right fun hall d hd => hall d (List.mem_cons_of_mem c hd)
    rw [List.flatMap_cons, List.append_assoc, inner?_literalByte hc, ih hs]
    rfl

theorem content?_of_stringLiteral {s t : Text} (h : stringLiteral s = .ok t) :
    content? t = some (s.map readBack) := by
  unfold stringLiteral at h
  split at h
  · cases h
  · cases h
    by_cases hany : s.any fun c => (escapeLetter? c).isSome
    · rw [if_pos hany]
      exact inner?_flatMap (.inl rfl)
    · have hall : ∀ c ∈ s, escapeLetter? c = none := by simpa using hany
      rw [if_neg hany]
      exact inner?_flatMap (.inr hall)

theorem map_readBack_eq_iff {s : Text} : s.map readBack = s ↔ Byte.verticalTab ∉ s := by
  have hbyte : ∀ c, readBack c = c ↔ c ≠ Byte.verticalTab := by
    intro c
    by_cases hc : c = Byte.verticalTab
    · subst hc
      decide
    · simp [readBack, hc]
  have hmap := List.map_inj_left (f := readBack) (g := id) (l := s)
  rw [List.map_id] at hmap
  rw [hmap]
  constructor
  · intro h hmem
    exact (hbyte _).mp (h _ hmem) rfl
  · intro h c hc
    refine (hbyte c).mpr ?_
    rintro rfl
    exact h hc

-- A text without NUL has a literal, and the literal stands for the text exactly
-- if there is no vertical tab in it, which comes back as the letter v.
theorem content?_stringLiteral {s : Text} (h : Byte.nul ∉ s) :
    ∃ t, stringLiteral s = .ok t ∧ content? t = some (s.map readBack) ∧
      (content? t = some s ↔ Byte.verticalTab ∉ s) := by
  obtain ⟨t, ht⟩ : ∃ t, stringLiteral s = .ok t := by
    have hnul : s.elem Byte.nul = false := by simpa using h
    exact ⟨_, by rw [stringLiteral, hnul]; rfl⟩
  have hcontent := content?_of_stringLiteral ht
  refine ⟨t, ht, hcontent, ?_⟩
  rw [hcontent, Option.some.injEq]
  exact map_readBack_eq_iff

-- A quote, a tab, a backslash and a vertical tab.
def tabbed : Text := [0x27, Byte.tab, 0x61, Byte.backslash, Byte.verticalTab]

theorem content?_stringLiteral_tabbed :
    ∃ t, stringLiteral tabbed = .ok t ∧ t = Text.ofString "E'''\\ta\\\\\\v'" ∧
      content? t = some [0x27, Byte.tab, 0x61, Byte.backslash, 0x76] ∧
      content? t ≠ some tabbed := by
  obtain ⟨t, ht, hcontent, hiff⟩ := content?_stringLiteral (s := tabbed) (by decide)
  have htext : stringLiteral tabbed = .ok (Text.ofString "E'''\\ta\\\\\\v'") := by rfl
  have hlost : ¬Byte.verticalTab ∉ tabbed := by decide
  refine ⟨t, ht, Except.ok.inj (ht.symm.trans htext), hcontent, fun heq => ?_⟩
  exact hlost (hiff.mp heq)

end EntitySql.Sql.Quotation
