import EntitySql.Proofs.Run
import EntitySql.Proofs.Sql.Quotation
import Mathlib.Data.List.Chain

-- Literals hold whatever stands in them: each of their quotes is closed where
-- the literal ends, and outside of the quotes stand words, numbers and casts.

namespace EntitySql.Sql.Quotation

-- Texts without quotes that open no comment.

structure Inert (t : Text) : Prop where
  quote : Byte.quote ∉ t
  semicolon : Byte.semicolon ∉ t
  uncommented : t.IsChain fun a b => (Lexeme.byte a).opensComment (.byte b) = false

instance (t : Text) : Decidable (Inert t) :=
  decidable_of_iff (Byte.quote ∉ t ∧ Byte.semicolon ∉ t ∧
      t.IsChain fun a b => (Lexeme.byte a).opensComment (.byte b) = false)
    ⟨fun ⟨hquote, hsemicolon, hchain⟩ => ⟨hquote, hsemicolon, hchain⟩,
      fun h => ⟨h.quote, h.semicolon, h.uncommented⟩⟩

-- A byte that completes the opening of a comment.
def completes (c : UInt8) : Bool := c == Byte.minus || c == Byte.star

theorem opensComment_of_not_completes {c : UInt8} (h : completes c = false) (a : Lexeme) :
    a.opensComment (.byte c) = false := by
  simp only [completes, Bool.or_eq_false_iff] at h
  cases a <;> simp [Lexeme.opensComment, h.1, h.2]

namespace Inert

theorem of_plain {t : Text} (ht : Text.Plain t) (hminus : Byte.minus ∉ t) : Inert t where
  quote := ht.not_mem rfl
  semicolon := ht.not_mem rfl
  uncommented := by
    have hall : ∀ c ∈ t, completes c = false := by
      intro c hc
      have hne : c ≠ Byte.minus := fun h => hminus (h ▸ hc)
      have hstar : c ≠ Byte.star := fun h => ht.not_mem rfl (h ▸ hc)
      simp [completes, hne, hstar]
    clear ht hminus
    induction t with
    | nil => exact .nil
    | cons c t ih =>
      obtain ⟨-, ht⟩ := List.forall_mem_cons.mp hall
      refine List.isChain_cons.mpr ⟨fun d hd => ?_, ih ht⟩
      exact opensComment_of_not_completes (ht d (List.mem_of_mem_head? hd)) _

theorem append {a b : Text} (ha : Inert a) (hb : Inert b)
    (hhead : ∀ c ∈ b.head?, completes c = false) : Inert (a ++ b) where
  quote := by simp [ha.quote, hb.quote]
  semicolon := by simp [ha.semicolon, hb.semicolon]
  uncommented := List.isChain_append.mpr ⟨ha.uncommented, hb.uncommented,
    fun c _ d hd => opensComment_of_not_completes (hhead d hd) _⟩

theorem minus_cons {t : Text} (ht : Inert t) (hhead : ∀ c ∈ t.head?, c ≠ Byte.minus) :
    Inert (Byte.minus :: t) where
  quote := List.not_mem_cons_of_ne_of_not_mem (by decide) ht.quote
  semicolon := List.not_mem_cons_of_ne_of_not_mem (by decide) ht.semicolon
  uncommented := by
    have hslash : Byte.minus ≠ Byte.slash := by decide
    refine List.isChain_cons.mpr ⟨fun c hc => ?_, ht.uncommented⟩
    simp [Lexeme.opensComment, hhead c hc, hslash]

theorem ofNat (n : Nat) : Inert (Text.ofNat n) :=
  of_plain (.of_numeral (.ofNat n)) (Text.minus_not_mem_ofNat n)

theorem ofInt (n : Int) : Inert (Text.ofInt n) := by
  cases n with
  | ofNat n => exact ofNat n
  | negSucc n =>
    refine (ofNat (n + 1)).minus_cons fun c hc => ?_
    rintro rfl
    exact Text.minus_not_mem_ofNat _ (List.mem_of_mem_head? hc)

theorem exponentText (e : Int) : Inert (Binary64.exponentText e) := by
  obtain ⟨sign, hsign, heq⟩ := exponentText_eq e
  have hdigits : Inert (Text.ofNatPadded 2 e.natAbs) := by
    refine of_plain (.of_numeral (.ofNatPadded _ _)) fun hminus => ?_
    exact absurd (Text.isDigit_of_mem_ofNatPadded hminus) (by decide)
  have hlead : Inert [Scanner.letterE, sign] := by
    rcases hsign with rfl | rfl <;> decide
  rw [heq]
  refine hlead.append hdigits fun c hc => ?_
  have hdigit := Text.isDigit_of_mem_ofNatPadded (List.mem_of_mem_head? hc)
  have hall : ∀ c : UInt8, Byte.isDigit c = true → completes c = false :=
    forall_byte (by decide +kernel)
  exact hall c hdigit

end Inert

theorem mem_pointed {c : UInt8} {digits : Text} (h : c ∈ Binary64.pointed digits) :
    c = Byte.dot ∨ c ∈ digits := by
  unfold Binary64.pointed at h
  split at h
  · cases h
  · exact .inr h
  · simp only [List.mem_cons] at h ⊢
    tauto

theorem mem_positional {c : UInt8} {digits : Text} {point : Int}
    (h : c ∈ Binary64.positional digits point) : c = Byte.dot ∨ c = Byte.zero ∨ c ∈ digits := by
  unfold Binary64.positional at h
  split at h
  · have hlead : Text.ofString "0." = [Byte.zero, Byte.dot] := by decide
    simp only [hlead, List.mem_append, List.mem_cons, List.not_mem_nil, List.mem_replicate] at h
    tauto
  · split at h
    · rcases List.mem_append.mp h with h | h
      · exact .inr (.inr (List.mem_of_mem_take h))
      · rcases List.mem_cons.mp h with h | h
        · exact .inl h
        · exact .inr (.inr (List.mem_of_mem_drop h))
    · rcases List.mem_append.mp h with h | h
      · exact .inr (.inr h)
      · exact .inr (.inl (List.mem_replicate.mp h).2)

-- The digits of a double between its sign and its exponent.
structure Magnitude (t : Text) : Prop where
  inert : Inert t
  head : ∀ c ∈ t.head?, c ≠ Byte.minus

theorem Magnitude.of_numeral {t : Text} (ht : Binary64.Numeral t) (hminus : Byte.minus ∉ t) :
    Magnitude t where
  inert := .of_plain (.of_numeral ht) hminus
  head := fun _ hc h => hminus (h ▸ List.mem_of_mem_head? hc)

theorem Magnitude.signed {t : Text} (ht : Magnitude t) (negative : Bool) :
    Inert (Binary64.signText negative ++ t) := by
  cases negative with
  | false => exact ht.inert
  | true => exact ht.inert.minus_cons ht.head

section

variable {digits : Text} (hdigits : ∀ c ∈ digits, Byte.isDigit c = true)

include hdigits

theorem numeral_of_isDigit : Binary64.Numeral digits := by
  intro c hc
  simp [Binary64.isNumeral, hdigits c hc]

theorem minus_not_mem_of_isDigit : Byte.minus ∉ digits := by
  intro hminus
  exact absurd (hdigits _ hminus) (by decide)

theorem magnitude_positional (point : Int) : Magnitude (Binary64.positional digits point) := by
  refine .of_numeral ((numeral_of_isDigit hdigits).positional point) fun hminus => ?_
  rcases mem_positional hminus with h | h | h
  · exact absurd h (by decide)
  · exact absurd h (by decide)
  · exact minus_not_mem_of_isDigit hdigits h

-- The only other minus sign stands behind the letter of the exponent.
theorem magnitude_pointed (e : Int) :
    Magnitude (Binary64.pointed digits ++ Binary64.exponentText e) := by
  have hpointed : Magnitude (Binary64.pointed digits) := by
    refine .of_numeral (numeral_of_isDigit hdigits).pointed fun hminus => ?_
    rcases mem_pointed hminus with h | h
    · exact absurd h (by decide)
    · exact minus_not_mem_of_isDigit hdigits h
  obtain ⟨sign, -, hexponent⟩ := exponentText_eq e
  have hletter : ∀ c ∈ (Binary64.exponentText e).head?, c = Scanner.letterE := by
    rw [hexponent]
    intro c hc
    exact (Option.some.inj hc).symm
  refine ⟨hpointed.inert.append (.exponentText e) fun c hc => ?_, ?_⟩
  · rw [hletter c hc]
    decide
  · cases htext : Binary64.pointed digits with
    | nil =>
      intro c hc
      rw [hletter c hc]
      decide
    | cons d rest =>
      intro c hc
      exact hpointed.head c (by rw [htext]; exact hc)

end

theorem inert_seventeenDigits {x : Float} {negative : Bool} {m : Nat} {e : Int}
    (hx : Binary64.ofFloat x = .finite negative m e) : Inert (Binary64.seventeenDigits x) := by
  simp only [Binary64.seventeenDigits, hx]
  refine Magnitude.signed ?_ negative
  split
  · exact .of_numeral (show Binary64.Numeral [Byte.zero] from .cons rfl .nil)
      (show Byte.minus ∉ [Byte.zero] by decide)
  · split
    · exact magnitude_pointed (fun c hc => isDigit_of_mem_ofScaled hc) _
    · exact magnitude_positional (fun c hc => isDigit_of_mem_ofScaled hc) _

-- Harmless pieces beside each other.

namespace Harmless

theorem literal (t : Text) : Harmless [.literal t] where
  ended := by simp
  outside := by simp
  uncommented := .singleton _

theorem bytes {t : Text} (ht : Inert t) : Harmless (t.map .byte) where
  ended := by simp
  outside := by
    intro c hc
    obtain ⟨d, hd, hcd⟩ := List.mem_map.mp hc
    obtain rfl : d = c := Lexeme.byte.inj hcd
    exact ⟨fun h => ht.quote (h ▸ hd), fun h => ht.semicolon (h ▸ hd)⟩
  uncommented := (List.isChain_map _).mpr ht.uncommented

theorem append {a b : List Lexeme} (ha : Harmless a) (hb : Harmless b)
    (hjoint : ∀ x ∈ a.getLast?, ∀ y ∈ b.head?, x.opensComment y = false) :
    Harmless (a ++ b) where
  ended := by
    intro t ht
    rcases List.mem_append.mp ht with ht | ht
    · exact ha.ended t ht
    · exact hb.ended t ht
  outside := by
    intro c hc
    rcases List.mem_append.mp hc with hc | hc
    · exact ha.outside c hc
    · exact hb.outside c hc
  uncommented := List.isChain_append.mpr ⟨ha.uncommented, hb.uncommented, hjoint⟩

end Harmless

-- A byte that begins the opening of a comment.
theorem opensComment_of_ne {a : UInt8} (hminus : a ≠ Byte.minus) (hslash : a ≠ Byte.slash)
    (b : Lexeme) : (Lexeme.byte a).opensComment b = false := by
  cases b <;> simp [Lexeme.opensComment, hminus, hslash]

-- A text whose literals all end in it, and with nothing else to break out.
def Contained (t : Text) : Prop := ∃ pieces, Splits .between t pieces ∧ Harmless pieces

theorem contained_inert {t : Text} (ht : Inert t) : Contained t :=
  ⟨t.map .byte, splits_outside rfl ht.quote, .bytes ht⟩

theorem contained_literal {t : Text} (ht : Splits .between t [.literal t]) : Contained t :=
  ⟨[.literal t], ht, .literal t⟩

-- A literal with a cast behind it.
theorem contained_cast {t cast : Text} (ht : Splits .between t [.literal t]) (hcast : Inert cast) :
    Contained (t ++ cast) := by
  refine ⟨[.literal t] ++ cast.map .byte, ?_, ?_⟩
  · exact ht.append (fun m hm => splits_outside hm hcast.quote)
      fun rest hrest => unquoted_append hcast.quote hrest
  · refine (Harmless.literal t).append (.bytes hcast) fun x hx y _ => ?_
    obtain rfl : Lexeme.literal t = x := Option.some.inj hx
    rfl

theorem contained_unescaped {body cast : Text} (hbody : Byte.quote ∉ body) (hcast : Inert cast) :
    Contained (("'" : Text) ++ body ++ Byte.quote :: cast) := by
  have hcontained := contained_cast (splits_unescaped hbody) hcast
  rwa [List.append_assoc _ [Byte.quote], List.singleton_append] at hcontained

-- Behind a comma or a bracket no word goes on.
theorem lexemes_comma {m : Mode} (hm : m.isOutside = true) (rest : Text) :
    lexemes m ((", " : Text) ++ rest) =
      [.byte Byte.comma, .byte Byte.space] ++ lexemes .between rest := by
  cases m with
  | between => rfl
  | word => rfl
  | _ => cases hm

theorem lexemes_closeBracket {m : Mode} (hm : m.isOutside = true) (rest : Text) :
    lexemes m (("]" : Text) ++ rest) = [.byte Byte.closeBracket] ++ lexemes .between rest := by
  cases m with
  | between => rfl
  | word => rfl
  | _ => cases hm

theorem Contained.comma {a b : Text} (ha : Contained a) (hb : Contained b) :
    Contained (a ++ (", " : Text) ++ b) := by
  obtain ⟨pieces, ⟨m, hm, hfirst⟩, hharmless⟩ := ha
  obtain ⟨more, ⟨m', hm', hsecond⟩, hmore⟩ := hb
  have hcomma : Harmless [.byte Byte.comma, .byte Byte.space] :=
    .bytes (t := [Byte.comma, Byte.space]) (by decide)
  refine ⟨pieces ++ ([.byte Byte.comma, .byte Byte.space] ++ more), ⟨m', hm', ?_⟩, ?_⟩
  · intro rest hrest
    have hunquoted : Unquoted ((", " : Text) ++ (b ++ rest)) := by
      intro h
      exact absurd (Option.some.inj h) (by decide)
    rw [List.append_assoc, List.append_assoc, hfirst _ hunquoted, lexemes_comma hm,
      hsecond rest hrest]
    simp
  · refine hharmless.append (hcomma.append hmore ?_) ?_
    · intro x hx y _
      obtain rfl : Lexeme.byte Byte.space = x := Option.some.inj hx
      exact opensComment_of_ne (by decide) (by decide) y
    · intro x _ y hy
      obtain rfl : Lexeme.byte Byte.comma = y := Option.some.inj hy
      exact opensComment_of_not_completes (by decide) x

theorem contained_commaJoin {parts : List Text} (h : ∀ p ∈ parts, Contained p) :
    Contained (Text.commaJoin parts) := by
  induction parts with
  | nil => exact contained_inert (by decide)
  | cons p rest ih =>
    obtain ⟨hp, hrest⟩ := List.forall_mem_cons.mp h
    cases rest with
    | nil => exact hp
    | cons q rest => exact hp.comma (ih hrest)

theorem contained_array {inner : Text} (h : Contained inner) :
    Contained ("ARRAY[" ++ inner ++ "]") := by
  obtain ⟨pieces, ⟨m, hm, hinner⟩, hharmless⟩ := h
  have hword : Harmless (("ARRAY[" : Text).map Lexeme.byte) := .bytes (by decide)
  have hclose : Harmless [.byte Byte.closeBracket] := .bytes (t := [Byte.closeBracket]) (by decide)
  refine ⟨("ARRAY[" : Text).map .byte ++ (pieces ++ [.byte Byte.closeBracket]),
    ⟨.between, rfl, ?_⟩, ?_⟩
  · intro rest hrest
    have hunquoted : Unquoted (("]" : Text) ++ rest) := by
      intro h
      exact absurd (Option.some.inj h) (by decide)
    have hopening : lexemes .between (("ARRAY[" : Text) ++ (inner ++ (("]" : Text) ++ rest))) =
        ("ARRAY[" : Text).map .byte ++ lexemes .between (inner ++ (("]" : Text) ++ rest)) := rfl
    rw [List.append_assoc, List.append_assoc, hopening, hinner _ hunquoted,
      lexemes_closeBracket hm]
    simp
  · refine hword.append (hharmless.append hclose ?_) ?_
    · intro x _ y hy
      obtain rfl : Lexeme.byte Byte.closeBracket = y := Option.some.inj hy
      exact opensComment_of_not_completes (by decide) x
    · intro x hx y _
      obtain rfl : Lexeme.byte Byte.openBracket = x := Option.some.inj hx
      exact opensComment_of_ne (by decide) (by decide) y

-- Literals of values.

theorem contained_doubleLiteral (x : Float) : Contained (doubleLiteral x) := by
  have hcast : Inert "::double precision" := by decide
  unfold doubleLiteral
  split
  · exact contained_unescaped (show Byte.quote ∉ Text.ofString "NaN" by decide) hcast
  · next negative _ =>
    cases negative with
    | true =>
      exact contained_unescaped (show Byte.quote ∉ Text.ofString "-Infinity" by decide) hcast
    | false =>
      exact contained_unescaped (show Byte.quote ∉ Text.ofString "Infinity" by decide) hcast
  · next hx => exact contained_inert (inert_seventeenDigits hx)

mutual

theorem contained_value {v : Value} {t : Text} (h : literal v = .ok t) : Contained t := by
  cases v with
  | null =>
    cases h
    exact contained_inert (by decide)
  | bool b =>
    cases h
    exact contained_inert (by cases b <;> decide)
  | int n =>
    cases h
    exact contained_inert (.ofInt _)
  | double x =>
    cases h
    exact contained_doubleLiteral x
  | string s => exact contained_literal (splits_stringLiteral h)
  | uuid u =>
    cases h
    exact contained_unescaped ((Text.Plain.uuid u).not_mem rfl)
      (show Inert "::uuid" by decide)
  | timestamp s =>
    cases h
    have hcast : Inert (Text.ofString "::timestamp" ++
        if s.zoned then Text.ofString "tz" else []) := by
      cases s.zoned <;> decide
    have hliteral := contained_unescaped ((Text.Plain.timestamp s).not_mem rfl) hcast
    rw [timestampLiteral, List.append_assoc _ ("'::timestamp" : Text)]
    exact hliteral
  | bytes b =>
    cases h
    exact contained_unescaped (Text.quote_not_mem_hexBody b) (show Inert "::bytea" by decide)
  | array items =>
    rw [literal, Result.bind_eq_ok] at h
    obtain ⟨parts, hparts, h⟩ := h
    split at h
    · cases h
      exact contained_inert (by decide)
    · cases h
      exact contained_array (contained_commaJoin (contained_values hparts))
  | json j =>
    rw [literal, Result.bind_eq_ok] at h
    obtain ⟨quoted, hquoted, h⟩ := h
    cases h
    exact contained_cast (splits_stringLiteral hquoted) (by decide)
  | inet a =>
    rw [literal, Result.bind_eq_ok] at h
    obtain ⟨quoted, hquoted, h⟩ := h
    cases h
    exact contained_cast (splits_stringLiteral hquoted) (by decide)
termination_by sizeOf v

theorem contained_values {items : List Value} {parts : List Text} (h : literals items = .ok parts) :
    ∀ p ∈ parts, Contained p := by
  cases items with
  | nil =>
    cases h
    simp
  | cons v rest =>
    rw [literals, Result.bind_eq_ok] at h
    obtain ⟨part, hpart, h⟩ := h
    obtain ⟨more, hmore, h⟩ := Result.bind_eq_ok.mp h
    cases h
    exact List.forall_mem_cons.mpr ⟨contained_value hpart, contained_values hmore⟩
termination_by sizeOf items

end

-- What stands in a literal stays in it: the string literals of its text end in
-- its text, whatever follows but a quote. A string without NUL is one literal.
theorem literal_contained :
    (∀ v t, literal v = .ok t → ∃ pieces m, Mode.isOutside m = true ∧ Harmless pieces ∧
      pieces.flatMap Lexeme.text = t ∧
      ∀ rest, Unquoted rest → lexemes .between (t ++ rest) = pieces ++ lexemes m rest) ∧
    ∀ s, Byte.nul ∉ s → ∃ t, stringLiteral s = .ok t ∧
      ∀ rest, Unquoted rest → lexemes .between (t ++ rest) = .literal t :: lexemes .between rest := by
  constructor
  · intro v t h
    obtain ⟨pieces, hsplits, hharmless⟩ := contained_value h
    have htext := hsplits.flatMap_text
    obtain ⟨m, hm, hrest⟩ := hsplits
    exact ⟨pieces, m, hm, hharmless, htext, hrest⟩
  · intro s hnul
    have hliteral : ∃ t, stringLiteral s = .ok t := by
      unfold stringLiteral
      rw [if_neg (by simpa using hnul)]
      exact ⟨_, rfl⟩
    obtain ⟨t, ht⟩ := hliteral
    exact ⟨t, ht, fun rest hrest => lexemes_stringLiteral ht hrest⟩

-- A backslash in front of a quote, and a minus sign in front of a comment.
theorem literal_contained_backslashQuote :
    literal (.array [.string "\\'; --", .int (-5)]) = .ok "ARRAY[E'\\\\''; --', -5]" ∧
    Harmless (lexemes .between "ARRAY[E'\\\\''; --', -5]") ∧
    lexemes .between (("'it''s'" : Text) ++ "::text") =
      .literal "'it''s'" :: lexemes .between "::text" := by
  have hliteral : literal (.array [.string "\\'; --", .int (-5)]) =
      .ok "ARRAY[E'\\\\''; --', -5]" := by rfl
  obtain ⟨pieces, m, hm, hharmless, -, hrest⟩ := literal_contained.1 _ _ hliteral
  have hlexemes := hrest [] (by simp [Unquoted])
  have hend : lexemes m [] = [] := by cases m <;> first | rfl | cases hm
  rw [hend, List.append_nil, List.append_nil] at hlexemes
  obtain ⟨t, ht, hcast⟩ := literal_contained.2 "it's" (by decide)
  obtain rfl : Text.ofString "'it''s'" = t := by
    have hquoted : stringLiteral "it's" = .ok "'it''s'" := by rfl
    exact Except.ok.inj (hquoted.symm.trans ht)
  exact ⟨hliteral, hlexemes ▸ hharmless, hcast _ (by simp [Unquoted]; decide)⟩

end EntitySql.Sql.Quotation
