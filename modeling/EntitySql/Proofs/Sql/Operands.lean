import EntitySql.Proofs.Sql.Symbols
import EntitySql.Proofs.Text.Plain
import Mathlib.Data.List.Forall2

-- Texts that the scanner reads as one operand, first of all numerals.

namespace EntitySql.Sql

-- The text is scanned to tokens that are one operand wherever they stand.
def Scans (t : Text) : Prop := ∃ tokens, tokens? t = some tokens ∧ IsOperand tokens

def Token.isPlain (t : Token) : Bool := !t.separates && t != .openBracket

theorem depthBehind?_of_isPlain {t : Token} (h : t.isPlain = true) (depth : Nat) :
    t.depthBehind? depth = some depth := by
  simp only [Token.isPlain, Bool.and_eq_true, Bool.not_eq_true', bne_iff_ne] at h
  obtain ⟨hseparates, hopen⟩ := h
  have hclose : t ≠ .closeBracket := by
    rintro rfl
    exact absurd hseparates (by decide)
  simp [Token.depthBehind?, hseparates, hopen, hclose]

theorem IsOperand.of_isPlain {tokens : List Token} (hne : tokens ≠ [])
    (h : ∀ t ∈ tokens, t.isPlain = true) : IsOperand tokens := by
  refine ⟨hne, fun depth => ?_⟩
  clear hne
  induction tokens with
  | nil => rfl
  | cons t rest ih =>
    rw [List.foldlM_cons, depthBehind?_of_isPlain (h t (by simp))]
    exact ih fun u hu => h u (List.mem_cons_of_mem t hu)

theorem Scans.of_isPlain {t : Text} {tokens : List Token} (h : tokens? t = some tokens)
    (hne : tokens ≠ []) (hplain : ∀ t ∈ tokens, t.isPlain = true) : Scans t :=
  ⟨tokens, h, .of_isPlain hne hplain⟩

-- For closed texts, of which the tokens are computed.
theorem Scans.of_all {t : Text}
    (h : ((tokens? t).map fun tokens => !tokens.isEmpty && tokens.all Token.isPlain) = some true) :
    Scans t := by
  rw [Option.map_eq_some_iff] at h
  obtain ⟨tokens, htokens, hall⟩ := h
  simp only [Bool.and_eq_true, Bool.not_eq_true', List.all_eq_true] at hall
  exact .of_isPlain htokens (by simpa using hall.1) hall.2

@[simp] theorem isPlain_string (t : Text) : (Token.string t).isPlain = true := rfl

@[simp] theorem isPlain_name (t : Text) : (Token.name t).isPlain = true := rfl

@[simp] theorem isPlain_number (t : Text) : (Token.number t).isPlain = true := rfl

namespace Scanner

-- Numerals.

theorem start_digit {c : UInt8} (h : Byte.isDigit c = true) : start c = ([], .number [c]) := by
  have hall : ∀ c : UInt8, Byte.isDigit c = true → start c = ([], .number [c]) :=
    forall_byte (by decide +kernel)
  exact hall c h

-- Every byte belongs to the numeral that the bytes before it begin.
def Continues (t : Text) : Text → Prop
  | [] => True
  | c :: rest => continuesNumber t c = true ∧ Continues (t ++ [c]) rest

theorem Continues.append {t a b : Text} (ha : Continues t a) (hb : Continues (t ++ a) b) :
    Continues t (a ++ b) := by
  induction a generalizing t with
  | nil => simpa using hb
  | cons c a ih =>
    obtain ⟨hc, ha⟩ := ha
    exact ⟨hc, ih ha (by simpa using hb)⟩

theorem Continues.of_digits {t digits : Text} (h : ∀ c ∈ digits, Byte.isDigit c = true) :
    Continues t digits := by
  induction digits generalizing t with
  | nil => trivial
  | cons c rest ih =>
    refine ⟨?_, ih fun d hd => h d (List.mem_cons_of_mem c hd)⟩
    simp [continuesNumber, h c (by simp)]

theorem feed_number {t rest : Text} (h : Continues t rest) :
    scanner.feed (.number t) rest = ([], .number (t ++ rest)) := by
  induction rest generalizing t with
  | nil => simp [Machine.feed]
  | cons c rest ih =>
    obtain ⟨hc, hrest⟩ := h
    have hstep : scanner.step (.number t) c = ([], .number (t ++ [c])) := by
      simp [scanner, step, hc]
    simp [Machine.feed, hstep, ih hrest]

end Scanner

theorem tokens?_number {c : UInt8} {rest : Text} (hc : Byte.isDigit c = true)
    (h : Scanner.Continues [c] rest) : tokens? (c :: rest) = some [.number (c :: rest)] := by
  have hstep : scanner.step .blank c = ([], .number [c]) := Scanner.start_digit hc
  simp [tokens?, Machine.read?, Machine.feed, hstep, Scanner.feed_number h]
  rfl

-- A sign in front of a numeral is a token of its own.
theorem tokens?_sign {sign c : UInt8} (rest : Text)
    (hsign : sign = Byte.plus ∨ sign = Byte.minus) (hc : Scanner.isSign c = false) :
    tokens? (sign :: c :: rest) = (tokens? (c :: rest)).map (.sign [sign] :: ·) := by
  have hfirst : scanner.step .blank sign = ([], .sign [sign]) := by
    rcases hsign with rfl | rfl <;> rfl
  have hopens : Scanner.opensComment [sign] c = false := by
    have hminus : c ≠ Byte.minus := by
      rintro rfl
      exact absurd hc (by decide)
    have hstar : c ≠ Byte.star := by
      rintro rfl
      exact absurd hc (by decide)
    simp [Scanner.opensComment, hminus, hstar]
  have hstep : scanner.step (.sign [sign]) c = Scanner.next (.sign [sign]) c := by
    simp [scanner, Scanner.step, hopens, Scanner.continuesSign, hc]
  have hblank : scanner.step .blank c = Scanner.start c := rfl
  simp [tokens?, Machine.read?, Machine.feed, hfirst, hstep, hblank, Scanner.next,
    Function.comp_def]

theorem isSign_digit {c : UInt8} (h : Byte.isDigit c = true) : Scanner.isSign c = false := by
  have hall : ∀ c : UInt8, Byte.isDigit c = true → Scanner.isSign c = false :=
    forall_byte (by decide +kernel)
  exact hall c h

theorem tokens?_ofNat (n : Nat) : tokens? (Text.ofNat n) = some [.number (Text.ofNat n)] := by
  cases hdigits : Text.ofNat n with
  | nil => exact absurd hdigits (Text.ofNat_ne_nil n)
  | cons c rest =>
    have hall (d : UInt8) (hd : d ∈ c :: rest) : Byte.isDigit d = true :=
      Text.isDigit_of_mem_ofNat (hdigits ▸ hd)
    exact tokens?_number (hall c (by simp))
      (.of_digits fun d hd => hall d (List.mem_cons_of_mem c hd))

theorem scans_ofInt (n : Int) : Scans (Text.ofInt n) := by
  cases n with
  | ofNat n => exact .of_isPlain (tokens?_ofNat n) (by simp) (by simp)
  | negSucc n =>
    have hnumber := tokens?_ofNat (n + 1)
    cases hdigits : Text.ofNat (n + 1) with
    | nil => exact absurd hdigits (Text.ofNat_ne_nil _)
    | cons c rest =>
      have hc : Byte.isDigit c = true := Text.isDigit_of_mem_ofNat (hdigits ▸ List.mem_cons_self)
      have hminus := tokens?_sign rest (.inr rfl) (isSign_digit hc)
      rw [← hdigits, hnumber] at hminus
      exact .of_isPlain hminus (by simp) (by simp; decide)

-- What may stand behind a minus sign.
def Unsigned (t : Text) : Prop :=
  ∃ c rest tokens, t = c :: rest ∧ Scanner.isSign c = false ∧ tokens? t = some tokens ∧
    tokens ≠ [] ∧ ∀ t ∈ tokens, t.isPlain = true

theorem Unsigned.of_digit {c : UInt8} {rest : Text} (hc : Byte.isDigit c = true)
    (h : Scanner.Continues [c] rest) : Unsigned (c :: rest) :=
  ⟨c, rest, _, rfl, isSign_digit hc, tokens?_number hc h, by simp, by simp⟩

theorem Unsigned.scans {t : Text} (h : Unsigned t) (negative : Bool) :
    Scans (Binary64.signText negative ++ t) := by
  obtain ⟨c, rest, tokens, rfl, hc, htokens, hne, hplain⟩ := h
  cases negative with
  | false => exact .of_isPlain htokens hne hplain
  | true =>
    have hminus := tokens?_sign rest (.inr rfl) hc
    rw [htokens] at hminus
    exact .of_isPlain hminus (by simp) (List.forall_mem_cons.mpr ⟨by decide, hplain⟩)

theorem exponentText_eq (e : Int) : ∃ sign, (sign = Byte.plus ∨ sign = Byte.minus) ∧
    Binary64.exponentText e = Scanner.letterE :: sign :: Text.ofNatPadded 2 e.natAbs := by
  unfold Binary64.exponentText
  by_cases h : e < 0
  · exact ⟨Byte.minus, .inr rfl, by rw [if_pos h]; rfl⟩
  · exact ⟨Byte.plus, .inl rfl, by rw [if_neg h]; rfl⟩

theorem continues_exponentText (t : Text) (e : Int) :
    Scanner.Continues t (Binary64.exponentText e) := by
  obtain ⟨sign, hsign, heq⟩ := exponentText_eq e
  rw [heq]
  refine ⟨by simp [Scanner.continuesNumber], ?_,
    .of_digits fun c hc => Text.isDigit_of_mem_ofNatPadded hc⟩
  rcases hsign with rfl | rfl <;> simp [Scanner.continuesNumber]

-- The digits of a double are never all zero, so an exponent has digits before
-- it. It is read without them too, which is easier than to rule that out.
theorem unsigned_exponentText (e : Int) : Unsigned (Binary64.exponentText e) := by
  obtain ⟨sign, hsign, heq⟩ := exponentText_eq e
  rw [heq]
  cases hdigits : Text.ofNatPadded 2 e.natAbs with
  | nil => exact absurd (List.append_eq_nil_iff.mp hdigits).2 (Text.ofNat_ne_nil _)
  | cons c rest =>
    have hall (d : UInt8) (hd : d ∈ c :: rest) : Byte.isDigit d = true :=
      Text.isDigit_of_mem_ofNatPadded (hdigits ▸ hd)
    have hnumber := tokens?_number (hall c (by simp))
      (.of_digits fun d hd => hall d (List.mem_cons_of_mem c hd))
    have htail := tokens?_sign rest hsign (isSign_digit (hall c (by simp)))
    have hletter : tokens? (Scanner.letterE :: sign :: c :: rest) =
        (tokens? (sign :: c :: rest)).map (.word [Scanner.letterE] :: ·) := by
      have hfirst : scanner.step .blank Scanner.letterE = ([], .word [Scanner.letterE]) := rfl
      have hstep : scanner.step (.word [Scanner.letterE]) sign =
          Scanner.next (.word [Scanner.letterE]) sign := by
        rcases hsign with rfl | rfl <;> rfl
      have hblank : scanner.step .blank sign = Scanner.start sign := rfl
      simp [tokens?, Machine.read?, Machine.feed, hfirst, hstep, hblank, Scanner.next,
        Function.comp_def]
    rw [htail, hnumber] at hletter
    refine ⟨_, _, _, rfl, rfl, hletter, by simp, ?_⟩
    rcases hsign with rfl | rfl <;> simp <;> decide

theorem unsigned_pointed {digits : Text} (h : ∀ c ∈ digits, Byte.isDigit c = true) (e : Int) :
    Unsigned (Binary64.pointed digits ++ Binary64.exponentText e) := by
  match digits, h with
  | [], _ => exact unsigned_exponentText e
  | [c], h => exact .of_digit (h c (by simp)) (continues_exponentText _ e)
  | c :: d :: rest, h =>
    refine .of_digit (h c (by simp)) ⟨by simp [Scanner.continuesNumber], ?_⟩
    exact .append (.of_digits fun b hb => h b (List.mem_cons_of_mem c hb))
      (continues_exponentText _ e)

theorem unsigned_positional {digits : Text} (h : ∀ c ∈ digits, Byte.isDigit c = true)
    (point : Int) : Unsigned (Binary64.positional digits point) := by
  have hzeros (n : Nat) (c : UInt8) (hc : c ∈ List.replicate n Byte.zero) :
      Byte.isDigit c = true := by
    rw [(List.mem_replicate.mp hc).2]
    rfl
  unfold Binary64.positional
  by_cases hpoint : point ≤ 0
  · rw [if_pos hpoint]
    refine .of_digit (c := Byte.zero) rfl ⟨rfl, .append (.of_digits (hzeros _)) (.of_digits h)⟩
  · rw [if_neg hpoint]
    obtain ⟨n, hn⟩ : ∃ n, point.toNat = n + 1 := ⟨point.toNat - 1, by omega⟩
    rw [hn]
    cases digits with
    | nil => exact .of_digit (c := Byte.zero) rfl (.of_digits (hzeros n))
    | cons c rest =>
      have hc := h c (by simp)
      have hrest (d : UInt8) (hd : d ∈ rest) := h d (List.mem_cons_of_mem c hd)
      by_cases hlength : n + 1 < (c :: rest).length
      · rw [if_pos hlength]
        refine .of_digit hc (.append (.of_digits fun d hd => hrest d (List.mem_of_mem_take hd)) ?_)
        exact ⟨by simp [Scanner.continuesNumber],
          .of_digits fun d hd => hrest d (List.mem_of_mem_drop hd)⟩
      · rw [if_neg hlength]
        exact .of_digit hc (.append (.of_digits hrest) (.of_digits (hzeros _)))

theorem isDigit_of_mem_ofScaled {count q : Nat} {k : Int} {c : UInt8}
    (h : c ∈ Binary64.dropTrailingZeros (Binary64.Significand.ofScaled count q k).digits) :
    Byte.isDigit c = true := by
  have hmem := (List.dropWhile_sublist _).subset (List.mem_reverse.mp h)
  have hdigits := List.mem_reverse.mp hmem
  unfold Binary64.Significand.ofScaled at hdigits
  split at hdigits
  · exact Text.isDigit_of_mem_ofNat hdigits
  · exact Text.isDigit_of_mem_ofNat hdigits

theorem scans_doubleLiteral (x : Float) : Scans (doubleLiteral x) := by
  unfold doubleLiteral
  cases hx : Binary64.ofFloat x with
  | nan => exact show Scans "'NaN'::double precision" from .of_all (by decide)
  | infinite negative =>
    cases negative with
    | true => exact show Scans "'-Infinity'::double precision" from .of_all (by decide)
    | false => exact show Scans "'Infinity'::double precision" from .of_all (by decide)
  | finite negative m e =>
    simp only [Binary64.seventeenDigits, hx]
    refine Unsigned.scans ?_ negative
    split
    · exact show Unsigned [Byte.zero] from .of_digit rfl trivial
    · split
      · exact unsigned_pointed (fun c hc => isDigit_of_mem_ofScaled hc) _
      · exact unsigned_positional (fun c hc => isDigit_of_mem_ofScaled hc) _

-- Operands between commas.

def commaTokens : List (List Token) → List Token
  | [] => []
  | [tokens] => tokens
  | tokens :: rest => tokens ++ .comma :: commaTokens rest

-- The tokens of each text are one operand.
abbrev ScanAs : List Text → List (List Token) → Prop :=
  List.Forall₂ fun t tokens => tokens? t = some tokens ∧ IsOperand tokens

theorem exists_scanAs {parts : List Text} (h : ∀ p ∈ parts, Scans p) :
    ∃ items, ScanAs parts items := by
  induction parts with
  | nil => exact ⟨[], .nil⟩
  | cons p rest ih =>
    obtain ⟨tokens, hp⟩ := h p (by simp)
    obtain ⟨items, hitems⟩ := ih fun q hq => h q (List.mem_cons_of_mem p hq)
    exact ⟨tokens :: items, .cons hp hitems⟩

theorem ScanAs.isOperand {parts : List Text} {items : List (List Token)} (h : ScanAs parts items) :
    ∀ tokens ∈ items, IsOperand tokens := by
  induction h with
  | nil => simp
  | cons hp _ ih => exact List.forall_mem_cons.mpr ⟨hp.2, ih⟩

theorem tokens?_commaJoin {parts : List Text} {items : List (List Token)}
    (h : ScanAs parts items) : tokens? (Text.commaJoin parts) = some (commaTokens items) := by
  induction h with
  | nil => rfl
  | cons hp hrest ih =>
    cases hrest with
    | nil => exact hp.1
    | cons hq hrest =>
      rename_i p tokens q tokens' rest items
      have hcomma : tokens? ((", " : Text) ++ Text.join ", " (q :: rest)) =
          some (.comma :: commaTokens (tokens' :: items)) := by
        have hlead : scanner.feed .blank (", " : Text) = ([.comma], .blank) := by rfl
        rw [tokens?_of_feed hlead, show tokens? (Text.join ", " (q :: rest)) = _ from ih]
        rfl
      have happend := tokens?_append (b := Byte.space :: Text.join ", " (q :: rest)) hp.1
        (show Byte.comma ∈ Scanner.delimiters by decide)
      rw [show Byte.comma :: Byte.space :: Text.join ", " (q :: rest) =
        (", " : Text) ++ Text.join ", " (q :: rest) from rfl, hcomma] at happend
      show tokens? (p ++ (", " : Text) ++ Text.join ", " (q :: rest)) = _
      rw [List.append_assoc, happend]
      rfl

end EntitySql.Sql
