import EntitySql.Proofs.Sql.Simulation
import EntitySql.Proofs.Text.Numeral

-- Texts in which literals take the places of the placeholders. What stands in
-- quotes is no placeholder. A compound term prints words around the texts of
-- its operands, so it is enough to put the literals into these.

namespace EntitySql.Sql.Inlining

-- Outside of quotes, between quotes, behind an at sign, and in the number of a
-- placeholder. A doubled quote leaves the quotes and enters them again.
inductive Mode where
  | outside
  | quoted (closing : UInt8)
  | marked
  | numbered (digits : Text)

inductive Piece where
  | byte (c : UInt8)
  | hole (digits : Text)

-- A marker without a number is no placeholder.
def numberPieces (digits : Text) : List Piece :=
  if digits.isEmpty then marker.map .byte else [.hole digits]

def start (c : UInt8) : List Piece × Mode :=
  if c = Byte.quote ∨ c = Byte.doubleQuote then ([.byte c], .quoted c)
  else if c = atSign then ([], .marked)
  else ([.byte c], .outside)

def step : Mode → UInt8 → List Piece × Mode
  | .outside, c => start c
  | .quoted closing, c => ([.byte c], if c = closing then .outside else .quoted closing)
  | .marked, c =>
    if c = letterP then ([], .numbered []) else (.byte atSign :: (start c).1, (start c).2)
  | .numbered digits, c =>
    if Byte.isDigit c then ([], .numbered (digits ++ [c]))
    else (numberPieces digits ++ (start c).1, (start c).2)

def Mode.finish : Mode → List Piece
  | .outside => []
  | .quoted _ => []
  | .marked => [.byte atSign]
  | .numbered digits => numberPieces digits

def pieces : Mode → Text → List Piece
  | m, [] => m.finish
  | m, c :: rest => (step m c).1 ++ pieces (step m c).2 rest

-- A placeholder without a literal stays.
def Piece.text (literals : List Text) : Piece → Text
  | .byte c => [c]
  | .hole digits => literals[Text.digitsValue digits]?.getD (marker ++ digits)

def inlined (literals : List Text) (t : Text) : Text :=
  (pieces .outside t).flatMap (Piece.text literals)

-- Words.

-- Text without a placeholder that leads from one mode to the other.
def Keeps (m : Mode) (t : Text) (m' : Mode) : Prop :=
  ∀ rest, pieces m (t ++ rest) = t.map .byte ++ pieces m' rest

namespace Keeps

variable {m m' m'' : Mode} {s t : Text}

theorem nil : Keeps m [] m := fun _ => rfl

theorem append (hs : Keeps m s m') (ht : Keeps m' t m'') : Keeps m (s ++ t) m'' := by
  intro rest
  rw [List.append_assoc, hs, ht, List.map_append, List.append_assoc]

theorem cons {c : UInt8} (hc : Keeps m [c] m') (ht : Keeps m' t m'') : Keeps m (c :: t) m'' :=
  hc.append ht

theorem byte {c : UInt8} (h : step m c = ([.byte c], m')) : Keeps m [c] m' := by
  intro rest
  simp [pieces, h]

theorem between {closing : UInt8} (h : closing ∉ t) : Keeps (.quoted closing) t (.quoted closing) := by
  induction t with
  | nil => exact .nil
  | cons c t ih =>
    simp only [List.mem_cons, not_or] at h
    exact cons (byte (by simp [step, Ne.symm h.1])) (ih h.2)

theorem closing (c : UInt8) : Keeps (.quoted c) [c] .outside := byte (by simp [step])

end Keeps

-- Whether no byte opens quotes or a placeholder.
def isWord (t : Text) : Bool :=
  t.all fun c => c != Byte.quote && c != Byte.doubleQuote && c != atSign

theorem keeps_of_isWord {t : Text} (h : isWord t = true) : Keeps .outside t .outside := by
  induction t with
  | nil => exact .nil
  | cons c t ih =>
    simp only [isWord, List.all_cons, Bool.and_eq_true, bne_iff_ne] at h
    obtain ⟨⟨⟨hquote, hdouble⟩, hat⟩, ht⟩ := h
    exact .cons (.byte (by simp [step, start, hquote, hdouble, hat])) (ih ht)

-- Names.

theorem keeps_quoteByte (c : UInt8) :
    Keeps (.quoted Byte.doubleQuote) (quoteByte c) (.quoted Byte.doubleQuote) := by
  unfold quoteByte
  by_cases hc : c = Byte.doubleQuote
  · rw [if_pos hc]
    exact .cons (.closing _) (.byte rfl)
  · rw [if_neg hc]
    exact .between (by simpa using Ne.symm hc)

theorem keeps_flatMap {m : Mode} {f : UInt8 → Text} {t : Text} (h : ∀ c, Keeps m (f c) m) :
    Keeps m (t.flatMap f) m := by
  induction t with
  | nil => exact .nil
  | cons c t ih =>
    rw [List.flatMap_cons]
    exact (h c).append ih

theorem keeps_quotedSegment (segment : Text) : Keeps .outside (quotedSegment segment) .outside := by
  unfold quotedSegment
  by_cases hstar : segment = [Byte.star]
  · rw [if_pos hstar, hstar]
    exact .byte rfl
  · rw [if_neg hstar]
    exact .cons (.byte rfl) ((keeps_flatMap keeps_quoteByte).append (.closing _))

theorem keeps_join {separator : Text} {parts : List Text}
    (hseparator : Keeps .outside separator .outside) (h : ∀ p ∈ parts, Keeps .outside p .outside) :
    Keeps .outside (Text.join separator parts) .outside := by
  induction parts with
  | nil => exact .nil
  | cons p rest ih =>
    have hp := h p (by simp)
    have hrest := ih fun q hq => h q (List.mem_cons_of_mem p hq)
    cases rest with
    | nil => exact hp
    | cons q rest => exact (hp.append hseparator).append hrest

theorem keeps_quoted (name : Text) : Keeps .outside (quoted name) .outside := by
  refine keeps_join (.byte rfl) fun p hp => ?_
  obtain ⟨segment, -, rfl⟩ := List.mem_map.mp hp
  exact keeps_quotedSegment segment

theorem keeps_columnText (table : Option Text) (name : Text) :
    Keeps .outside (Term.columnText table name) .outside := by
  cases table with
  | none => exact keeps_quoted name
  | some aliasName => exact (keeps_quoted aliasName).append (.cons (.byte rfl) (keeps_quoted name))

-- Texts behind which anything may stand, and those behind which no digit may:
-- it would belong to the number of a placeholder.

variable {literals : List Text} {a b s t w : Text}

def Opens (t : Text) : Prop := ∀ c ∈ t.head?, Byte.isDigit c = false

theorem opens_cons {c : UInt8} (h : Byte.isDigit c = false) : Opens (c :: t) := by
  intro d hd
  obtain rfl : c = d := Option.some.inj hd
  exact h

def Closed (literals : List Text) (a b : Text) : Prop :=
  ∀ rest, inlined literals (a ++ rest) = b ++ inlined literals rest

def Inlines (literals : List Text) (a b : Text) : Prop :=
  ∀ rest, Opens rest → inlined literals (a ++ rest) = b ++ inlined literals rest

theorem flatMap_text_map_byte (t : Text) : (t.map Piece.byte).flatMap (Piece.text literals) = t := by
  induction t with
  | nil => rfl
  | cons c t ih =>
    rw [List.map_cons, List.flatMap_cons, ih]
    rfl

theorem Keeps.closed (h : Keeps .outside t .outside) : Closed literals t t := by
  intro rest
  rw [inlined, h, List.flatMap_append, flatMap_text_map_byte]
  rfl

theorem Closed.inlines (h : Closed literals a b) : Inlines literals a b := fun rest _ => h rest

theorem Inlines.inlined_eq (h : Inlines literals a b) : inlined literals a = b := by
  have hend := h [] (by simp [Opens])
  rw [List.append_nil] at hend
  rw [hend]
  exact List.append_nil b

-- Words that end the number of a placeholder in front of them.
def Breaks (w : Text) : Prop := (isWord w && w.head?.any fun c => !Byte.isDigit c) = true

instance (w : Text) : Decidable (Breaks w) := inferInstanceAs (Decidable (_ = _))

theorem Breaks.isWord (h : Breaks w) : isWord w = true := by
  simp only [Breaks, Bool.and_eq_true] at h
  exact h.1

theorem Breaks.opens (h : Breaks w) (t : Text) : Opens (w ++ t) := by
  simp only [Breaks, Bool.and_eq_true] at h
  cases w with
  | nil => cases h.2
  | cons c w => exact opens_cons (by simpa using h.2)

theorem closed_word (h : isWord w = true) : Closed literals w w := (keeps_of_isWord h).closed

theorem Closed.append {a' b' : Text} (h : Closed literals a b) (h' : Closed literals a' b') :
    Closed literals (a ++ a') (b ++ b') := by
  intro rest
  rw [List.append_assoc, h, h', List.append_assoc]

theorem Closed.word (h : Closed literals a b) (hw : isWord w = true) :
    Closed literals (a ++ w) (b ++ w) := h.append (closed_word hw)

theorem Closed.operand (h : Closed literals a b) (ht : Inlines literals s t) :
    Inlines literals (a ++ s) (b ++ t) := by
  intro rest hrest
  rw [List.append_assoc, h, ht rest hrest, List.append_assoc]

theorem Inlines.before (h : Inlines literals a b) (hw : Closed literals w w)
    (hopens : ∀ rest, Opens (w ++ rest)) : Closed literals (a ++ w) (b ++ w) := by
  intro rest
  rw [List.append_assoc, h _ (hopens rest), hw, List.append_assoc]

theorem Inlines.word (h : Inlines literals a b) (hw : Breaks w) :
    Closed literals (a ++ w) (b ++ w) := h.before (closed_word hw.isWord) hw.opens

theorem inlines_commaJoin {as bs : List Text} (h : List.Forall₂ (Inlines literals) as bs) :
    Inlines literals (Text.commaJoin as) (Text.commaJoin bs) := by
  have hcomma : Breaks ", " := by decide
  induction h with
  | nil => exact Keeps.nil.closed.inlines
  | @cons a b as bs hfirst hrest ih =>
    cases hrest with
    | nil => exact hfirst
    | cons _ _ => exact (hfirst.word hcomma).operand ih

-- A placeholder.

theorem pieces_numbered {digits : Text} (h : ∀ c ∈ digits, Byte.isDigit c = true) (before : Text)
    {rest : Text} (hrest : Opens rest) :
    pieces (.numbered before) (digits ++ rest) =
      numberPieces (before ++ digits) ++ pieces .outside rest := by
  induction digits generalizing before with
  | nil =>
    cases rest with
    | nil => simp [pieces, Mode.finish]
    | cons c rest =>
      have hc : Byte.isDigit c = false := hrest c rfl
      simp [pieces, step, hc]
  | cons d digits ih =>
    have hd : Byte.isDigit d = true := h d (by simp)
    have hdigits := ih (fun c hc => h c (List.mem_cons_of_mem d hc)) (before ++ [d])
    simpa [pieces, step, hd] using hdigits

theorem inlines_parameterName {index : Nat} {l : Text} (h : literals[index]? = some l) :
    Inlines literals (parameterName index) l := by
  intro rest hrest
  have hname : pieces .outside (parameterName index ++ rest) =
      pieces (.numbered []) (Text.ofNat index ++ rest) := rfl
  have hall : ∀ c ∈ Text.ofNat index, Byte.isDigit c = true := fun c hc =>
    Text.isDigit_of_mem_ofNat hc
  have hdigits := pieces_numbered hall [] hrest
  have hnumber : numberPieces (Text.ofNat index) = [.hole (Text.ofNat index)] := by
    simp [numberPieces, Text.ofNat_ne_nil]
  rw [List.nil_append, hnumber] at hdigits
  rw [inlined, hname, hdigits, List.flatMap_append, List.flatMap_singleton, Piece.text,
    Text.digitsValue_ofNat, h]
  rfl

-- The words of terms.

theorem isWord_operator (op : Operator) : isWord op.text = true := by
  cases op with
  | compare c => cases c <;> decide
  | arithmetic a => cases a <;> decide
  | _ => decide

theorem isWord_function (f : Function) : isWord f.text = true := by
  cases f <;> decide

theorem isWord_aggregate (f : Aggregate) : isWord f.text = true := by
  cases f <;> decide

theorem isWord_castType (type : CastType) : isWord type.text = true := by
  cases type <;> decide

theorem isWord_partText (part : Eval.DatePart) : isWord (partText part) = true := by
  cases part <;> decide

theorem plain_unitText (unit : Eval.Interval) : Text.Plain (unitText unit) := by
  cases unit <;> decide

theorem breaks_nullTest (negated : Bool) : Breaks (Term.nullTest negated) := by
  cases negated <;> decide

theorem isWord_likeWord (ignoreCase : Bool) : isWord (Term.likeWord ignoreCase) = true := by
  cases ignoreCase <;> decide

-- An amount of time stands in quotes.
theorem keeps_interval {before body : Text}
    (hbefore : Keeps .outside before (.quoted Byte.quote)) (hbody : Text.Plain body) :
    Keeps .outside (before ++ body ++ "')") .outside :=
  (hbefore.append (.between (hbody.not_mem rfl))).append fun _ => rfl

theorem inlines_patternText (leading trailing : Bool) (h : Inlines literals s t) :
    Inlines literals (Term.patternText leading trailing s) (Term.patternText leading trailing t) := by
  have hbeside : Keeps .outside Term.beside .outside := keeps_of_isWord (by decide)
  have hwildcard : Keeps .outside "'%'" .outside := fun _ => rfl
  have hfirst : Inlines literals ((if leading then "'%'" ++ Term.beside else []) ++ s)
      ((if leading then "'%'" ++ Term.beside else []) ++ t) := by
    refine Closed.operand ?_ h
    split
    · exact (hwildcard.append hbeside).closed
    · exact Keeps.nil.closed
  unfold Term.patternText
  cases trailing with
  | false => simpa using hfirst
  | true =>
    refine (hfirst.before (hbeside.append hwildcard).closed fun rest => ?_).inlines
    exact opens_cons (by decide)

theorem inlines_texts {items operands : List Term}
    (h : List.Forall₂ (fun a b => Inlines literals b.text a.text) items operands) :
    Inlines literals (Text.commaJoin (operands.map Term.text))
      (Text.commaJoin (items.map Term.text)) := by
  refine inlines_commaJoin ?_
  rw [List.forall₂_map_left_iff, List.forall₂_map_right_iff]
  exact h.flip

-- Operands between words. A word behind an operand ends the number of a placeholder.

theorem Inlines.between {before behind : Text} (hbefore : isWord before = true)
    (h : Inlines literals a b) (hbehind : Breaks behind) :
    Inlines literals (before ++ a ++ behind) (before ++ b ++ behind) :=
  (((closed_word hbefore).operand h).word hbehind).inlines

theorem Inlines.between₂ {before middle behind : Text} (hbefore : isWord before = true)
    (h : Inlines literals a b) (hmiddle : Breaks middle) (h' : Inlines literals s t)
    (hbehind : Breaks behind) :
    Inlines literals (before ++ a ++ middle ++ s ++ behind)
      (before ++ b ++ middle ++ t ++ behind) :=
  (((((closed_word hbefore).operand h).word hmiddle).operand h').word hbehind).inlines

theorem Inlines.between₃ {before first second behind c d : Text} (hbefore : isWord before = true)
    (h : Inlines literals a b) (hfirst : Breaks first) (h' : Inlines literals s t)
    (hsecond : Breaks second) (h'' : Inlines literals c d) (hbehind : Breaks behind) :
    Inlines literals (before ++ a ++ first ++ s ++ second ++ c ++ behind)
      (before ++ b ++ first ++ t ++ second ++ d ++ behind) :=
  (((((((closed_word hbefore).operand h).word hfirst).operand h').word hsecond).operand h'').word
    hbehind).inlines

theorem inlines_array {items operands : List Term}
    (h : List.Forall₂ (fun a b => Inlines literals b.text a.text) items operands) :
    Inlines literals (Term.array operands).text (Term.array items).text := by
  have hempty : operands.isEmpty = items.isEmpty := by
    rw [Bool.eq_iff_iff, List.isEmpty_iff_length_eq_zero, List.isEmpty_iff_length_eq_zero,
      ← h.length_eq]
  rw [Term.text, Term.text, hempty, Term.texts_eq_map, Term.texts_eq_map]
  split
  · exact (closed_word (by decide)).inlines
  · exact .between (by decide) (inlines_texts h) (by decide)

theorem inlines_isIn {item item' : Term} {items operands : List Term}
    (hitem : Inlines literals item'.text item.text)
    (h : List.Forall₂ (fun a b => Inlines literals b.text a.text) items operands) :
    Inlines literals (Term.isIn item' operands).text (Term.isIn item items).text := by
  rw [Term.text, Term.text, Term.texts_eq_map, Term.texts_eq_map]
  exact (((hitem.word (by decide)).operand (inlines_texts h)).word (by decide)).inlines

-- An interval behind an operand, by the words in front of what stands in its quotes.
theorem Inlines.interval {before body : Text} (h : Inlines literals a b)
    (hopens : ∀ rest, Opens (before ++ rest))
    (hbefore : Keeps .outside before (.quoted Byte.quote)) (hbody : Text.Plain body) :
    Inlines literals (a ++ (before ++ body ++ "')")) (b ++ (before ++ body ++ "')")) :=
  (h.before (keeps_interval hbefore hbody).closed fun rest => by
    rw [List.append_assoc, List.append_assoc]
    exact hopens _).inlines

-- A compound term, by the terms right below it.
theorem inlines_withOperands {t : Term} {operands : List Term} (ht : t.IsFrame)
    (h : List.Forall₂ (fun a b => Inlines literals b.text a.text) t.operands operands) :
    Inlines literals (t.withOperands operands).text t.text := by
  have hopen : Closed literals "(" "(" := closed_word (by decide)
  have hclose : Breaks ")" := by decide
  have hspace : Breaks " " := by decide
  cases t with
  | value | placeholder | column | groupKey => exact ht.elim
  | null | currentTimestamp | falsity | countRows =>
    cases h
    exact (closed_word (by decide)).inlines
  | array items => exact inlines_array h
  | operation op l r =>
    obtain _ | ⟨hl, _ | ⟨hr, _ | _⟩⟩ := h
    exact ((((hopen.operand hl).word hspace).word (isWord_operator op)).word hspace.isWord
      |>.operand hr |>.word hclose).inlines
  | isNull t negated =>
    obtain _ | ⟨ht, _ | _⟩ := h
    exact (Inlines.word ht (breaks_nullTest negated)).inlines
  | coalesce l r =>
    obtain _ | ⟨hl, _ | ⟨hr, _ | _⟩⟩ := h
    exact .between₂ (by decide) hl (by decide) hr hclose
  | not t =>
    obtain _ | ⟨ht, _ | _⟩ := h
    exact .between (by decide) ht hclose
  | negate t =>
    obtain _ | ⟨ht, _ | _⟩ := h
    exact (closed_word (by decide)).operand ht
  | cast t type =>
    obtain _ | ⟨ht, _ | _⟩ := h
    exact ((((closed_word (by decide)).operand ht).word (by decide)).word (isWord_castType type)
      |>.word hclose.isWord).inlines
  | conditional test a b =>
    obtain _ | ⟨htest, _ | ⟨ha, _ | ⟨hb, _ | _⟩⟩⟩ := h
    exact .between₃ (by decide) htest (by decide) ha (by decide) hb (by decide)
  | apply f t =>
    obtain _ | ⟨ht, _ | _⟩ := h
    exact ((((closed_word (isWord_function f)).append hopen).operand ht).word hclose).inlines
  | substring t start =>
    obtain _ | ⟨ht, _ | ⟨hstart, _ | _⟩⟩ := h
    exact .between₂ (by decide) ht (by decide) hstart (by decide)
  | substringFor t start count =>
    obtain _ | ⟨ht, _ | ⟨hstart, _ | ⟨hcount, _ | _⟩⟩⟩ := h
    exact .between₃ (by decide) ht (by decide) hstart (by decide) hcount hclose
  | extract part t =>
    obtain _ | ⟨ht, _ | _⟩ := h
    exact ((((closed_word (by decide)).word (isWord_partText part)).word (by decide)).operand ht
      |>.word hclose).inlines
  | addInterval t amount unit =>
    obtain _ | ⟨ht, _ | _⟩ := h
    have hbody : Text.Plain (amount ++ " " ++ unitText unit) :=
      (Text.Plain.append ‹_› (by decide)).append (plain_unitText unit)
    have hopening : Keeps .outside " + INTERVAL '" (.quoted Byte.quote) := fun _ => rfl
    have hinterval := (hopen.operand ht).interval (fun _ => opens_cons (by decide)) hopening hbody
    simpa [Term.withOperands, Term.text] using hinterval
  | addIntervals t amount unit =>
    obtain _ | ⟨ht, _ | ⟨hamount, _ | _⟩⟩ := h
    have hopening : Keeps .outside ") * INTERVAL '1 " (.quoted Byte.quote) := fun _ => rfl
    have hfirst := ((hopen.operand ht).word (w := " + (") (by decide)).operand hamount
    have hinterval := hfirst.interval (fun _ => opens_cons (by decide)) hopening (plain_unitText unit)
    simpa [Term.withOperands, Term.text] using hinterval
  | round t =>
    obtain _ | ⟨ht, _ | _⟩ := h
    exact .between (by decide) ht hclose
  | roundTo t digits =>
    obtain _ | ⟨ht, _ | ⟨hdigits, _ | _⟩⟩ := h
    exact .between₂ (by decide) ht (by decide) hdigits hclose
  | countWhere t =>
    obtain _ | ⟨ht, _ | _⟩ := h
    exact .between (by decide) ht hclose
  | aggregate f t =>
    obtain _ | ⟨ht, _ | _⟩ := h
    exact ((((closed_word (isWord_aggregate f)).append hopen).operand ht).word hclose).inlines
  | isIn item items =>
    obtain _ | @⟨_, item', _, items', hitem, hitems⟩ := h
    exact inlines_isIn hitem hitems
  | isElement item items =>
    obtain _ | ⟨hitem, _ | ⟨hitems, _ | _⟩⟩ := h
    exact ((Inlines.word hitem (by decide)).operand hitems |>.word hclose).inlines
  | like ignoreCase l r =>
    obtain _ | ⟨hl, _ | ⟨hr, _ | _⟩⟩ := h
    exact (((Inlines.word hl hspace).word (isWord_likeWord ignoreCase)).word hspace.isWord).operand hr
  | pattern leading trailing t =>
    obtain _ | ⟨ht, _ | _⟩ := h
    exact inlines_patternText leading trailing ht

end EntitySql.Sql.Inlining
