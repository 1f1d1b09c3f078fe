import EntitySql.Proofs.Sql.Containment
import EntitySql.Proofs.Sql.Frames
import EntitySql.Proofs.Sql.Inlining
import EntitySql.Proofs.Sql.Invariant
import EntitySql.Proofs.Sql.Outline

-- Terms between the words of a statement: their text is complete, closes its
-- parentheses, and has no word of set operations and no clause of a whole
-- statement outside of them.

namespace EntitySql.Sql.Outline

-- The words between the operands of set operations, and those of the clauses that
-- apply to the result.
def setWords : List Text := ["UNION", "INTERSECT", "EXCEPT"]

def tailWords : List Text := ["ORDER", "LIMIT", "OFFSET", "FETCH", "FOR"]

def reserved : List Text := setWords ++ tailWords

variable {banned : List Text} {a b s t w : Text}

-- What stands in quotes is one lexeme.

theorem feed_of_scanner {opening rest : Text} {m m' : Scanner.Mode}
    (hopening : outline.feed .between opening = ([], .quoted m))
    (hscanner : scanner.feed .blank opening = ([], m))
    (h : scanner.feed .blank (opening ++ rest) = ([], m')) :
    outline.feed .between (opening ++ rest) = ([], .quoted m') := by
  rw [Machine.feed_append, hscanner, Prod.mk.injEq, List.nil_append] at h
  exact Machine.feed_append_of_feed hopening (feed_quoted (Prod.ext h.1 h.2))

theorem fits_quoted {m : Scanner.Mode} {token : Token}
    (h : outline.feed .between t = ([], .quoted m))
    (hfinish : (Mode.quoted m).finish = some [.quoted token]) : Fits banned t := by
  have hlast : outline.finish (.quoted m) = some [.quoted token] := hfinish
  exact ⟨[.quoted token], by simp [lexemes?, Machine.read?, h, hlast], rfl⟩

-- Names.

theorem fits_quotedSegment (segment : Text) : Fits banned (quotedSegment segment) := by
  have hscanner := Scanner.feed_quotedSegment segment
  unfold quotedSegment Scanner.segmentMode at *
  by_cases hstar : segment = [Byte.star]
  · rw [if_pos hstar, hstar]
    exact ⟨[.sign Byte.star], rfl, rfl⟩
  · rw [if_neg hstar] at *
    rw [if_neg hstar] at hscanner
    exact fits_quoted (@feed_of_scanner [Byte.doubleQuote] _ _ _ rfl rfl hscanner) rfl

theorem continues_dot : Continues banned [Byte.dot] 0 0 := ⟨by decide, [.sign Byte.dot], rfl, rfl⟩

theorem fits_name (name : Text) : Fits banned (quoted name) := by
  refine fits_join continues_dot fun p hp => ?_
  obtain ⟨segment, -, rfl⟩ := List.mem_map.mp hp
  exact fits_quotedSegment segment

theorem fits_columnText (table : Option Text) (name : Text) :
    Fits banned (Term.columnText table name) := by
  cases table with
  | none => exact fits_name name
  | some aliasName =>
    have hname : Fits banned (quoted name) := fits_name name
    have hdotted := (Ends.word (fits_name aliasName) continues_dot).ending hname
    rwa [List.append_assoc] at hdotted

-- String literals.

theorem fits_stringLiteral (h : stringLiteral s = .ok t) : Fits banned t := by
  obtain ⟨escapes, hscanner⟩ := Scanner.feed_stringLiteral h
  unfold stringLiteral at h
  split at h
  · cases h
  · cases h
    by_cases hescapes : s.any fun c => (escapeLetter? c).isSome
    · rw [if_pos hescapes, List.append_assoc] at hscanner ⊢
      exact fits_quoted (@feed_of_scanner "E'" _ _ _ rfl rfl hscanner) rfl
    · rw [if_neg hescapes, List.append_assoc] at hscanner ⊢
      exact fits_quoted (@feed_of_scanner "'" _ _ _ rfl rfl hscanner) rfl

theorem fits_unquoted (h : Byte.quote ∉ t) : Fits banned (("'" : Text) ++ t ++ [Byte.quote]) := by
  have hscanner := Scanner.feed_unquotedLiteral h
  rw [List.append_assoc] at hscanner ⊢
  exact fits_quoted (@feed_of_scanner "'" _ _ _ rfl rfl hscanner) rfl

theorem fits_cast (h : Fits reserved t) (hopens : Opens w) (hw : Fits reserved w) :
    Fits reserved (t ++ w) :=
  Ends.append h hopens hw

theorem fits_unquotedCast (h : Byte.quote ∉ t) (hopens : Opens w) (hw : Fits reserved w) :
    Fits reserved (("'" : Text) ++ t ++ Byte.quote :: w) := by
  have hcast := fits_cast (fits_unquoted h) hopens hw
  rwa [List.append_assoc _ [Byte.quote], List.singleton_append] at hcast

-- Numerals.

-- What has been read of a numeral, and what is left open in it.

def InNumeral : Lexeme → Prop
  | .word w => Binary64.Numeral w
  | .sign _ => True
  | _ => False

def Mode.IsNumeral : Mode → Prop
  | .between => True
  | .word w => Binary64.Numeral w
  | .sign _ => True
  | _ => False

theorem start_numeral {c : UInt8} (h : Binary64.isNumeral c = true) :
    start c = ([], .word [c]) ∨ start c = ([.sign c], .between) ∨ start c = ([], .sign c) := by
  have hall : ∀ c : UInt8, Binary64.isNumeral c = true →
      start c = ([], .word [c]) ∨ start c = ([.sign c], .between) ∨ start c = ([], .sign c) :=
    forall_byte (by decide +kernel)
  exact hall c h

structure Numeric (c : UInt8) (r : List Lexeme × Mode) : Prop where
  lexemes : ∀ l ∈ r.1, InNumeral l
  mode : r.2.IsNumeral
  sign : ∀ s, r.2 = .sign s → s = c

theorem numeric_start {c : UInt8} (h : Binary64.isNumeral c = true) : Numeric c (start c) := by
  have hword : Binary64.Numeral [c] := .cons h .nil
  rcases start_numeral h with hstart | hstart | hstart
  · rw [hstart]
    exact ⟨by simp, hword, by simp⟩
  · rw [hstart]
    exact ⟨by simp [InNumeral], trivial, by simp⟩
  · rw [hstart]
    exact ⟨by simp, trivial, by simp⟩

theorem numeric_next {l : Lexeme} {c : UInt8} (hl : InNumeral l) (h : Binary64.isNumeral c = true) :
    Numeric c (next l c) where
  lexemes := List.forall_mem_cons.mpr ⟨hl, (numeric_start h).lexemes⟩
  mode := (numeric_start h).mode
  sign := (numeric_start h).sign

theorem numeric_step {m : Mode} {c : UInt8} (hm : m.IsNumeral) (h : Binary64.isNumeral c = true)
    (hcomment : ∀ s, m = .sign s → opensComment s c = false) : Numeric c (step m c) := by
  cases m with
  | between => exact numeric_start h
  | word w =>
    have hquote : c ≠ Byte.quote := by
      rintro rfl
      exact absurd h (by decide)
    by_cases hword : Quotation.isWordByte c
    · have hstep : step (.word w) c = ([], .word (w ++ [c])) := by simp [step, hword]
      rw [hstep]
      exact ⟨by simp, Binary64.Numeral.append hm (.cons h .nil), by simp⟩
    · have hstep : step (.word w) c = next (.word w) c := by simp [step, hword, hquote]
      rw [hstep]
      exact numeric_next hm h
  | sign s =>
    have hstep : step (.sign s) c = next (.sign s) c := by simp [step, hcomment s rfl]
    rw [hstep]
    exact numeric_next trivial h
  | quoted m => exact hm.elim
  | refused => exact hm.elim

theorem numeric_feed {m : Mode} (hm : m.IsNumeral) (ht : Binary64.Numeral t)
    (hhead : ∀ s, m = .sign s → ∀ c ∈ t.head?, opensComment s c = false)
    (hchain : t.IsChain fun a b => opensComment a b = false) :
    (∀ l ∈ (outline.feed m t).1, InNumeral l) ∧ (outline.feed m t).2.IsNumeral := by
  induction t generalizing m with
  | nil => exact ⟨by simp [Machine.feed], hm⟩
  | cons c t ih =>
    obtain ⟨hc, ht⟩ := List.forall_mem_cons.mp ht
    obtain ⟨hnext, hchain⟩ := List.isChain_cons.mp hchain
    have hstep := numeric_step hm hc fun s hs => hhead s hs c rfl
    have hrest := ih hstep.mode ht (fun s hs d hd => hstep.sign s hs ▸ hnext d hd) hchain
    exact ⟨List.forall_mem_append.mpr ⟨hstep.lexemes, hrest.1⟩, hrest.2⟩

theorem upper_ne_of_numeral (h : Binary64.Numeral w) : w.upper ∉ reserved := by
  have hfolded : ∀ c : UInt8, Binary64.isNumeral c = true →
      Binary64.isNumeral (Byte.toLower (Byte.toUpper c)) = true := forall_byte (by decide +kernel)
  have hletter : ∀ r ∈ reserved, ∃ c ∈ r, Binary64.isNumeral (Byte.toLower c) = false := by
    decide
  intro hmem
  obtain ⟨c, hc, hcontra⟩ := hletter _ hmem
  obtain ⟨d, hd, rfl⟩ := List.mem_map.mp hc
  rw [hfolded d (h d hd)] at hcontra
  cases hcontra

theorem depthBehind?_of_forall {ls : List Lexeme} {i : Nat}
    (h : ∀ l ∈ ls, depth? banned i l = some i) : depthBehind? banned i ls = some i := by
  induction ls with
  | nil => rfl
  | cons l ls ih =>
    obtain ⟨hl, hls⟩ := List.forall_mem_cons.mp h
    exact Option.bind_eq_some_iff.mpr ⟨i, hl, ih hls⟩

theorem fits_numeral (ht : Binary64.Numeral t) (hinert : Quotation.Inert t) : Fits reserved t := by
  obtain ⟨hlexemes, hmode⟩ := numeric_feed (m := .between) trivial ht (by simp) hinert.uncommented
  have hfinish : ∃ last, (outline.feed .between t).2.finish = some last ∧
      ∀ l ∈ last, InNumeral l := by
    cases hlast : (outline.feed .between t).2 with
    | between => exact ⟨[], rfl, by simp⟩
    | word w =>
      rw [hlast] at hmode
      exact ⟨[.word w], rfl, List.forall_mem_singleton.mpr hmode⟩
    | sign s => exact ⟨[.sign s], rfl, List.forall_mem_singleton.mpr trivial⟩
    | quoted m =>
      rw [hlast] at hmode
      exact hmode.elim
    | refused =>
      rw [hlast] at hmode
      exact hmode.elim
  obtain ⟨last, hlast, hnumeral⟩ := hfinish
  refine ⟨_, Option.map_eq_some_iff.mpr ⟨last, hlast, rfl⟩, depthBehind?_of_forall fun l hl => ?_⟩
  have hl : InNumeral l := (List.forall_mem_append.mpr ⟨hlexemes, hnumeral⟩) l hl
  cases l with
  | word w => simp [depth?, upper_ne_of_numeral hl]
  | sign s => rfl
  | _ => exact hl.elim

theorem numeral_seventeenDigits {x : Float} {negative : Bool} {m : Nat} {e : Int}
    (hx : Binary64.ofFloat x = .finite negative m e) :
    Binary64.Numeral (Binary64.seventeenDigits x) := by
  have hdigits := (Binary64.Numeral.significand 17 (Binary64.magnitude m e).1
    (Binary64.magnitude m e).2).dropTrailingZeros
  simp only [Binary64.seventeenDigits, hx]
  refine Binary64.Numeral.append (.signText negative) ?_
  split
  · exact show Binary64.Numeral (Text.ofString "0") by decide +kernel
  · split
    · exact hdigits.pointed.append (.exponentText _)
    · exact hdigits.positional _

theorem fits_ofInt (n : Int) : Fits reserved (Text.ofInt n) := fits_numeral (.ofInt n) (.ofInt n)

theorem fits_doubleLiteral (x : Float) : Fits reserved (doubleLiteral x) := by
  unfold doubleLiteral
  split
  · decide
  · next negative _ => cases negative <;> decide
  · next hx => exact fits_numeral (numeral_seventeenDigits hx) (Quotation.inert_seventeenDigits hx)

-- Literals of all values.

theorem continues_comma (i : Nat) : Continues banned ", " i i :=
  ⟨by decide, [.sign Byte.comma], rfl, rfl⟩

theorem fits_commaJoin {parts : List Text} (h : ∀ p ∈ parts, Fits banned p) :
    Fits banned (Text.commaJoin parts) :=
  fits_join (continues_comma 0) h

theorem fits_array {parts : List Text} (h : ∀ p ∈ parts, Fits reserved p) :
    Fits reserved ("ARRAY[" ++ Text.commaJoin parts ++ "]") := by
  have hopening : Leads reserved "ARRAY[" 0 0 := by decide
  exact ((hopening.operand (fits_commaJoin h)).word (by decide)).ends

mutual

theorem fits_literal {v : Value} {t : Text} (h : literal v = .ok t) : Fits reserved t := by
  cases v with
  | null =>
    cases h
    decide
  | bool b =>
    cases h
    cases b <;> decide
  | int n =>
    cases h
    exact fits_ofInt _
  | double x =>
    cases h
    exact fits_doubleLiteral x
  | string s => exact fits_stringLiteral h
  | uuid u =>
    cases h
    exact fits_unquotedCast ((Text.Plain.uuid u).not_mem rfl) (w := "::uuid") (by decide)
      (by decide)
  | timestamp s =>
    cases h
    unfold timestampLiteral
    rw [List.append_assoc _ ("'::timestamp" : Text)]
    have hcast : Opens ("::timestamp" ++ if s.zoned then Text.ofString "tz" else []) ∧
        Fits reserved ("::timestamp" ++ if s.zoned then Text.ofString "tz" else []) := by
      cases s.zoned <;> decide
    exact fits_unquotedCast ((Text.Plain.timestamp s).not_mem rfl) hcast.1 hcast.2
  | bytes b =>
    cases h
    exact fits_unquotedCast (Text.quote_not_mem_hexBody b) (w := "::bytea") (by decide) (by decide)
  | array items =>
    rw [literal, Result.bind_eq_ok] at h
    obtain ⟨parts, hparts, h⟩ := h
    split at h
    · cases h
      decide
    · cases h
      exact fits_array (fits_literals hparts)
  | json j =>
    rw [literal, Result.bind_eq_ok] at h
    obtain ⟨quoted, hquoted, h⟩ := h
    cases h
    exact fits_cast (fits_stringLiteral hquoted) (by decide) (by decide)
  | inet a =>
    rw [literal, Result.bind_eq_ok] at h
    obtain ⟨quoted, hquoted, h⟩ := h
    cases h
    exact fits_cast (fits_stringLiteral hquoted) (by decide) (by decide)
termination_by sizeOf v

theorem fits_literals {items : List Value} {parts : List Text} (h : literals items = .ok parts) :
    ∀ p ∈ parts, Fits reserved p := by
  cases items with
  | nil =>
    cases h
    simp
  | cons v rest =>
    rw [literals, Result.bind_eq_ok] at h
    obtain ⟨part, hpart, h⟩ := h
    obtain ⟨more, hmore, h⟩ := Result.bind_eq_ok.mp h
    cases h
    exact List.forall_mem_cons.mpr ⟨fits_literal hpart, fits_literals hmore⟩
termination_by sizeOf items

end

-- Placeholders.

theorem feed_digits {digits : Text} (h : ∀ c ∈ digits, Byte.isDigit c = true) (w : Text) :
    outline.feed (.word w) digits = ([], .word (w ++ digits)) := by
  induction digits generalizing w with
  | nil => simp [Machine.feed]
  | cons c rest ih =>
    obtain ⟨hc, hrest⟩ := List.forall_mem_cons.mp h
    have hword : Quotation.isWordByte c = true := by
      simp [Quotation.isWordByte, Byte.isAlphanumeric, hc]
    have hstep : outline.step (.word w) c = ([], .word (w ++ [c])) := by
      simp [outline, step, hword]
    simp [Machine.feed, hstep, ih hrest]

theorem fits_parameterName (index : Nat) : Fits reserved (parameterName index) := by
  have hmarker : outline.feed .between "@p" = ([.sign atSign], .word [letterP]) := by
    decide
  have hdigits : ∀ c ∈ Text.ofNat index, Byte.isDigit c = true := fun c hc =>
    Text.isDigit_of_mem_ofNat hc
  have hfeed := Machine.feed_append_of_feed hmarker (feed_digits hdigits [letterP])
  have hword : Text.upper ([letterP] ++ Text.ofNat index) ∉ reserved := by
    have hall : ∀ r ∈ reserved, r.head? ≠ some (Byte.toUpper letterP) := by decide
    intro hmem
    exact hall _ hmem rfl
  refine ⟨[.sign atSign, .word ([letterP] ++ Text.ofNat index)], ?_, ?_⟩
  · rw [lexemes?, Machine.read?, parameterName, hfeed]
    rfl
  · refine depthBehind?_of_forall ?_
    simp only [List.forall_mem_cons, depth?]
    simpa using hword

-- A sign in front of a text that does not begin with it, too.
theorem fits_minus (h : Fits reserved t) (hhead : t.head? ≠ some Byte.minus) :
    Fits reserved ("-" ++ t) := by
  obtain ⟨ls, hls, hdepth⟩ := h
  have hsign : outline.feed .between "-" = ([], .sign Byte.minus) := rfl
  refine ⟨.sign Byte.minus :: ls, ?_, hdepth⟩
  rw [lexemes?, Machine.read?_append_of_feed hsign]
  cases t with
  | nil =>
    cases hls
    rfl
  | cons c rest =>
    have hslash : Byte.minus ≠ Byte.slash := by decide
    have hminus : c ≠ Byte.minus := fun hc => hhead (by rw [hc]; rfl)
    have hstep : outline.step (.sign Byte.minus) c = next (.sign Byte.minus) c := by
      simp [outline, step, opensComment, hslash, hminus]
    have hbetween : outline.step .between c = start c := rfl
    simp only [lexemes?, Machine.read?, Machine.feed, hbetween] at hls
    obtain ⟨last, hlast, rfl⟩ := Option.map_eq_some_iff.mp hls
    simp [Machine.read?, Machine.feed, hstep, next, hlast]

-- Frames around terms.

theorem closes (i : Nat) : Continues banned ")" (i + 1) i := ⟨by decide, [.closing], rfl, rfl⟩

theorem leads_operator (op : Operator) : Continues reserved (" " ++ op.text ++ " ") 1 1 := by
  cases op with
  | compare c => cases c <;> decide
  | arithmetic a => cases a <;> decide
  | _ => decide

theorem leads_function (f : Function) : Leads reserved (f.text ++ "(") 0 1 := by
  cases f <;> decide

theorem leads_aggregate (f : Aggregate) : Leads reserved (f.text ++ "(") 0 1 := by
  cases f <;> decide

theorem continues_castType (type : CastType) :
    Continues reserved (" AS " ++ type.text ++ ")") 1 0 := by
  cases type <;> decide

theorem leads_extract (part : Eval.DatePart) :
    Leads reserved ("EXTRACT(" ++ partText part ++ " FROM ") 0 1 := by
  cases part <;> decide

theorem continues_like (ignoreCase : Bool) :
    Continues reserved (" " ++ Term.likeWord ignoreCase ++ " ") 0 0 := by
  cases ignoreCase <;> decide

-- The words behind operands, from the depth in front of them on.
def Spaced : Nat → List (Term × Text) → Prop
  | i, [] => i = 0
  | i, [p] => (p.2 = [] ∧ i = 0) ∨ Opens p.2 ∧ Ends reserved p.2 i 0
  | i, p :: rest => ∃ j, Continues reserved p.2 i j ∧ Spaced j rest

variable {i j : Nat} {parts : List (Term × Text)}

theorem spaced_cons {p : Term × Text} (hp : Continues reserved p.2 i j) (h : Spaced j parts) :
    Spaced i (p :: parts) := by
  cases parts with
  | nil =>
    obtain rfl : j = 0 := h
    exact .inr ⟨hp.1, hp.2.ends⟩
  | cons q rest => exact ⟨j, hp, h⟩

theorem spaced_closed (t : Term) : Spaced 1 [(t, ")")] := spaced_cons (closes 0) rfl

theorem spaced_last (t : Term) (hopens : Opens w) (hends : Ends reserved w i 0) :
    Spaced i [(t, w)] :=
  .inr ⟨hopens, hends⟩

theorem spaced_nullTest (t : Term) (negated : Bool) : Spaced 0 [(t, Term.nullTest negated)] := by
  cases negated <;> exact spaced_last t (by decide) (by decide)

theorem leads_wildcard (leading : Bool) :
    Leads reserved (if leading then "'%'" ++ Term.beside else []) 0 0 := by
  cases leading <;> decide

theorem spaced_wildcard (t : Term) (trailing : Bool) :
    Spaced 0 [(t, if trailing then Term.beside ++ "'%'" else [])] := by
  cases trailing with
  | false => exact .inl ⟨rfl, rfl⟩
  | true => exact spaced_last t (w := Term.beside ++ "'%'") (by decide) (by decide)

-- An amount of time in front of the last parenthesis.
theorem spaced_interval (t : Term) (hw : Continues reserved w i 1) {body : Text}
    (hbody : Text.Plain body) :
    Spaced i [(t, w ++ ("'" ++ body ++ [Byte.quote]) ++ ")")] := by
  have hquoted := hw.2.operand (fits_unquoted (hbody.not_mem rfl))
  refine spaced_last t ?_ (hquoted.word (closes 0)).ends
  rw [List.append_assoc]
  exact hw.1.append _

theorem spaced_separated {last : Text} (hlast : Continues reserved last i 0) {items : List Term}
    (hne : items ≠ []) : Spaced i (Term.separated ", " last items) := by
  induction items with
  | nil => exact absurd rfl hne
  | cons t rest ih =>
    cases rest with
    | nil => exact spaced_cons hlast rfl
    | cons u rest => exact spaced_cons (continues_comma i) (ih (List.cons_ne_nil u rest))

-- A frame keeps its operands apart, unless it is a sign.
theorem spaced_frame {t : Term} (ht : t.IsFrame) (hminus : ∀ u, t ≠ .negate u) :
    (t.behind = [] ∧ Fits reserved t.opening) ∨
      (t.behind ≠ [] ∧ ∃ i, Leads reserved t.opening 0 i ∧ Spaced i t.behind) := by
  have hopen : Leads reserved "(" 0 1 := by decide
  cases t with
  | value literal => exact ht.elim
  | placeholder index => exact ht.elim
  | column table name => exact ht.elim
  | groupKey sql => exact ht.elim
  | negate u => exact absurd rfl (hminus u)
  | null => exact .inl ⟨rfl, show Fits reserved "NULL" by decide⟩
  | currentTimestamp => exact .inl ⟨rfl, show Fits reserved currentTimestamp by decide⟩
  | falsity => exact .inl ⟨rfl, show Fits reserved "FALSE" by decide⟩
  | countRows => exact .inl ⟨rfl, show Fits reserved "COUNT(*)" by decide⟩
  | array items =>
    cases items with
    | nil => exact .inl ⟨rfl, show Fits reserved emptyArray by decide⟩
    | cons first rest =>
      have hopening : Leads reserved "ARRAY[" 0 0 := by decide
      have hbracket : Continues reserved "]" 0 0 := by decide
      refine .inr ⟨?_, 0, hopening, spaced_separated hbracket (List.cons_ne_nil first rest)⟩
      cases rest <;> simp [Term.behind, Term.separated]
  | operation op l r =>
    exact .inr ⟨by simp [Term.behind], 1, hopen,
      spaced_cons (leads_operator op) (spaced_closed r)⟩
  | isNull t negated =>
    exact .inr ⟨by simp [Term.behind], 0, .nil, spaced_nullTest t negated⟩
  | coalesce l r =>
    have hopening : Leads reserved "COALESCE(" 0 1 := by decide
    exact .inr ⟨by simp [Term.behind], 1, hopening,
      spaced_cons (continues_comma 1) (spaced_closed r)⟩
  | not t =>
    have hopening : Leads reserved "NOT (" 0 1 := by decide
    exact .inr ⟨by simp [Term.behind], 1, hopening, spaced_closed t⟩
  | cast t type =>
    have hopening : Leads reserved "CAST(" 0 1 := by decide
    exact .inr ⟨by simp [Term.behind], 1, hopening, spaced_cons (continues_castType type) rfl⟩
  | conditional test a b =>
    have hopening : Leads reserved "CASE WHEN " 0 0 := by decide
    have hthen : Continues reserved " THEN " 0 0 := by decide
    have helse : Continues reserved " ELSE " 0 0 := by decide
    have hend : Spaced 0 [(b, " END")] := spaced_last b (by decide) (by decide)
    exact .inr ⟨by simp [Term.behind], 0, hopening, spaced_cons hthen (spaced_cons helse hend)⟩
  | apply f t => exact .inr ⟨by simp [Term.behind], 1, leads_function f, spaced_closed t⟩
  | substring t start =>
    have hopening : Leads reserved "SUBSTRING(" 0 1 := by decide
    have hfrom : Continues reserved " FROM (" 1 2 := by decide
    have hclosing : Continues reserved " + 1))" 2 0 := by decide
    exact .inr ⟨by simp [Term.behind], 1, hopening, spaced_cons hfrom (spaced_cons hclosing rfl)⟩
  | substringFor t start count =>
    have hopening : Leads reserved "SUBSTRING(" 0 1 := by decide
    have hfrom : Continues reserved " FROM (" 1 2 := by decide
    have hfor : Continues reserved " + 1) FOR " 2 1 := by decide
    exact .inr ⟨by simp [Term.behind], 1, hopening,
      spaced_cons hfrom (spaced_cons hfor (spaced_closed count))⟩
  | extract part t => exact .inr ⟨by simp [Term.behind], 1, leads_extract part, spaced_closed t⟩
  | addInterval t amount unit =>
    have hplus : Continues reserved " + INTERVAL " 1 1 := by decide
    have hbody : Text.Plain (amount ++ " " ++ unitText unit) :=
      (Text.Plain.append ht (by decide)).append (Inlining.plain_unitText unit)
    have hsplit : Text.ofString " + INTERVAL '" = Text.ofString " + INTERVAL " ++ "'" := by decide
    have hclosing : Text.ofString "')" = Byte.quote :: Text.ofString ")" := by decide
    refine .inr ⟨by simp [Term.behind], 1, hopen, ?_⟩
    simpa [Term.behind, hsplit, hclosing] using spaced_interval t hplus hbody
  | addIntervals t amount unit =>
    have hplus : Continues reserved " + (" 1 2 := by decide
    have htimes : Continues reserved ") * INTERVAL " 2 1 := by decide
    have hbody : Text.Plain ("1 " ++ unitText unit) :=
      Text.Plain.append (by decide) (Inlining.plain_unitText unit)
    have hsplit : Text.ofString ") * INTERVAL '1 " =
        Text.ofString ") * INTERVAL " ++ "'" ++ "1 " := by decide
    have hclosing : Text.ofString "')" = Byte.quote :: Text.ofString ")" := by decide
    refine .inr ⟨by simp [Term.behind], 1, hopen, spaced_cons hplus ?_⟩
    simpa [hsplit, hclosing] using spaced_interval amount htimes hbody
  | round t =>
    have hopening : Leads reserved "ROUND(" 0 1 := by decide
    exact .inr ⟨by simp [Term.behind], 1, hopening, spaced_closed t⟩
  | roundTo t digits =>
    have hopening : Leads reserved "ROUND((" 0 2 := by decide
    have hcast : Continues reserved ")::numeric, " 2 1 := by decide
    exact .inr ⟨by simp [Term.behind], 2, hopening, spaced_cons hcast (spaced_closed digits)⟩
  | countWhere t =>
    have hopening : Leads reserved "COUNT(*) FILTER (WHERE " 0 1 := by decide
    exact .inr ⟨by simp [Term.behind], 1, hopening, spaced_closed t⟩
  | aggregate f t => exact .inr ⟨by simp [Term.behind], 1, leads_aggregate f, spaced_closed t⟩
  | isIn item items =>
    cases items with
    | nil =>
      have hempty : Continues reserved " IN ()" 0 0 := by decide
      exact .inr ⟨by simp [Term.behind], 0, .nil, spaced_cons hempty rfl⟩
    | cons first items =>
      have hin : Continues reserved " IN (" 0 1 := by decide
      exact .inr ⟨by simp [Term.behind], 0, .nil,
        spaced_cons hin (spaced_separated (closes 0) (List.cons_ne_nil first items))⟩
  | isElement item items =>
    have hany : Continues reserved " = ANY(" 0 1 := by decide
    exact .inr ⟨by simp [Term.behind], 0, .nil, spaced_cons hany (spaced_closed items)⟩
  | like ignoreCase l r =>
    exact .inr ⟨by simp [Term.behind], 0, .nil,
      spaced_cons (continues_like ignoreCase) (.inl ⟨rfl, rfl⟩)⟩
  | pattern leading trailing t =>
    exact .inr ⟨by simp [Term.behind], 0, leads_wildcard leading, spaced_wildcard t trailing⟩

theorem ends_spread (hspaced : Spaced i parts) (hne : parts ≠ [])
    (h : ∀ p ∈ parts, Fits reserved p.1.text) : Ends reserved (Term.spread parts) i 0 := by
  induction parts generalizing i with
  | nil => exact absurd rfl hne
  | cons p rest ih =>
    obtain ⟨hp, hrest⟩ := List.forall_mem_cons.mp h
    rw [Term.spread, List.flatMap_cons]
    cases rest with
    | nil =>
      rw [List.flatMap_nil, List.append_nil]
      rcases hspaced with ⟨hnone, rfl⟩ | ⟨hopens, hends⟩
      · rwa [hnone, List.append_nil]
      · exact (hp.at i).append hopens hends
    | cons q rest =>
      obtain ⟨j, hcontinues, hspaced⟩ := hspaced
      exact (Ends.word (hp.at i) hcontinues).ending (ih hspaced (List.cons_ne_nil q rest) hrest)

-- A compound term, by the terms right below it.
theorem fits_frame {t : Term} (ht : t.IsFrame)
    (hminus : ∀ u, t = .negate u → u.text.head? ≠ some Byte.minus)
    (h : ∀ o ∈ t.operands, Fits reserved o.text) : Fits reserved t.text := by
  by_cases hsign : ∃ u, t = .negate u
  · obtain ⟨u, rfl⟩ := hsign
    exact fits_minus (h u (List.mem_singleton_self u)) (hminus u rfl)
  · have hparts : ∀ p ∈ t.behind, Fits reserved p.1.text := fun p hp =>
      h p.1 (t.map_fst_behind ▸ List.mem_map_of_mem hp)
    rw [t.text_eq_spread]
    rcases spaced_frame ht fun u hu => hsign ⟨u, hu⟩ with
      ⟨hnone, hfits⟩ | ⟨hsome, i, hleads, hspaced⟩
    · rwa [hnone, Term.spread, List.flatMap_nil, List.append_nil]
    · exact hleads.ending (ends_spread hspaced hsome hparts)

-- No sign stands right before another one: together they would open a comment.
def SingleSigned (t : Term) : Prop :=
  ∀ u, Term.Occurs (.negate u) t → u.text.head? ≠ some Byte.minus

theorem SingleSigned.of_operands {t : Term} (ht : ∀ u, t ≠ .negate u)
    (h : ∀ o ∈ t.operands, SingleSigned o) : SingleSigned t := by
  intro u hu
  cases hu with
  | here => exact absurd rfl (ht u)
  | inside hv hu => exact h _ hv u hu

-- Compiled terms.
theorem invariant_fits {c : Compiler} {group : Compiler.GroupColumns}
    (hgroup : ∀ sql ∈ group.getD [], Fits reserved sql) :
    c.Invariant group (fun _ => True) fun t => SingleSigned t → Fits reserved t.text where
  frame ht h hsigned := by
    refine fits_frame ht (fun u hu => hsigned u (hu ▸ .here)) fun o ho => ?_
    exact h o ho fun u hu => hsigned u (.inside ho hu)
  value hl _ := fits_literal hl
  placeholder index _ := fits_parameterName index
  groupKey sql hsql _ := hgroup sql hsql
  row _ _ _ ht _ := by
    obtain ⟨table, column, rfl⟩ := Compiler.exists_column_of_rowMember ht
    exact fits_columnText table column

end EntitySql.Sql.Outline
