import EntitySql.Proofs.Run
import EntitySql.Proofs.Sql.Operands

-- Literals as the scanner reads them: every literal of a value is one operand,
-- whatever stands inside its quotes and brackets.

namespace EntitySql.Sql

namespace Scanner

theorem feed_unquoted {body : Text} (h : Byte.quote ∉ body) (t : Text) :
    scanner.feed (.string false t) body = ([], .string false (t ++ body)) := by
  induction body generalizing t with
  | nil => simp [Machine.feed]
  | cons c rest ih =>
    simp only [List.mem_cons, not_or] at h
    obtain ⟨hc, hrest⟩ := h
    have hstep : scanner.step (.string false t) c = ([], .string false (t ++ [c])) := by
      simp [scanner, step, Ne.symm hc]
    simp [Machine.feed, hstep, ih hrest]

theorem feed_literalByte {escapes : Bool} {c : UInt8}
    (h : escapes = true ∨ escapeLetter? c = none) (t : Text) :
    scanner.feed (.string escapes t) (literalByte c) = ([], .string escapes (t ++ literalByte c)) := by
  unfold literalByte
  by_cases hquote : c = Byte.quote
  · subst hquote
    simp [Machine.feed, scanner, step]
  · rw [if_neg hquote]
    cases hletter : escapeLetter? c with
    | none =>
      have hbackslash : c ≠ Byte.backslash := by
        rintro rfl
        exact absurd hletter (by decide)
      simp [Machine.feed, scanner, step, hquote, hbackslash]
    | some letter =>
      have hescapes : escapes = true := h.resolve_right (by simp [hletter])
      subst hescapes
      have hne : Byte.backslash ≠ Byte.quote := by decide
      simp [Machine.feed, scanner, step, hne]

theorem feed_literalBytes {escapes : Bool} {s : Text}
    (h : escapes = true ∨ ∀ c ∈ s, escapeLetter? c = none) (t : Text) :
    scanner.feed (.string escapes t) (s.flatMap literalByte) =
      ([], .string escapes (t ++ s.flatMap literalByte)) := by
  induction s generalizing t with
  | nil => simp [Machine.feed]
  | cons c rest ih =>
    have hc := feed_literalByte (c := c) (h.imp_right fun hall => hall c (by simp)) t
    have hrest := ih (h.imp_right fun hall d hd => hall d (List.mem_cons_of_mem c hd))
      (t ++ literalByte c)
    rw [List.flatMap_cons, Machine.feed_append_of_feed hc hrest]
    simp

theorem feed_closing {opening body : Text} {escapes : Bool}
    (hopening : scanner.feed .blank opening = ([], .string escapes opening))
    (hbody : scanner.feed (.string escapes opening) body = ([], .string escapes (opening ++ body))) :
    scanner.feed .blank (opening ++ body ++ [Byte.quote]) =
      ([], .stringQuote escapes (opening ++ body ++ [Byte.quote])) := by
  have hquote : scanner.feed (.string escapes (opening ++ body)) [Byte.quote] =
      ([], .stringQuote escapes (opening ++ body ++ [Byte.quote])) := by simp [Machine.feed, scanner, step]
  exact Machine.feed_append_of_feed (Machine.feed_append_of_feed hopening hbody) hquote

-- Only a second quote could go on with a complete literal.
theorem feed_stringLiteral {s t : Text} (h : stringLiteral s = .ok t) :
    ∃ escapes, scanner.feed .blank t = ([], .stringQuote escapes t) := by
  unfold stringLiteral at h
  split at h
  · cases h
  · cases h
    by_cases hany : s.any fun c => (escapeLetter? c).isSome
    · rw [if_pos hany]
      exact ⟨true, feed_closing rfl (feed_literalBytes (.inl rfl) _)⟩
    · rw [if_neg hany]
      have hall : ∀ c ∈ s, escapeLetter? c = none := by
        simpa using hany
      exact ⟨false, feed_closing rfl (feed_literalBytes (.inr hall) _)⟩

theorem feed_unquotedLiteral {body : Text} (h : Byte.quote ∉ body) :
    scanner.feed .blank (("'" : Text) ++ body ++ [Byte.quote]) =
      ([], .stringQuote false (("'" : Text) ++ body ++ [Byte.quote])) :=
  feed_closing rfl (feed_unquoted h _)

end Scanner

-- A literal alone, and one with a cast to a type of one word.
theorem scans_quoted {t : Text} {escapes : Bool}
    (h : scanner.feed .blank t = ([], .stringQuote escapes t)) : Scans t := by
  have htokens : tokens? t = some [.string t] := by
    rw [tokens?, Machine.read?, h]
    rfl
  exact .of_isPlain htokens (by simp) (by simp)

theorem scans_cast {t cast : Text} (type : Text) {escapes : Bool}
    (h : scanner.feed .blank t = ([], .stringQuote escapes t))
    (hcast : scanner.feed (.stringQuote escapes t) cast = ([.string t, .sign "::"], .word type))
    (htype : (Token.word type).isPlain = true) : Scans (t ++ cast) := by
  have htokens : tokens? (t ++ cast) = some [.string t, .sign "::", .word type] := by
    rw [tokens?, Machine.read?, Machine.feed_append_of_feed h hcast]
    rfl
  refine .of_isPlain htokens (by simp) ?_
  simp only [List.forall_mem_cons, isPlain_string, htype]
  simp
  decide

-- The text of a value that needs no escapes, between quotes and with a cast.
theorem scans_unquoted {body cast : Text} (type : Text) (h : Byte.quote ∉ body)
    (hcast : ∀ t, scanner.feed (.stringQuote false t) cast = ([.string t, .sign "::"], .word type))
    (htype : (Token.word type).isPlain = true) :
    Scans (("'" : Text) ++ body ++ Byte.quote :: cast) := by
  have hscans := scans_cast type (Scanner.feed_unquotedLiteral h) (hcast _) htype
  rwa [List.append_assoc _ [Byte.quote], List.singleton_append] at hscans

-- Inside brackets, commas belong to the operand.
theorem foldlM_commaTokens {items : List (List Token)} (h : ∀ ts ∈ items, IsOperand ts)
    (depth : Nat) :
    (commaTokens items).foldlM Token.depthBehind? (depth + 1) = some (depth + 1) := by
  induction items with
  | nil => rfl
  | cons ts rest ih =>
    have hts := (h ts (by simp)).balanced (depth + 1)
    have hrest := ih fun us hus => h us (List.mem_cons_of_mem ts hus)
    cases rest with
    | nil => exact hts
    | cons us rest =>
      have hcomma : Token.depthBehind? (depth + 1) .comma = some (depth + 1) := rfl
      simp [commaTokens, List.foldlM_append, hts, hcomma, hrest]

theorem IsOperand.append {a b : List Token} (ha : IsOperand a) (hb : IsOperand b) :
    IsOperand (a ++ b) := by
  refine ⟨by simp [ha.ne_nil], fun depth => ?_⟩
  rw [List.foldlM_append, ha.balanced]
  exact hb.balanced depth

theorem isOperand_brackets {items : List (List Token)} (h : ∀ ts ∈ items, IsOperand ts) :
    IsOperand (.openBracket :: commaTokens items ++ [.closeBracket]) := by
  refine ⟨by simp, fun depth => ?_⟩
  have hopen : Token.depthBehind? depth .openBracket = some (depth + 1) := by
    simp [Token.depthBehind?]
    exact fun _ => by decide
  have hclose : Token.depthBehind? (depth + 1) .closeBracket = some depth := rfl
  simp [hopen, List.foldlM_append, foldlM_commaTokens h, hclose]

theorem isOperand_array {items : List (List Token)} (h : ∀ ts ∈ items, IsOperand ts) :
    IsOperand (.word "ARRAY" :: .openBracket :: commaTokens items ++ [.closeBracket]) := by
  have hword : IsOperand [.word "ARRAY"] := .of_isPlain (by simp) (by simp; decide)
  exact hword.append (isOperand_brackets h)

theorem scans_emptyArray : Scans emptyArray := by
  have hcast : IsOperand [.sign "::", .word "text"] :=
    .of_isPlain (by simp) (by simp; decide)
  have hnone : ∀ ts ∈ ([] : List (List Token)), IsOperand ts := by simp
  exact ⟨_, by decide,
    ((isOperand_array hnone).append hcast).append (isOperand_brackets hnone)⟩

theorem scans_array {parts : List Text} (h : ∀ p ∈ parts, Scans p) :
    Scans ("ARRAY[" ++ Text.commaJoin parts ++ "]") := by
  obtain ⟨items, hitems⟩ := exists_scanAs h
  refine ⟨_, ?_, isOperand_array hitems.isOperand⟩
  have hclose := tokens?_append (b := []) (tokens?_commaJoin hitems)
    (show Byte.closeBracket ∈ Scanner.delimiters by decide)
  have hopen : scanner.feed .blank ("ARRAY[" : Text) = ([.word "ARRAY", .openBracket], .blank) := by
    rfl
  rw [List.append_assoc, tokens?_of_feed hopen,
    show Text.commaJoin parts ++ ("]" : Text) = Text.commaJoin parts ++ [Byte.closeBracket] from rfl,
    hclose]
  rfl

mutual

theorem scans_literal {v : Value} {t : Text} (h : literal v = .ok t) : Scans t := by
  cases v with
  | null =>
    cases h
    exact .of_all (by decide)
  | bool b =>
    cases h
    cases b
    · exact show Scans "false" from .of_all (by decide)
    · exact show Scans "true" from .of_all (by decide)
  | int n =>
    cases h
    exact scans_ofInt _
  | double x =>
    cases h
    exact scans_doubleLiteral x
  | string s =>
    obtain ⟨escapes, hfeed⟩ := Scanner.feed_stringLiteral h
    exact scans_quoted hfeed
  | uuid u =>
    cases h
    exact scans_unquoted "uuid" ((Text.Plain.uuid u).not_mem rfl) (fun _ => rfl) (by decide)
  | timestamp s =>
    cases h
    unfold timestampLiteral
    rw [List.append_assoc _ ("'::timestamp" : Text)]
    by_cases hzoned : s.zoned
    · rw [if_pos hzoned]
      exact scans_unquoted "timestamptz" ((Text.Plain.timestamp s).not_mem rfl) (fun _ => rfl)
        (by decide)
    · rw [if_neg hzoned]
      exact scans_unquoted "timestamp" ((Text.Plain.timestamp s).not_mem rfl) (fun _ => rfl)
        (by decide)
  | bytes b =>
    cases h
    exact scans_unquoted "bytea" (Text.quote_not_mem_hexBody b) (fun _ => rfl) (by decide)
  | array items =>
    rw [literal, Result.bind_eq_ok] at h
    obtain ⟨parts, hparts, h⟩ := h
    split at h
    · cases h
      exact scans_emptyArray
    · cases h
      exact scans_array (scans_literals hparts)
  | json j =>
    rw [literal, Result.bind_eq_ok] at h
    obtain ⟨quoted, hquoted, h⟩ := h
    cases h
    obtain ⟨escapes, hfeed⟩ := Scanner.feed_stringLiteral hquoted
    exact scans_cast "jsonb" hfeed rfl (by decide)
  | inet a =>
    rw [literal, Result.bind_eq_ok] at h
    obtain ⟨quoted, hquoted, h⟩ := h
    cases h
    obtain ⟨escapes, hfeed⟩ := Scanner.feed_stringLiteral hquoted
    exact scans_cast "inet" hfeed rfl (by decide)
termination_by sizeOf v

theorem scans_literals {items : List Value} {parts : List Text} (h : literals items = .ok parts) :
    ∀ p ∈ parts, Scans p := by
  cases items with
  | nil =>
    cases h
    simp
  | cons v rest =>
    rw [literals, Result.bind_eq_ok] at h
    obtain ⟨part, hpart, h⟩ := h
    obtain ⟨more, hmore, h⟩ := Result.bind_eq_ok.mp h
    cases h
    exact List.forall_mem_cons.mpr ⟨scans_literal hpart, scans_literals hmore⟩
termination_by sizeOf items

end

end EntitySql.Sql
