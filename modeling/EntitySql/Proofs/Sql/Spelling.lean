import EntitySql.Proofs.Sql.Grouping
import EntitySql.Proofs.Sql.Operands

-- The symbols of composed texts. A text that spells symbols may be put behind
-- one that ends between two symbols, or in front of one that begins by ending
-- an operand.

namespace EntitySql.Sql

def Spells (t : Text) (symbols : List Symbol) : Prop :=
  ∃ tokens, tokens? t = some tokens ∧ symbols? tokens = some symbols

-- The tokens of a text that is an operand.
def operandTokens (t : Text) : List Token := (tokens? t).getD []

theorem Scans.spells {t : Text} (h : Scans t) : Spells t [.operand (operandTokens t)] := by
  obtain ⟨tokens, htokens, hoperand⟩ := h
  refine ⟨tokens, htokens, ?_⟩
  simp [hoperand.symbols?, operandTokens, htokens]

-- A text that ends between two symbols.
def Leads (t : Text) (symbols : List Symbol) : Prop :=
  ∃ tokens, scanner.feed .blank t = (tokens, .blank) ∧
    grouper.feed Grouper.between tokens = (symbols, Grouper.between)

-- A text whose first byte and first token end an operand.
def Follows (t : Text) (symbols : List Symbol) : Prop :=
  (∃ c rest, t = c :: rest ∧ c ∈ Scanner.delimiters) ∧
    ∃ token rest, tokens? t = some (token :: rest) ∧ token.separates = true ∧
      symbols? (token :: rest) = some symbols

theorem Leads.append {a b : Text} {as bs : List Symbol} (ha : Leads a as) (hb : Spells b bs) :
    Spells (a ++ b) (as ++ bs) := by
  obtain ⟨tokens, hscan, hgroup⟩ := ha
  obtain ⟨more, htokens, hsymbols⟩ := hb
  refine ⟨tokens ++ more, ?_, ?_⟩
  · rw [tokens?_of_feed hscan, htokens]
    rfl
  · rw [symbols?, Machine.read?_append_of_feed hgroup,
      show grouper.read? Grouper.between more = _ from hsymbols]
    rfl

theorem Spells.append {a b : Text} {as bs : List Symbol} (ha : Spells a as) (hb : Follows b bs) :
    Spells (a ++ b) (as ++ bs) := by
  obtain ⟨tokens, htokens, hsymbols⟩ := ha
  obtain ⟨⟨c, rest, rfl, hc⟩, token, more, hmore, hseparates, hfollow⟩ := hb
  refine ⟨tokens ++ token :: more, ?_, ?_⟩
  · rw [tokens?_append htokens hc, hmore]
    rfl
  · rw [symbols?, Machine.read?_append_of_finishes hsymbols
      (Grouper.finishes_of_separates hseparates),
      show grouper.read? Grouper.between (token :: more) = _ from hfollow]
    rfl

namespace Connective

def text (op : Connective) : Text :=
  match op.token with
  | .word w => w
  | .sign s => s
  | _ => []

-- The operator between two operands.
def between (op : Connective) : Text := " " ++ op.text ++ " "

theorem feed_between (op : Connective) :
    scanner.feed .blank op.between = ([op.token], .blank) := by
  cases op with
  | compare c => cases c <;> rfl
  | like ignoreCase => cases ignoreCase <;> rfl
  | _ => rfl

theorem separates_token (op : Connective) : op.token.separates = true := by
  cases op with
  | compare c => cases c <;> decide
  | like ignoreCase => cases ignoreCase <;> decide
  | _ => decide

theorem feed_token (op : Connective) :
    grouper.feed Grouper.between [op.token] = ([.connective op], Grouper.between) := by
  cases op with
  | compare c => cases c <;> rfl
  | like ignoreCase => cases ignoreCase <;> rfl
  | _ => rfl

end Connective

theorem Follows.connective {b : Text} {bs : List Symbol} (op : Connective) (h : Spells b bs) :
    Follows (op.between ++ b) (.connective op :: bs) := by
  obtain ⟨more, htokens, hsymbols⟩ := h
  refine ⟨⟨Byte.space, op.text ++ " " ++ b, by simp [Connective.between]; rfl, by decide⟩,
    op.token, more, ?_, op.separates_token, ?_⟩
  · rw [tokens?_of_feed op.feed_between, htokens]
    rfl
  · rw [symbols?, ← List.singleton_append, Machine.read?_append_of_feed op.feed_token,
      show grouper.read? Grouper.between more = _ from hsymbols]
    rfl

theorem follows_closing : Follows ")" [.closeGroup] :=
  ⟨⟨Byte.closeParenthesis, [], rfl, by decide⟩, .closeParenthesis, [], rfl, rfl, rfl⟩

theorem follows_nullTest (negated : Bool) : Follows (Term.nullTest negated) [.isNull negated] := by
  cases negated with
  | false =>
    exact ⟨⟨Byte.space, "IS NULL", rfl, by decide⟩, .word "IS", [.word "NULL"],
      by decide, by decide, by decide⟩
  | true =>
    exact ⟨⟨Byte.space, "IS NOT NULL", rfl, by decide⟩, .word "IS", [.word "NOT", .word "NULL"],
      by decide, by decide, by decide⟩

theorem leads_opening : Leads "(" [.openGroup] := ⟨[.openParenthesis], rfl, rfl⟩

theorem leads_not : Leads "NOT (" [.not, .openGroup] := ⟨[.word "NOT", .openParenthesis], rfl, rfl⟩

-- The items of a list are separated outside their brackets only.
theorem feed_items {items : List (List Token)} (h : ∀ tokens ∈ items, IsOperand tokens)
    (hne : items ≠ []) (before : List (List Token)) :
    grouper.feed (.item before [] 0) (commaTokens items ++ [.closeParenthesis]) =
      ([.isIn (before ++ items)], Grouper.between) := by
  induction items generalizing before with
  | nil => exact absurd rfl hne
  | cons tokens rest ih =>
    have htokens := h tokens (by simp)
    have hitem := IsOperand.feed_item before [] (htokens.balanced 0)
    rw [List.nil_append] at hitem
    have hempty : tokens.isEmpty = false := by simp [htokens.ne_nil]
    cases rest with
    | nil =>
      have hclose : grouper.feed (.item before tokens 0) [.closeParenthesis] =
          ([.isIn (before ++ [tokens])], Grouper.between) := by
        have hdepth : Token.closeParenthesis.depthBehind? 0 = none := by decide
        simp [Machine.feed, grouper, Grouper.step, hdepth, hempty]
      exact Machine.feed_append_of_feed hitem hclose
    | cons tokens' rest =>
      have hcomma : grouper.feed (.item before tokens 0) [.comma] =
          ([], .item (before ++ [tokens]) [] 0) := by
        have hdepth : Token.comma.depthBehind? 0 = none := by decide
        simp [Machine.feed, grouper, Grouper.step, hdepth, hempty]
      have hrest := ih (fun us hus => h us (List.mem_cons_of_mem tokens hus)) (by simp)
        (before ++ [tokens])
      have hfeed := Machine.feed_append_of_feed hitem (Machine.feed_append_of_feed hcomma hrest)
      simpa [commaTokens] using hfeed

theorem follows_isIn {parts : List Text} {items : List (List Token)} (h : ScanAs parts items)
    (hne : parts ≠ []) : Follows (" IN (" ++ Text.commaJoin parts ++ ")") [.isIn items] := by
  have hitems : items ≠ [] := by
    rintro rfl
    cases h
    exact hne rfl
  have hclose := tokens?_append (b := []) (tokens?_commaJoin h)
    (show Byte.closeParenthesis ∈ Scanner.delimiters by decide)
  refine ⟨⟨Byte.space, ("IN (" : Text) ++ Text.commaJoin parts ++ ")", by rfl, by decide⟩,
    .word "IN", .openParenthesis :: (commaTokens items ++ [.closeParenthesis]), ?_,
    by decide, ?_⟩
  · have hopen : scanner.feed .blank (" IN (" : Text) =
        ([.word "IN", .openParenthesis], .blank) := by rfl
    rw [List.append_assoc, tokens?_of_feed hopen,
      show Text.commaJoin parts ++ (")" : Text) = Text.commaJoin parts ++ [Byte.closeParenthesis]
        from rfl, hclose]
    rfl
  · have hopening : grouper.feed Grouper.between [.word "IN", .openParenthesis] =
        ([], .item [] [] 0) := by rfl
    have hfeed := Machine.feed_append_of_feed hopening
      (feed_items h.isOperand hitems [])
    rw [symbols?, Machine.read?]
    rw [List.cons_append, List.cons_append, List.nil_append] at hfeed
    rw [hfeed]
    rfl

-- The wildcard of a pattern, as a literal.
def wildcard : Text := "'%'"

theorem scans_wildcard : Scans wildcard := .of_all (by decide)

end EntitySql.Sql
