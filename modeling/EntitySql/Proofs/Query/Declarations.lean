import EntitySql.Proofs.Query.SetOperations
import EntitySql.Proofs.Query.WellFormed

-- Which common tables a statement declares. The SELECT of a plan declares those
-- that have been registered, also where it is a subquery or an operand of a set
-- operation. An update and an aggregate declare none.

namespace EntitySql.Query

open Sql (Lexeme lexemes? outline Term)
open Sql.Outline

namespace Reader

-- In front of the word AS, in front of the query of a table, within it, and
-- behind its parenthesis, with what has been read of the table.
inductive DeclarationMode where
  | heading (depth : Nat) (read : List Lexeme)
  | body (heading : List Lexeme)
  | inside (depth : Nat) (heading read : List Lexeme)
  | behind

-- The tables of a WITH clause: their names with their columns, and their
-- queries.
def tables? : DeclarationMode → List Lexeme → Option (List (List Lexeme × List Lexeme))
  | .heading depth read, l :: rest =>
    if depth = 0 && isWord "AS" l then tables? (.body read) rest
    else do
      let depth ← depth? [] depth l
      tables? (.heading depth (read ++ [l])) rest
  | .body heading, l :: rest => if l = .opening then tables? (.inside 0 heading []) rest else none
  | .inside depth heading read, l :: rest =>
    if depth = 0 && l = .closing then (tables? .behind rest).map ((heading, read) :: ·)
    else do
      let depth ← depth? [] depth l
      tables? (.inside depth heading (read ++ [l])) rest
  | .behind, l :: rest => if l = .sign Byte.comma then tables? (.heading 0 []) rest else some []
  | .behind, [] => some []
  | _, [] => none

def declarations? : List Lexeme → Option (List (List Lexeme × List Lexeme))
  | [] => some []
  | l :: rest =>
    if !isWord "WITH" l then some []
    else match rest with
      | [] => none
      | r :: more => tables? (.heading 0 []) (if isWord "RECURSIVE" r then more else r :: more)

variable {ls rest heading inner read : List Lexeme} {i j : Nat}

theorem tables?_heading (h : depthBehind? ["AS"] i ls = some j) :
    tables? (.heading i read) (ls ++ rest) = tables? (.heading j (read ++ ls)) rest := by
  induction ls generalizing i read with
  | nil =>
    cases h
    simp
  | cons l ls ih =>
    obtain ⟨d, hbanned, hl, hls⟩ := depthBehind?_cons h
    rw [List.cons_append, tables?, not_heading hbanned]
    simp [hl, ih hls]

theorem tables?_inside (h : depthBehind? [] i ls = some j) :
    tables? (.inside i heading read) (ls ++ rest) =
      tables? (.inside j heading (read ++ ls)) rest := by
  induction ls generalizing i read with
  | nil =>
    cases h
    simp
  | cons l ls ih =>
    obtain ⟨d, hl, -, hls⟩ := depthBehind?_cons h
    rw [List.cons_append, tables?, not_closing hl]
    simp [hl, ih hls]

theorem tables?_table (hheading : depthBehind? ["AS"] 0 heading = some 0)
    (hinner : depthBehind? [] 0 inner = some 0) :
    tables? (.heading 0 [])
        (heading ++ (.word "AS" :: .opening :: inner ++ (.closing :: rest))) =
      (tables? .behind rest).map ((heading, inner) :: ·) := by
  have has : isWord "AS" (.word "AS") = true := by decide
  rw [tables?_heading hheading]
  simp only [List.cons_append, tables?, has, decide_true, Bool.and_true, if_true]
  rw [tables?_inside hinner]
  simp [tables?]

end Reader

open Reader

-- How a table is read in a WITH clause.
structure CommonTable.ReadAs (table : CommonTable) (d : List Lexeme × List Lexeme) : Prop where
  heading : lexemes? (Sql.quoted table.name ++ table.columnList) = some d.1
  body : lexemes? table.body.text = some d.2

-- The text begins with a WITH clause that has these tables in this order, and no
-- others.
def Declares (t : Text) (tables : List CommonTable) : Prop :=
  ∃ ds, declarations? (outline.feed .between t).1 = some ds ∧
    List.Forall₂ CommonTable.ReadAs tables ds

-- No table begins with the word RECURSIVE, which may stand in front of the first.
def BeginsTable (ls : List Lexeme) : Prop :=
  ∃ l more, ls = l :: more ∧ isWord "RECURSIVE" l = false

theorem BeginsTable.append {ls : List Lexeme} (h : BeginsTable ls) (rest : List Lexeme) :
    BeginsTable (ls ++ rest) := by
  obtain ⟨l, more, rfl, hl⟩ := h
  exact ⟨l, more ++ rest, rfl, hl⟩

theorem beginsTable_heading {heading rest : List Lexeme}
    (h : depthBehind? ["AS", "RECURSIVE"] 0 heading = some 0) :
    BeginsTable (heading ++ .word "AS" :: rest) := by
  cases heading with
  | nil => exact ⟨.word "AS", rest, rfl, by decide⟩
  | cons l more =>
    obtain ⟨d, hl, -⟩ := depthBehind?_cons h
    exact ⟨l, _, rfl, not_banned hl (by simp)⟩

theorem exists_declaration {table : CommonTable} (h : Fits [] table.body.text) :
    ∃ d ls, table.ReadAs d ∧ outline.feed .between table.text = (ls, .between) ∧ BeginsTable ls ∧
      ∀ rest, tables? (.heading 0 []) (ls ++ rest) = (tables? .behind rest).map (d :: ·) := by
  have hfits : Fits ["AS", "RECURSIVE"] (Sql.quoted table.name ++ table.columnList) :=
    fits_heading table
  obtain ⟨heading, hheading, hdepth⟩ := hfits
  obtain ⟨inner, hinner, hbalanced⟩ := h
  refine ⟨(heading, inner), _, ⟨hheading, hinner⟩, feed_table hheading hinner,
    beginsTable_heading hdepth, fun rest => ?_⟩
  have hread := @tables?_table rest heading inner
    (depthBehind?_of_subset (by decide) hdepth) hbalanced
  simpa using hread

theorem exists_declarations {tables : List CommonTable} (hne : tables ≠ [])
    (h : ∀ table ∈ tables, Fits [] table.body.text) :
    ∃ ds ls, List.Forall₂ CommonTable.ReadAs tables ds ∧
      outline.feed .between (Text.commaJoin (tables.map CommonTable.text)) = (ls, .between) ∧
      BeginsTable ls ∧
      ∀ rest, tables? (.heading 0 []) (ls ++ rest) = (tables? .behind rest).map (ds ++ ·) := by
  induction tables with
  | nil => exact absurd rfl hne
  | cons table more ih =>
    obtain ⟨htable, hmore⟩ := List.forall_mem_cons.mp h
    obtain ⟨d, ls, hd, hfeed, hbegins, hread⟩ := exists_declaration htable
    cases more with
    | nil => exact ⟨[d], ls, .cons hd .nil, hfeed, hbegins, hread⟩
    | cons second more =>
      obtain ⟨ds, others, hds, hothers, -, hbehind⟩ := ih (by simp) hmore
      have hcomma : outline.feed .between ", " = ([.sign Byte.comma], .between) := by decide
      refine ⟨d :: ds, ls ++ [.sign Byte.comma] ++ others, .cons hd hds, ?_, ?_, fun rest => ?_⟩
      · exact Machine.feed_append_of_feed (Machine.feed_append_of_feed hfeed hcomma) hothers
      · exact (hbegins.append _).append _
      · rw [List.append_assoc, List.append_assoc, hread, List.singleton_append, tables?,
          if_pos rfl, hbehind, Option.map_map]
        rfl

-- The text of a SELECT behind its WITH clause.
theorem exists_feed_operand (p : SelectParts) (filters : List Text) (combined : Bool)
    (rest : Text) : ∃ l more, (outline.feed .between (p.operand filters combined ++ rest)).1 =
      l :: more ∧ Begins l := by
  by_cases hbounded : (combined && p.isBounded) = true
  · rw [SelectParts.operand, if_pos hbounded]
    exact ⟨.opening, _, rfl, .inl rfl⟩
  · obtain ⟨body, hbody⟩ := p.exists_operand_eq filters
    have hsame : p.operand filters combined = p.operand filters false := by
      simp [SelectParts.operand, hbounded]
    rw [hsame, hbody, List.append_assoc, Machine.feed_append, feed_select]
    exact ⟨.word "SELECT", _, rfl, .inr rfl⟩

theorem declarations?_of_ne {l : Lexeme} (h : isWord "WITH" l = false) (more : List Lexeme) :
    declarations? (l :: more) = some [] := by
  simp [declarations?, h]

theorem exists_feed_heading {tables : List CommonTable} (hne : tables ≠ [])
    (h : ∀ table ∈ tables, Fits [] table.body.text) :
    ∃ ds ls, List.Forall₂ CommonTable.ReadAs tables ds ∧
      outline.feed .between (withClause tables) = (ls, .between) ∧
      ∀ rest, declarations? (ls ++ rest) = (tables? .behind rest).map (ds ++ ·) := by
  obtain ⟨ds, ls, hds, hfeed, ⟨l, more, rfl, hl⟩, hread⟩ := exists_declarations hne h
  have hspace : outline.feed .between [Byte.space] = ([], .between) := rfl
  have hwith : isWord "WITH" (.word "WITH") = true := by decide
  have hmark : isWord "RECURSIVE" (.word "RECURSIVE") = true := by decide
  rw [withClause, if_neg (by simpa using hne), withWord]
  split
  · have hword : outline.feed .between "WITH RECURSIVE " =
        ([.word "WITH", .word "RECURSIVE"], .between) := by decide
    refine ⟨ds, _, hds, Machine.feed_append_of_feed (Machine.feed_append_of_feed hword hfeed)
      hspace, fun rest => ?_⟩
    rw [← hread]
    simp [declarations?, hwith, hmark]
  · have hword : outline.feed .between "WITH " = ([.word "WITH"], .between) := by decide
    refine ⟨ds, _, hds, Machine.feed_append_of_feed (Machine.feed_append_of_feed hword hfeed)
      hspace, fun rest => ?_⟩
    rw [← hread]
    simp [declarations?, hwith, hl]

theorem declares_text {q : Select} (h : ∀ table ∈ q.parts.tables, Fits [] table.body.text) :
    Declares q.text q.parts.tables := by
  obtain ⟨parts, filters, operations⟩ := q
  obtain ⟨l, more, hbody, hl⟩ := exists_feed_operand parts (Select.filterTexts filters)
    (!operations.isEmpty) (Select.operationsText operations)
  rw [Select.text, List.append_assoc]
  by_cases hne : parts.tables = []
  · have hword : isWord "WITH" l = false := by
      rcases hl with rfl | rfl <;> decide
    rw [hne, withClause, if_pos List.isEmpty_nil, List.nil_append]
    exact ⟨[], by rw [hbody, declarations?_of_ne hword], .nil⟩
  · obtain ⟨ds, ls, hds, hfeed, hread⟩ := exists_feed_heading hne h
    have hcomma : l ≠ .sign Byte.comma := by
      rintro rfl
      rcases hl with hl | hl <;> cases hl
    refine ⟨ds, ?_, hds⟩
    rw [Machine.feed_append, hfeed, hread, hbody, tables?, if_neg hcomma]
    simp

-- A text that begins with another word declares nothing.
theorem declares_iff_of_word {t word : Text} {w : Text} (ht : word <+: t)
    (hword : outline.feed .between word = ([.word w], .between))
    (hw : isWord "WITH" (.word w) = false) (tables : List CommonTable) :
    Declares t tables ↔ tables = [] := by
  obtain ⟨rest, rfl⟩ := ht
  have hread : declarations? (outline.feed .between (word ++ rest)).1 = some [] := by
    rw [Machine.feed_append, hword]
    exact declarations?_of_ne hw _
  constructor
  · rintro ⟨ds, hds, htables⟩
    cases hread.symm.trans hds
    cases htables
    rfl
  · rintro rfl
    exact ⟨[], hread, .nil⟩

theorem Update.declares_iff (u : Update) (tables : List CommonTable) :
    Declares u.text tables ↔ tables = [] := by
  have hword : outline.feed .between "UPDATE " = ([.word "UPDATE"], .between) := by decide
  have hprefix : Text.ofString "UPDATE " <+: u.text := by
    rw [Update.text, List.append_assoc, List.append_assoc, List.append_assoc]
    exact List.prefix_append _ _
  exact declares_iff_of_word hprefix hword (by decide) tables

theorem Scalar.prefix_text (r : Scalar) : Text.ofString "SELECT " <+: r.text := by
  obtain ⟨measure, source, rawJoins, filters⟩ := r
  cases measure with
  | count =>
    have hcount : Text.ofString "SELECT " <+: "SELECT COUNT(*) FROM " := by decide
    exact hcount.trans (List.prefix_append _ _)
  | any =>
    have hany : Text.ofString "SELECT " <+: "SELECT EXISTS (SELECT 1 FROM " := by decide
    exact hany.trans ((List.prefix_append _ _).trans (List.prefix_append _ _))
  | aggregate f t =>
    exact ((List.prefix_append _ _).trans (List.prefix_append _ _)).trans (List.prefix_append _ _)

theorem Scalar.declares_iff (r : Scalar) (tables : List CommonTable) :
    Declares r.text tables ↔ tables = [] :=
  declares_iff_of_word r.prefix_text feed_select (by decide) tables

-- Statements of a plan.

inductive Plan.Rows (s : Services) (env : Environment) (p : Plan) : Text → Prop where
  | select {v before q includes after}
      (h : Yields (Query.select s env v p) before (q, includes) after) : p.Rows s env q.text

inductive Plan.Bare (s : Services) (env : Environment) (p : Plan) : Text → Prop where
  | update {assignments before u after}
      (h : Yields (p.update s env assignments) before u after) : p.Bare s env u.text
  | scalar {m predicate before r after}
      (h : Yields (p.scalar s env m predicate) before r after) : p.Bare s env r.text

-- The text holds the other one in parentheses.
def Encloses (t inner : Text) : Prop :=
  Text.ofString "(" ++ inner ++ Text.ofString ")" <:+: t

def Condition.query? {π : Type} : Condition π → Option π
  | .inQuery _ query _ => some query
  | .exists query _ => some query
  | _ => none

def Operand.query? {π : Type} : Operand π → Option π
  | .query q => some q
  | .raw _ => none

section

variable {s : Services} {env : Environment} {before after : Sql.Compiler.State} {p : Plan}
variable {t inner : Text}

theorem encloses_behind {word : Text} (h : Text.ofString "(" <:+ word) (head : Text) :
    Encloses (head ++ word ++ inner ++ ")") inner := by
  obtain ⟨begin, rfl⟩ := h
  exact ⟨head ++ begin, [], by simp⟩

theorem encloses_wordIn (head inner : Text) (negated : Bool) :
    Encloses (head ++ wordIn negated ++ inner ++ ")") inner := by
  refine encloses_behind ?_ head
  cases negated <;> decide

theorem encloses_wordExists (inner : Text) (negated : Bool) :
    Encloses (wordExists negated ++ inner ++ ")") inner := by
  have hword : Text.ofString "(" <:+ wordExists negated := by cases negated <;> decide
  exact encloses_behind hword []

theorem infix_join {separator : Text} {parts : List Text} (h : t ∈ parts) :
    t <:+: Text.join separator parts := by
  cases parts with
  | nil => cases h
  | cons first rest =>
    rw [Text.join_cons]
    rcases List.mem_cons.mp h with rfl | h
    · exact (List.prefix_append _ _).isInfix
    · have hpart : separator ++ t <:+: rest.flatMap (separator ++ ·) :=
        List.infix_of_mem_flatten (List.mem_map_of_mem h)
      exact ((List.suffix_append _ _).isInfix.trans hpart).trans (List.suffix_append _ _).isInfix

theorem infix_clause {word separator : Text} {items : List Text} (h : t ∈ items) :
    t <:+: SelectParts.clause word separator items := by
  have hitems : ¬items.isEmpty = true := by
    cases items with
    | nil => cases h
    | cons _ _ => simp
  rw [SelectParts.clause, if_neg hitems]
  exact (infix_join h).trans (List.suffix_append _ _).isInfix

theorem filterTexts_eq_map (filters : List (Filter Select)) :
    Select.filterTexts filters = filters.map Select.filterText := by
  induction filters with
  | nil => rfl
  | cons f rest ih => rw [Select.filterTexts, ih, List.map_cons]

theorem infix_whereClause {filters : List (Filter Select)} {f : Filter Select} (h : f ∈ filters) :
    Select.filterText f <:+: whereClause filters := by
  refine infix_clause ?_
  rw [filterTexts_eq_map]
  exact List.mem_map_of_mem h

theorem infix_operand (parts : SelectParts) (filters : List (Filter Select)) (combined : Bool) :
    whereClause filters <:+: parts.operand (Select.filterTexts filters) combined := by
  have hbody : whereClause filters <:+:
      parts.opening ++ whereClause filters ++ parts.closing := List.infix_append _ _ _
  unfold SelectParts.operand
  split
  · exact hbody.trans ⟨[Byte.openParenthesis], [Byte.closeParenthesis], rfl⟩
  · exact hbody

theorem encloses_filter {clauses : Clauses} {c : Sql.Compiler} {condition : Condition Plan}
    {f : Filter Select} (hp : condition.query? = some p)
    (h : Yields (filter s env clauses c condition) before f after) :
    ∃ inner, p.Rows s env inner ∧ Encloses (Select.filterText f) inner := by
  cases condition with
  | inQuery column query negated =>
    cases hp
    rw [filter] at h
    obtain ⟨t, -, h⟩ := Yields.lift_bind_iff.mp h
    obtain ⟨⟨q, includes⟩, _, hq, h⟩ := Yields.bind_iff.mp h
    obtain ⟨rfl, -⟩ := Yields.pure_iff.mp h
    exact ⟨q.text, .select hq, encloses_wordIn t.text q.text negated⟩
  | «exists» query negated =>
    cases hp
    rw [filter] at h
    obtain ⟨⟨q, includes⟩, _, hq, h⟩ := Yields.bind_iff.mp h
    obtain ⟨rfl, -⟩ := Yields.pure_iff.mp h
    exact ⟨q.text, .select hq, encloses_wordExists q.text negated⟩
  | _ => cases hp

theorem encloses_filters {clauses : Clauses} {c : Sql.Compiler} {conditions : List (Condition Plan)}
    {condition : Condition Plan} {filters : List (Filter Select)} (hmem : condition ∈ conditions)
    (hp : condition.query? = some p)
    (h : Yields (Query.filters s env clauses c conditions) before filters after) :
    ∃ f ∈ filters, ∃ inner, p.Rows s env inner ∧ Encloses (Select.filterText f) inner := by
  induction conditions generalizing before after filters with
  | nil => cases hmem
  | cons first rest ih =>
    rw [Query.filters] at h
    obtain ⟨f, _, hf, h⟩ := Yields.bind_iff.mp h
    obtain ⟨others, _, hothers, h⟩ := Yields.bind_iff.mp h
    obtain ⟨rfl, -⟩ := Yields.pure_iff.mp h
    rcases List.mem_cons.mp hmem with rfl | hmem
    · exact ⟨f, List.mem_cons_self, encloses_filter hp hf⟩
    · obtain ⟨g, hg, hinner⟩ := ih hmem hothers
      exact ⟨g, List.mem_cons_of_mem f hg, hinner⟩

theorem encloses_operands {operations : List (SetOperation Plan)} {o : SetOperation Plan}
    {made : List (SetOperation Select)} (hmem : o ∈ operations) (hp : o.operand.query? = some p)
    (h : Yields (operands s env operations) before made after) :
    ∃ inner, p.Rows s env inner ∧ Encloses (Select.operationsText made) inner := by
  induction operations generalizing before after made with
  | nil => cases hmem
  | cons head rest ih =>
    obtain ⟨operator, operand⟩ := head
    rw [operands] at h
    obtain ⟨first, _, hfirst, h⟩ := Yields.bind_iff.mp h
    obtain ⟨others, _, hothers, h⟩ := Yields.bind_iff.mp h
    obtain ⟨rfl, -⟩ := Yields.pure_iff.mp h
    rcases List.mem_cons.mp hmem with rfl | hmem
    · cases operand with
      | raw sql => cases hp
      | query q =>
        cases hp
        rw [Query.operand] at hfirst
        obtain ⟨⟨q, includes⟩, _, hq, hfirst⟩ := Yields.bind_iff.mp hfirst
        obtain ⟨rfl, -⟩ := Yields.pure_iff.mp hfirst
        have hword : Text.ofString "(" <:+ " (" := by decide
        refine ⟨q.text, .select hq, (encloses_behind hword (" " ++ operator.text)).trans ?_⟩
        exact (List.prefix_append _ (Select.operationsText others)).isInfix
    · obtain ⟨inner, hrows, hinner⟩ := ih hmem hothers
      exact ⟨inner, hrows, hinner.trans (List.suffix_append _ _).isInfix⟩

theorem tables_of_yields {v : Variant} {q : Select} {includes : Option Include.Plan}
    (h : Yields (select s env v p) before (q, includes) after) :
    q.parts.tables = p.clauses.tables := by
  cases p with
  | mk clauses conditions operations =>
    obtain ⟨columns, projections, first, source, joins, filters, second, having, third, orders,
      fourth, combined, -, -, -, -, -, -, -, -, -, rfl⟩ := clauses_of_yields h
    rfl

theorem filters_of_yields {v : Variant} {q : Select} {includes : Option Include.Plan}
    (h : Yields (select s env v p) before (q, includes) after) :
    ∃ c first second, Yields (Query.filters s env p.clauses c p.conditions) first q.filters
      second := by
  cases p with
  | mk clauses conditions operations =>
    obtain ⟨columns, projections, first, source, joins, filters, second, having, third, orders,
      fourth, combined, -, -, -, -, -, hfilters, -, -, -, rfl⟩ := clauses_of_yields h
    exact ⟨_, first, second, hfilters⟩

theorem Scalar.infix_text (r : Scalar) : whereClause r.filters <:+: r.text := by
  obtain ⟨measure, source, rawJoins, filters⟩ := r
  have hfiltered (head : Text) : whereClause filters <:+:
      head ++ (source.text ++ SelectParts.spaced rawJoins ++ whereClause filters) :=
    ((List.suffix_append _ _).trans (List.suffix_append _ _)).isInfix
  cases measure with
  | count => exact hfiltered _
  | any => exact (hfiltered _).trans (List.prefix_append _ _).isInfix
  | aggregate f t => exact hfiltered _

theorem filters_of_scalar {m : Measure (Option Expr)} {predicate : Option Expr} {r : Scalar}
    (h : Yields (p.scalar s env m predicate) before r after) :
    ∃ filters first second, Yields (Query.filters s env p.clauses (p.plainCompiler s env)
      p.conditions) first filters second ∧ filters ⊆ r.filters := by
  obtain ⟨measure, _, -, h⟩ := Yields.bind_iff.mp h
  obtain ⟨source, -, h⟩ := Yields.lift_bind_iff.mp h
  obtain ⟨filters, _, hfilters, h⟩ := Yields.bind_iff.mp h
  refine ⟨filters, _, _, hfilters, ?_⟩
  cases predicate with
  | none =>
    obtain ⟨rfl, -⟩ := Yields.pure_iff.mp h
    exact List.subset_append_left _ _
  | some e =>
    obtain ⟨t, _, -, h⟩ := Yields.bind_iff.mp h
    obtain ⟨rfl, -⟩ := Yields.pure_iff.mp h
    exact List.subset_append_left _ _

end

theorem Registration.declared_of_fails {r : Registration} {p q : Plan} {e : Error}
    (h : Fails r.run p e q) : r.declared = none := by
  cases r with
  | declare table =>
    cases hfault : table.fault? with
    | some fault => simp [declared, hfault]
    | none =>
      have hrun : (declare table).run = Builder.change
          fun c => { c with tables := c.tables ++ [table] } := by
        rw [run, hfault]
        rfl
      rw [hrun] at h
      exact absurd h Fails.not_modify
  | _ => rfl

theorem Registers.tables {p q : Plan} {declared : Option CommonTable} (h : Registers p declared q) :
    q.clauses.tables = p.clauses.tables ++ declared.toList := by
  cases h with
  | table t hfault => rfl
  | _ => exact (List.append_nil _).symm

namespace Plan

variable {s : Services} {env : Environment} {p outer : Plan} {t : Text}

theorem Rows.declares (h : p.Rows s env t) (htables : ∀ table ∈ p.clauses.tables,
    Fits [] table.body.text) : Declares t p.clauses.tables := by
  obtain ⟨h⟩ := h
  have hsame := tables_of_yields h
  rw [← hsame] at htables ⊢
  exact declares_text htables

theorem Bare.declares_iff (h : p.Bare s env t) (tables : List CommonTable) :
    Declares t tables ↔ tables = [] := by
  cases h with
  | update h => exact Update.declares_iff _ tables
  | scalar h => exact Scalar.declares_iff _ tables

-- A statement holds its subqueries as they would be written on their own.
theorem Rows.encloses_subquery {condition : Condition Plan} (hmem : condition ∈ outer.conditions)
    (hp : condition.query? = some p) (h : outer.Rows s env t) :
    ∃ inner, p.Rows s env inner ∧ Encloses t inner := by
  obtain @⟨v, before, q, includes, after, h⟩ := h
  obtain ⟨c, first, second, hfilters⟩ := filters_of_yields h
  obtain ⟨f, hf, inner, hrows, hinner⟩ := encloses_filters hmem hp hfilters
  obtain ⟨parts, filters, operations⟩ := q
  refine ⟨inner, hrows, ?_⟩
  exact ((hinner.trans (infix_whereClause hf)).trans (infix_operand parts filters _)).trans
    (List.infix_append (withClause parts.tables) _ (Select.operationsText operations))

theorem Bare.encloses_subquery {condition : Condition Plan} (hmem : condition ∈ outer.conditions)
    (hp : condition.query? = some p) (h : outer.Bare s env t) :
    ∃ inner, p.Rows s env inner ∧ Encloses t inner := by
  cases h with
  | @update assignments before u after h =>
    obtain ⟨written, _, -, h⟩ := Yields.bind_iff.mp h
    obtain ⟨_, -, h⟩ := Yields.lift_bind_iff.mp h
    obtain ⟨filters, _, hfilters, h⟩ := Yields.bind_iff.mp h
    obtain ⟨rfl, -⟩ := Yields.pure_iff.mp h
    obtain ⟨f, hf, inner, hrows, hinner⟩ := encloses_filters hmem hp hfilters
    refine ⟨inner, hrows, (hinner.trans (infix_whereClause hf)).trans ?_⟩
    exact (List.suffix_append _ _).isInfix
  | @scalar m predicate before r after h =>
    obtain ⟨filters, first, second, hfilters, hsub⟩ := filters_of_scalar h
    obtain ⟨f, hf, inner, hrows, hinner⟩ := encloses_filters hmem hp hfilters
    exact ⟨inner, hrows, (hinner.trans (infix_whereClause (hsub hf))).trans r.infix_text⟩

-- The statement for the keys alone leaves the set operations out.
theorem encloses_operand {v : Variant} (hkeys : v.keysOnly = false)
    {before after : Sql.Compiler.State} {q : Select} {includes : Option Include.Plan}
    {o : SetOperation Plan} (hmem : o ∈ outer.operations) (hp : o.operand.query? = some p)
    (h : Yields (Query.select s env v outer) before (q, includes) after) :
    ∃ inner, p.Rows s env inner ∧ Encloses q.text inner := by
  obtain ⟨first, hoperands⟩ := yields_operations hkeys h
  obtain ⟨inner, hrows, hinner⟩ := encloses_operands hmem hp hoperands
  obtain ⟨parts, filters, operations⟩ := q
  exact ⟨inner, hrows, hinner.trans (List.suffix_append _ _).isInfix⟩

-- What is declared is what has been registered, in this order.
theorem tables_called (p : Plan) (r : Registration) :
    (p.called r).clauses.tables = p.clauses.tables ++ r.declared.toList := by
  cases hrun : (r.run.run.run p).run with
  | mk result q =>
    have hq : p.called r = q := by rw [called, hrun]
    rw [hq]
    cases result with
    | error e => rw [r.guarded p e q hrun, Registration.declared_of_fails hrun]; simp
    | ok u => exact (Registration.registers hrun).tables

theorem tables_after (p : Plan) (calls : List Registration) :
    (p.after calls).clauses.tables = p.clauses.tables ++ calls.filterMap Registration.declared := by
  induction calls generalizing p with
  | nil => simp [after]
  | cons r rest ih =>
    have hrest : (p.after (r :: rest)).clauses.tables = _ := ih (p.called r)
    rw [hrest, tables_called, List.append_assoc]
    cases hr : r.declared <;> simp [hr]

end Plan

-- Registered tables are declared by the SELECT of the plan in all its variants,
-- and where it stands in another statement. Its updates and aggregates declare
-- them only if there are none, whatever their filters refer to.
theorem declares_tables {root : Entity} {maxIncludeDepth : Int} {calls : List Registration}
    {p : Plan} (hp : p = (Plan.new root maxIncludeDepth).after calls)
    {tables : List CommonTable} (htables : tables = calls.filterMap Registration.declared)
    (hbodies : ∀ table ∈ tables, Fits [] table.body.text) (s : Services) (env : Environment) :
    (∀ t, p.Rows s env t → Declares t tables) ∧
      (∀ t, p.Bare s env t → (Declares t tables ↔ tables = [])) ∧
      (∀ (outer : Plan) t, (∃ condition ∈ outer.conditions, condition.query? = some p) →
        outer.Rows s env t ∨ outer.Bare s env t →
        ∃ inner, Encloses t inner ∧ Declares inner tables) ∧
      ∀ (outer : Plan) v before q includes after,
        (∃ o ∈ outer.operations, o.operand.query? = some p) →
        v.keysOnly = false → Yields (select s env v outer) before (q, includes) after →
        ∃ inner, Encloses q.text inner ∧ Declares inner tables := by
  have hregistered : p.clauses.tables = tables := by
    rw [hp, htables, Plan.tables_after]
    rfl
  have hrows : ∀ t, p.Rows s env t → Declares t tables := fun t h =>
    hregistered ▸ h.declares (hregistered.symm ▸ hbodies)
  refine ⟨hrows, fun t h => h.declares_iff tables, ?_, ?_⟩
  · rintro outer t ⟨condition, hmem, hquery⟩ h
    obtain ⟨inner, hinner, hencloses⟩ : ∃ inner, p.Rows s env inner ∧ Encloses t inner := by
      rcases h with h | h
      · exact h.encloses_subquery hmem hquery
      · exact h.encloses_subquery hmem hquery
    exact ⟨inner, hencloses, hrows inner hinner⟩
  · rintro outer v before q includes after ⟨o, hmem, hquery⟩ hkeys h
    obtain ⟨inner, hinner, hencloses⟩ := Plan.encloses_operand hkeys hmem hquery h
    exact ⟨inner, hencloses, hrows inner hinner⟩

def popular : CommonTable where
  name := "popular"
  body := .plain "SELECT id FROM posts WHERE views > 100"

def popularCalls : List Registration :=
  [.declare popular, .declare { popular with name := [] },
    .filterInRaw "Id" "SELECT id FROM \"popular\"" false]

def popularPosts : Plan := (Plan.new Catalogue.postEntity 5).after popularCalls

-- The count refers to a table that it does not declare.
theorem declares_tables_popularPosts :
    ∃ q after r after',
      Yields (select combiningServices readEnvironment {} popularPosts) {} (q, none) after ∧
      Yields (popularPosts.scalar combiningServices readEnvironment .count none) {} r after' ∧
      r.text = "SELECT COUNT(*) FROM \"posts\" WHERE \"id\" IN (SELECT id FROM \"popular\")" ∧
      Declares q.text [popular] ∧ ¬Declares r.text [popular] := by
  obtain ⟨q, after, r, after', hselect, hscalar, htext⟩ :
      ∃ q after r after',
        Yields (select combiningServices readEnvironment {} popularPosts) {} (q, none) after ∧
        Yields (popularPosts.scalar combiningServices readEnvironment .count none) {} r after' ∧
        r.text = "SELECT COUNT(*) FROM \"posts\" WHERE \"id\" IN (SELECT id FROM \"popular\")" :=
    ⟨_, _, _, _, rfl, rfl, by decide⟩
  have hbodies : ∀ table ∈ [popular], Fits [] table.body.text :=
    List.forall_mem_singleton.mpr (by decide)
  have hplan : popularPosts = (Plan.new Catalogue.postEntity 5).after popularCalls := rfl
  have htables : [popular] = popularCalls.filterMap Registration.declared := by decide
  obtain ⟨hrows, hbare, -⟩ :=
    declares_tables hplan htables hbodies combiningServices readEnvironment
  exact ⟨q, after, r, after', hselect, hscalar, htext, hrows _ (.select hselect),
    fun h => absurd ((hbare _ (.scalar hscalar)).mp h) (by decide)⟩

end EntitySql.Query
