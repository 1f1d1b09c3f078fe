import EntitySql.Proofs.Query.Fitting
import EntitySql.Proofs.Query.Reader

-- Rendered set operations as SQL reads them. The operands are those of the plan
-- in the order of their registration, but they are combined by the grammar: an
-- INTERSECT belongs to the operand right before it.

namespace EntitySql.Query

open Sql (Lexeme lexemes? outline Term Compiler)
open Sql.Compiler (State)
open Sql.Outline
open Reader

-- The WITH clause is passed over.

theorem behindTables?_table {heading inner rest : List Lexeme}
    (hheading : depthBehind? ["AS"] 0 heading = some 0)
    (hinner : depthBehind? [] 0 inner = some 0) :
    behindTables? (.heading 0)
        (heading ++ (.word "AS" :: .opening :: inner ++ (.closing :: rest))) =
      behindTables? .behind rest := by
  have has : isWord "AS" (.word "AS") = true := by decide
  rw [behindTables?_heading hheading]
  simp only [List.cons_append, behindTables?, has, decide_true, Bool.and_true, if_true]
  rw [behindTables?_inside hinner]
  simp [behindTables?]

theorem feed_table {table : CommonTable} {heading inner : List Lexeme}
    (hheading : lexemes? (Sql.quoted table.name ++ table.columnList) = some heading)
    (hinner : lexemes? table.body.text = some inner) :
    outline.feed .between table.text =
      (heading ++ (.word "AS" :: .opening :: inner ++ [.closing]), .between) := by
  have has : outline.feed .between " AS (" = ([.word "AS", .opening], .between) := by decide
  have hclose : outline.feed .between ")" = ([.closing], .between) := by decide
  have hopened := feed_append hheading (b := " AS (") (by decide)
  rw [has] at hopened
  have hbody := lexemes?_of_feed (b := table.body.text) hopened
  rw [hinner] at hbody
  have hclosed := feed_append hbody (b := ")") (by decide)
  rw [hclose] at hclosed
  rw [CommonTable.text, hclosed]
  simp

theorem exists_feed_table {table : CommonTable} (h : Fits [] table.body.text) :
    ∃ ls, outline.feed .between table.text = (ls, .between) ∧
      ∀ rest, behindTables? (.heading 0) (ls ++ rest) = behindTables? .behind rest := by
  have hfits : Fits ["AS"] (Sql.quoted table.name ++ table.columnList) := fits_heading table
  obtain ⟨heading, hheading, hdepth⟩ := hfits
  obtain ⟨inner, hinner, hbalanced⟩ := h
  refine ⟨_, feed_table hheading hinner, fun rest => ?_⟩
  have hread := @behindTables?_table heading inner rest hdepth hbalanced
  simpa using hread

theorem exists_feed_tables {tables : List CommonTable} (hne : tables ≠ [])
    (h : ∀ table ∈ tables, Fits [] table.body.text) :
    ∃ ls, outline.feed .between (Text.commaJoin (tables.map CommonTable.text)) = (ls, .between) ∧
      ∀ rest, behindTables? (.heading 0) (ls ++ rest) = behindTables? .behind rest := by
  induction tables with
  | nil => exact absurd rfl hne
  | cons table more ih =>
    obtain ⟨htable, hmore⟩ := List.forall_mem_cons.mp h
    obtain ⟨ls, hfeed, hread⟩ := exists_feed_table htable
    cases more with
    | nil => exact ⟨ls, hfeed, hread⟩
    | cons second more =>
      obtain ⟨others, hothers, hbehind⟩ := ih (by simp) hmore
      have hcomma : outline.feed .between ", " = ([.sign Byte.comma], .between) := by decide
      refine ⟨ls ++ [.sign Byte.comma] ++ others, ?_, fun rest => ?_⟩
      · exact Machine.feed_append_of_feed (Machine.feed_append_of_feed hfeed hcomma) hothers
      · rw [List.append_assoc, List.append_assoc, hread, List.singleton_append, behindTables?,
          if_pos rfl, hbehind]

theorem behindWith?_of_begins {l : Lexeme} (h : Begins l) (more : List Lexeme) :
    behindWith? (l :: more) = some (l :: more) := by
  have hword : isWord "WITH" l = false := by
    rcases h with rfl | rfl
    · rfl
    · decide
  simp [behindWith?, hword]

theorem exists_feed_withClause {tables : List CommonTable}
    (h : ∀ table ∈ tables, Fits [] table.body.text) :
    ∃ ls, outline.feed .between (withClause tables) = (ls, .between) ∧
      ∀ l more, Begins l → behindWith? (ls ++ l :: more) = some (l :: more) := by
  cases tables with
  | nil => exact ⟨[], rfl, fun l more hl => behindWith?_of_begins hl more⟩
  | cons table more =>
    obtain ⟨ls, hfeed, hread⟩ := exists_feed_tables (List.cons_ne_nil table more) h
    have hwith : ∃ heading, outline.feed .between (withWord (table :: more)) =
        (.word "WITH" :: heading, .between) ∧ depthBehind? ["AS"] 0 heading = some 0 := by
      unfold withWord
      split
      · exact ⟨[.word "RECURSIVE"], by decide, by decide⟩
      · exact ⟨[], by decide, rfl⟩
    obtain ⟨heading, hword, hheading⟩ := hwith
    have hspace : outline.feed .between [Byte.space] = ([], .between) := rfl
    have hclause := Machine.feed_append_of_feed (Machine.feed_append_of_feed hword hfeed) hspace
    refine ⟨_, hclause, fun l rest hl => ?_⟩
    have hwithWord : isWord "WITH" (.word "WITH") = true := by decide
    have hcomma : l ≠ .sign Byte.comma := by
      rintro rfl
      rcases hl with hl | hl <;> cases hl
    rw [List.append_nil, List.cons_append, List.cons_append, behindWith?, if_pos hwithWord,
      List.append_assoc, behindTables?_heading hheading, hread, behindTables?, if_neg hcomma]

-- The first operand.

theorem SelectParts.Fitting.of_subset {banned banned' : List Text} {p : SelectParts}
    (h : p.Fitting banned) (hsubset : banned' ⊆ banned) : p.Fitting banned' where
  written t ht := (h.written t ht).of_subset hsubset
  terms := h.terms
  windows := h.windows

-- The text of a statement without its common tables and its set operations.
def Select.ownText (q : Select) : Text := q.parts.operand (Select.filterTexts q.filters) false

theorem SelectParts.exists_operand_eq (p : SelectParts) (filters : List Text) :
    ∃ rest, p.operand filters false = "SELECT " ++ rest := by
  unfold SelectParts.operand SelectParts.opening
  simp only [Bool.false_and, Bool.false_eq_true, if_false, List.append_assoc]
  cases p.distinct with
  | false => exact ⟨_, rfl⟩
  | true =>
    have hdistinct : Text.ofString "SELECT DISTINCT " =
        Text.ofString "SELECT " ++ "DISTINCT " := by decide
    rw [if_pos rfl, hdistinct, List.append_assoc]
    exact ⟨_, rfl⟩

theorem feed_select : outline.feed .between "SELECT " = ([.word "SELECT"], .between) := by decide

theorem exists_lexemes_operand (p : SelectParts) (filters : List Text) {own : List Lexeme}
    (h : lexemes? (p.operand filters false) = some own) : ∃ more, own = .word "SELECT" :: more := by
  obtain ⟨rest, hrest⟩ := p.exists_operand_eq filters
  rw [hrest, lexemes?_of_feed feed_select] at h
  obtain ⟨more, -, rfl⟩ := Option.map_eq_some_iff.mp h
  exact ⟨more, rfl⟩

theorem operand?_select {banned : List Text} {more : List Lexeme}
    (h : depthBehind? banned 0 (.word "SELECT" :: more) = some 0) :
    operand? banned (.word "SELECT" :: more) = some (.word "SELECT" :: more) := by
  have hword : isWord "SELECT" (.word "SELECT") = true := by decide
  simp [operand?, hword, h]

-- What is written in front of the operators, and what it reads as.
structure Select.FirstOperand (q : Select) (first own : List Lexeme) : Prop where
  text : lexemes? q.ownText = some first
  lexemes : lexemes? (q.parts.operand (Select.filterTexts q.filters) (!q.operations.isEmpty)) =
    some own
  begins : ∀ l ∈ own.head?, Begins l
  uncut : depthBehind? setWords 0 own = some 0
  operand : operand? (if q.operations.isEmpty then [] else tailWords) own = some first

theorem begins_select {more : List Lexeme} :
    ∀ l ∈ (Lexeme.word "SELECT" :: more).head?, Begins l := by
  rintro l ⟨⟩
  exact .inr rfl

theorem depthBehind?_of_subset {banned banned' : List Text} {ls : List Lexeme} {i j : Nat}
    (hsubset : banned' ⊆ banned) (h : depthBehind? banned i ls = some j) :
    depthBehind? banned' i ls = some j :=
  depthBehind?_of_depth? (f := id) (depth?_of_subset hsubset) h

theorem lexemes?_enclosed {t : Text} {inner : List Lexeme} (h : lexemes? t = some inner) :
    lexemes? (Byte.openParenthesis :: t ++ [Byte.closeParenthesis]) =
      some (.opening :: inner ++ [.closing]) := by
  have hopen : outline.feed .between [Byte.openParenthesis] = ([.opening], .between) := rfl
  have hclosed : lexemes? (t ++ [Byte.closeParenthesis]) = some (inner ++ [.closing]) := by
    rw [lexemes?_append h (by decide)]
    rfl
  have hwhole := lexemes?_of_feed (b := t ++ [Byte.closeParenthesis]) hopen
  rw [hclosed] at hwhole
  simpa using hwhole

-- Ordered or limited, it stands in parentheses in front of the other operands.
theorem exists_firstOperand {q : Select} (h : q.parts.Fitting reserved)
    (hfilters : ∀ t ∈ Select.filterTexts q.filters, Fits reserved t) :
    ∃ first own, q.FirstOperand first own := by
  have hset : setWords ⊆ reserved := List.subset_append_left _ _
  have htail : tailWords ⊆ reserved := List.subset_append_right _ _
  have hfitting : q.parts.Fitting setWords := h.of_subset hset
  by_cases hempty : q.operations.isEmpty = true
  · obtain ⟨first, hfirst, hdepth⟩ :=
      fits_operand hset hfitting (fun _ => List.Subset.refl _) hfilters
    obtain ⟨more, rfl⟩ := exists_lexemes_operand _ _ hfirst
    refine ⟨_, _, hfirst, by simpa [hempty] using hfirst, begins_select, hdepth, ?_⟩
    rw [if_pos hempty]
    exact operand?_select (depthBehind?_of_subset (List.nil_subset _) hdepth)
  · have hcombined : q.operations.isEmpty = false := by simpa using hempty
    by_cases hbounded : q.parts.isBounded = true
    · obtain ⟨first, hfirst, hdepth⟩ :=
        fits_operand hset hfitting (fun _ => List.Subset.refl _) hfilters
      have hnone := depthBehind?_of_subset (List.nil_subset _) hdepth
      refine ⟨first, .opening :: first ++ [.closing], hfirst, ?_, ?_, depthBehind?_enclosed hnone,
        ?_⟩
      · have henclosed := lexemes?_enclosed hfirst
        simpa [SelectParts.operand, hcombined, hbounded] using henclosed
      · rintro l ⟨⟩
        exact .inl rfl
      · exact operand?_enclosed hnone
    · obtain ⟨first, hfirst, hdepth⟩ :=
        fits_operand (List.Subset.refl _) h (fun hb => absurd hb hbounded) hfilters
      obtain ⟨more, rfl⟩ := exists_lexemes_operand _ _ hfirst
      refine ⟨_, _, hfirst, ?_, begins_select, depthBehind?_of_subset hset hdepth, ?_⟩
      · simpa [SelectParts.operand, hcombined, hbounded] using hfirst
      · rw [hcombined]
        exact operand?_select (depthBehind?_of_subset htail hdepth)

-- The other operands.

def ReadsAs (o : SetOperation Select) (r : SetOperator × List Lexeme) : Prop :=
  r.1 = o.operator ∧ lexemes? (Select.operandText o.operand) = some r.2 ∧
    depthBehind? [] 0 r.2 = some 0

theorem exists_forall₂_readsAs {operations : List (SetOperation Select)}
    (h : ∀ o ∈ operations, Fits [] (Select.operandText o.operand)) :
    ∃ rest, List.Forall₂ ReadsAs operations rest := by
  induction operations with
  | nil => exact ⟨[], .nil⟩
  | cons o more ih =>
    obtain ⟨⟨ls, hls, hdepth⟩, hmore⟩ := List.forall_mem_cons.mp h
    obtain ⟨rest, hrest⟩ := ih hmore
    exact ⟨(o.operator, ls) :: rest, .cons ⟨rfl, hls, hdepth⟩ hrest⟩

section

variable {operations : List (SetOperation Select)} {rest : List (SetOperator × List Lexeme)}
variable (h : List.Forall₂ ReadsAs operations rest)

include h

theorem balanced_of_readsAs : ∀ r ∈ rest, depthBehind? [] 0 r.2 = some 0 := by
  induction h with
  | nil => simp
  | cons hr _ ih => exact List.forall_mem_cons.mpr ⟨hr.2.2, ih⟩

theorem isEmpty_of_readsAs : operations.isEmpty = rest.isEmpty := by
  cases h <;> rfl

end

theorem feed_operator (op : SetOperator) :
    outline.feed .between (" " ++ op.text ++ " (") =
      (.word (base op).text :: quantifier op ++ [.opening], .between) := by
  cases op <;> decide

theorem lexemes?_operationsText {operations : List (SetOperation Select)}
    {rest : List (SetOperator × List Lexeme)} (h : List.Forall₂ ReadsAs operations rest) :
    lexemes? (Select.operationsText operations) = some (rest.flatMap operationLexemes) := by
  have hclose : outline.feed .between ")" = ([.closing], .between) := by decide
  induction h with
  | nil => rfl
  | @cons o r operations rest hfirst _ ih =>
    obtain ⟨operator, operand⟩ := o
    obtain ⟨op, inner⟩ := r
    obtain ⟨rfl, hinner, -⟩ := hfirst
    have hclosed : lexemes? (")" ++ Select.operationsText operations) =
        some (.closing :: rest.flatMap operationLexemes) := by
      rw [lexemes?_of_feed hclose, ih]
      rfl
    have hoperand := lexemes?_append (b := ")" ++ Select.operationsText operations) hinner
      (Opens.append (by decide) _)
    rw [hclosed] at hoperand
    have hwhole := lexemes?_of_feed (b := Select.operandText operand ++
      (")" ++ Select.operationsText operations)) (feed_operator op)
    rw [hoperand] at hwhole
    simpa [Select.operationsText, operationLexemes, Reader.segment] using hwhole

theorem opens_operationsText {operations : List (SetOperation Select)} (h : operations ≠ []) :
    Opens (Select.operationsText operations) := by
  cases operations with
  | nil => exact absurd rfl h
  | cons o rest =>
    have hspace : Opens " " := by decide
    simpa [Select.operationsText] using hspace.append _

-- The whole statement.

theorem combination?_text {q : Select} (hown : q.Fitting reserved)
    (hinner : ∀ r ∈ q.inner, r.Fitting []) :
    ∃ first rest, lexemes? q.ownText = some first ∧ List.Forall₂ ReadsAs q.operations rest ∧
      combination? q.text = some (.nest first rest) := by
  obtain ⟨hfilters, hoperations⟩ := List.forall_mem_append.mp hinner
  have henclosed := hown.enclosed
  simp only [Select.enclosed, List.forall_mem_append] at henclosed
  obtain ⟨⟨htables, hwritten⟩, hraw⟩ := henclosed
  have htexts :=
    fits_filterTexts q.filters hown.filters (List.forall_mem_flatMap.mp hwritten) hfilters
  obtain ⟨first, own, hfirst⟩ := exists_firstOperand hown.parts htexts
  obtain ⟨rest, hrest⟩ := exists_forall₂_readsAs
    (fits_operandTexts q.operations (List.forall_mem_flatMap.mp hraw) hoperations)
  obtain ⟨tables, hfeed, hbehind⟩ := exists_feed_withClause (List.forall_mem_map.mp htables)
  have hbody := lexemes?_of_feed (b := q.parts.operand (Select.filterTexts q.filters)
    (!q.operations.isEmpty)) hfeed
  rw [hfirst.lexemes, Option.map_some] at hbody
  have hwhole : lexemes? q.text = some (tables ++ own ++ rest.flatMap operationLexemes) := by
    have hbehind := lexemes?_operationsText hrest
    obtain ⟨parts, filters, operations⟩ := q
    rw [Select.text]
    cases hrest with
    | nil => simpa [Select.operationsText] using hbody
    | cons hr hmore =>
      rw [lexemes?_append hbody (opens_operationsText (by simp)), hbehind]
      rfl
  refine ⟨first, rest, hfirst.text, hrest, ?_⟩
  rw [combination?, hwhole, Option.bind_some]
  exact statement?_append hbehind hfirst.begins hfirst.uncut
    (isEmpty_of_readsAs hrest ▸ hfirst.operand) (balanced_of_readsAs hrest)

-- The operands of a plan.

variable {s : Services} {env : Environment} {before after : State} {q : Select}
variable {includes : Option Include.Plan}

-- What an operand of a plan reads as once it has been rendered.
inductive Renders (s : Services) (env : Environment) : Operand Plan → List Lexeme → Prop where
  | query {p before q includes after ls} (h : Yields (select s env {} p) before (q, includes) after)
      (hread : lexemes? q.text = some ls) : Renders s env (.query p) ls
  | raw {sql ls} (hread : lexemes? sql = some ls) : Renders s env (.raw sql) ls

theorem forall₂_renders {operations : List (SetOperation Plan)} {made : List (SetOperation Select)}
    {rest : List (SetOperator × List Lexeme)}
    (h : Yields (operands s env operations) before made after)
    (hread : List.Forall₂ ReadsAs made rest) :
    List.Forall₂ (fun o r => r.1 = o.operator ∧ Renders s env o.operand r.2) operations rest := by
  induction operations generalizing before after made rest with
  | nil =>
    rw [operands] at h
    obtain ⟨rfl, -⟩ := Yields.pure_iff.mp h
    cases hread
    exact .nil
  | cons o operations ih =>
    obtain ⟨operator, operand⟩ := o
    rw [operands] at h
    obtain ⟨first, _, hfirst, h⟩ := Yields.bind_iff.mp h
    obtain ⟨others, _, hothers, h⟩ := Yields.bind_iff.mp h
    obtain ⟨rfl, -⟩ := Yields.pure_iff.mp h
    cases hread with
    | cons hr hmore =>
      refine .cons ⟨hr.1, ?_⟩ (ih hothers hmore)
      cases operand with
      | query p =>
        rw [Query.operand] at hfirst
        obtain ⟨⟨q, includes⟩, _, hq, hfirst⟩ := Yields.bind_iff.mp hfirst
        obtain ⟨rfl, -⟩ := Yields.pure_iff.mp hfirst
        exact .query hq hr.2.1
      | raw sql =>
        rw [Query.operand] at hfirst
        obtain ⟨rfl, -⟩ := Yields.pure_iff.mp hfirst
        exact .raw hr.2.1

theorem operators_of_renders {operations : List (SetOperation Plan)}
    {rest : List (SetOperator × List Lexeme)}
    (h : List.Forall₂ (fun o r => r.1 = o.operator ∧ Renders s env o.operand r.2) operations rest) :
    rest.map Prod.fst = operations.map SetOperation.operator := by
  induction h with
  | nil => rfl
  | cons hr _ ih => rw [List.map_cons, List.map_cons, hr.1, ih]

theorem yields_operations {v : Variant} {p : Plan} (hkeys : v.keysOnly = false)
    (h : Yields (select s env v p) before (q, includes) after) :
    ∃ first, Yields (operands s env p.operations) first q.operations after := by
  cases p with
  | mk clauses conditions operations =>
    obtain ⟨columns, projections, first, source, joins, filters, second, having, third, orders,
      fourth, combined, -, -, -, -, -, -, -, -, hcombined, rfl⟩ := clauses_of_yields h
    rw [if_neg (by simp [hkeys])] at hcombined
    exact ⟨fourth, hcombined⟩

-- The operands keep their order and their operators. They are combined one after
-- the other exactly if no INTERSECT stands behind another operator.
theorem reads_setOperations {v : Variant} {p : Plan} (hkeys : v.keysOnly = false)
    (h : Yields (select s env v p) before (q, includes) after) (hown : q.Tidy reserved)
    (hinner : ∀ r ∈ q.inner, r.Tidy []) :
    ∃ first rest, lexemes? q.ownText = some first ∧
      List.Forall₂ (fun o r => r.1 = o.operator ∧ Renders s env o.operand r.2) p.operations rest ∧
      combination? q.text = some (.nest first rest) ∧
      (Combination.nest first rest = .leftNested first rest ↔
        Combination.IntersectsFirst (p.operations.map SetOperation.operator)) := by
  obtain ⟨hmade, hwithin⟩ := origins_select p h
  have hfitting : ∀ r ∈ q.inner, r.Fitting [] := by
    intro r hr
    obtain ⟨p', -, hmade'⟩ := hwithin r hr
    exact hmade'.fitting (hinner r hr)
  obtain ⟨first, rest, hfirst, hread, hcombination⟩ :=
    combination?_text (hmade.fitting hown) hfitting
  obtain ⟨_, hoperands⟩ := yields_operations hkeys h
  have hrenders := forall₂_renders hoperands hread
  refine ⟨first, rest, hfirst, hrenders, hcombination, ?_⟩
  rw [← operators_of_renders hrenders]
  exact Combination.nest_eq_leftNested_iff

-- The posts and those with more than one view, of these the ones with more than
-- two views: written down, the intersection comes first.

def postsViewed (views : Int64) : Plan where
  clauses := { root := Catalogue.postEntity }
  conditions :=
    [.predicate (.binary 3 (.compare .greater)
      (.member 1 (.parameter 0 ⟨"p", Catalogue.post, false⟩) "Views") (.constant 2 (.int views)))]

def postsCombined : Plan where
  clauses := { root := Catalogue.postEntity }
  operations := [⟨.union, .query (postsViewed 1)⟩, ⟨.intersect, .query (postsViewed 2)⟩]

def combiningServices : Services := { registry := Catalogue.registry, mode := .literal }

def selectPosts (filters : List (Filter Select)) (operations : List (SetOperation Select)) :
    Select :=
  ⟨{ projections := [.allColumnsOf "posts"], source := .table "posts" none }, filters, operations⟩

def selectViewed (views : Text) : Select :=
  selectPosts [.term (.operation (.compare .greater) (.column none "views") (.value views))] []

def selectCombined : Select :=
  selectPosts [] [⟨.union, .query (selectViewed "1")⟩, ⟨.intersect, .query (selectViewed "2")⟩]

theorem tidy_selectViewed (views : Text) : (selectViewed views).Tidy [] where
  written := by
    simp [selectViewed, selectPosts, SelectParts.written, Projection.written, Source.written]
  enclosed := by simp [selectViewed, selectPosts, Select.enclosed, Filter.enclosed]
  signs := by
    refine List.forall_mem_singleton.mpr (.of_operands (by simp) ?_)
    refine List.forall_mem_cons.mpr ⟨?_, List.forall_mem_singleton.mpr ?_⟩
    · exact .of_operands (by simp) (by simp [Term.operands])
    · exact .of_operands (by simp) (by simp [Term.operands])

theorem reads_setOperations_postsCombined :
    ∃ after, Yields (select combiningServices readEnvironment {} postsCombined) {}
        (selectCombined, none) after ∧
      selectCombined.text = "SELECT \"posts\".* FROM \"posts\" " ++
        "UNION (SELECT \"posts\".* FROM \"posts\" WHERE (\"views\" > 1)) " ++
        "INTERSECT (SELECT \"posts\".* FROM \"posts\" WHERE (\"views\" > 2))" ∧
      ∃ first second third,
        combination? selectCombined.text = some (.combine .union (.operand first)
          (.combine .intersect (.operand second) (.operand third))) ∧
        combination? selectCombined.text ≠
          some (.leftNested first [(.union, second), (.intersect, third)]) := by
  obtain ⟨after, hrender⟩ : ∃ after, Yields (select combiningServices readEnvironment {}
      postsCombined) {} (selectCombined, none) after := ⟨_, rfl⟩
  have hown : selectCombined.Tidy reserved := ⟨by decide, by decide, by simp [selectCombined,
    selectPosts, Select.terms, SelectParts.terms, Projection.terms]⟩
  have hinner : ∀ r ∈ selectCombined.inner, r.Tidy [] := by
    refine List.forall_mem_cons.mpr ⟨tidy_selectViewed "1", ?_⟩
    exact List.forall_mem_singleton.mpr (tidy_selectViewed "2")
  obtain ⟨first, rest, -, hrest, hread, hleft⟩ := reads_setOperations rfl hrender hown hinner
  obtain _ | ⟨⟨hunion, -⟩, _ | ⟨⟨hintersect, -⟩, _ | _⟩⟩ := hrest
  rename_i second third
  obtain ⟨_, second⟩ := second
  obtain ⟨_, third⟩ := third
  obtain rfl := hunion
  obtain rfl := hintersect
  refine ⟨after, hrender, by decide, first, second, third, hread, fun hsame => ?_⟩
  rw [hread] at hsame
  exact absurd (hleft.mp (Option.some.inj hsame)) (by decide)

end EntitySql.Query
