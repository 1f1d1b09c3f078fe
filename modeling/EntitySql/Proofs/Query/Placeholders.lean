import EntitySql.Proofs.Include.Names
import EntitySql.Proofs.Query.Fragments
import EntitySql.Proofs.Query.Slots
import EntitySql.Proofs.Sql.Placeholders
import EntitySql.Query.Statement

-- The placeholders of whole statements. The clauses are compiled in the order
-- in which they are written, also those of subqueries, so the placeholders of
-- a statement name its new bindings from left to right.

namespace EntitySql.Include

open Sql

-- The columns and joins of an include plan hold no placeholder when no
-- identifier of the root and of the registry holds a marker: all other names in
-- them are numbered aliases.

theorem placeholders_columnText {column : Text × Text} (htable : placeholders column.1 = [])
    (hname : placeholders column.2 = []) : placeholders (columnText column) = [] := by
  have hdot : Parts [Byte.dot] := by decide
  show placeholders (quoted column.1 ++ ([Byte.dot] ++ quoted column.2)) = []
  rw [placeholders_between _ _ hdot, placeholders_quoted htable, placeholders_quoted hname]
  rfl

theorem SelectedColumn.placeholders_text {c : SelectedColumn}
    (h : ∀ t ∈ c.names, placeholders t = []) : placeholders c.text = [] := by
  have hcolumn : placeholders (columnText c.column) = [] :=
    placeholders_columnText (h _ (by simp [names])) (h _ (by simp [names]))
  unfold text
  cases hname : c.name with
  | none => exact hcolumn
  | some name =>
    show placeholders (columnText c.column ++ Text.ofString " AS " ++ quoted name) = []
    rw [placeholders_beside _ _ (by decide), hcolumn,
      placeholders_quoted (h name (by simp [names, hname]))]
    rfl

theorem Join.placeholders_text {j : Join} (h : ∀ t ∈ j.names, placeholders t = []) :
    placeholders j.text = [] := by
  have hquoted {name : Text} (hname : name ∈ j.names) : placeholders (quoted name) = [] :=
    placeholders_quoted (h name hname)
  rw [text, placeholders_beside _ _ (by decide), placeholders_beside _ _ (by decide),
    placeholders_beside _ _ (by decide), placeholders_append_of_not_mem (by decide),
    hquoted (by simp [names]), hquoted (by simp [names]),
    placeholders_columnText (h _ (by simp [names])) (h _ (by simp [names])),
    placeholders_columnText (h _ (by simp [names])) (h _ (by simp [names]))]
  rfl

namespace Plan

variable {registry : Registry} {p : Plan}

-- No identifier that a plan can name holds a marker.
structure Unmarked (registry : Registry) (p : Plan) : Prop where
  sound : p.Sound registry
  root : ∀ t ∈ p.root.identifiers, Sql.Unmarked t
  registry : ∀ t ∈ registry.identifiers, Sql.Unmarked t

namespace Unmarked

theorem vocabulary (h : p.Unmarked registry) : p.Vocabulary (placeholders · = []) registry where
  sound := h.sound
  names t ht := by
    rcases List.mem_append.mp (h.sound.mem_identifiers ht) with hroot | hregistered
    · exact placeholders_of_unmarked (h.root t hroot)
    · exact placeholders_of_unmarked (h.registry t hregistered)
  aliasOf number := placeholders_of_plain (Node.plain_aliasOf number)
  junctionAlias n halias := by
    rw [Node.junctionAlias, placeholders_append_of_not_mem (by decide), halias]
  columnAlias number column hcolumn := by
    show placeholders (Node.aliasOf number ++ ([Byte.underscore] ++ column)) = []
    rw [placeholders_between _ _ (by decide), hcolumn, List.append_nil]
    exact placeholders_of_plain (Node.plain_aliasOf number)

theorem placeholders_selectedColumns (h : p.Unmarked registry) :
    ∀ c ∈ selectedColumns p, placeholders c.text = [] :=
  fun c hc => SelectedColumn.placeholders_text (h.vocabulary.selectedColumns c hc)

theorem placeholders_joins (h : p.Unmarked registry) : ∀ j ∈ joins p, placeholders j.text = [] :=
  fun j hj => Join.placeholders_text (h.vocabulary.joins j hj)

end Unmarked

end Plan

end EntitySql.Include

namespace EntitySql.Query

open Sql

-- The text of a SELECT.

theorem placeholders_clause {word separator : Text} (hword : Parts word)
    (hseparator : Parts separator) (items : List Text) :
    placeholders (SelectParts.clause word separator items) = items.flatMap placeholders := by
  unfold SelectParts.clause
  split
  · next hempty =>
    rw [List.isEmpty_iff.mp hempty]
    rfl
  · rw [placeholders_append_of_not_mem hword.not_mem, placeholders_join hseparator]

theorem opens_clause {word : Text} (hword : Parts word) (separator : Text) (items : List Text) :
    Opens (SelectParts.clause word separator items) := by
  unfold SelectParts.clause
  split
  · simp [Opens]
  · exact hword.opens _

theorem plain_ofInt (n : Int) : Text.Plain (Text.ofInt n) := .of_numeral (.ofInt n)

theorem parts_countClause (word : Text) (hword : Parts word) (n : Option Int) :
    Opens (SelectParts.countClause word n) ∧ placeholders (SelectParts.countClause word n) = [] := by
  cases n with
  | none => exact ⟨.nil, rfl⟩
  | some n =>
    refine ⟨hword.opens _, ?_⟩
    rw [SelectParts.countClause, placeholders_append_of_not_mem hword.not_mem,
      placeholders_of_plain (plain_ofInt n)]

theorem opens_space (t : Text) : Opens (Byte.space :: t) := by
  have hspace : Parts [Byte.space] := by decide
  exact hspace.opens t

theorem placeholders_spaced {clauses : List Text} (h : ∀ t ∈ clauses, placeholders t = []) :
    placeholders (SelectParts.spaced clauses) = [] := by
  rw [SelectParts.spaced, placeholders_flatMap_opens opens_space, List.flatMap_eq_nil_iff]
  intro t ht
  have hspace : atSign ∉ [Byte.space] := by decide
  rw [← List.singleton_append, placeholders_append_of_not_mem hspace, h t ht]

theorem opens_spaced (clauses : List Text) : Opens (SelectParts.spaced clauses) :=
  .flatMap opens_space clauses

def Projection.placeholders (p : Projection) : List Text := Sql.placeholders p.text

def orderPlaceholders (o : Term × Bool) : List Text := o.1.placeholders

theorem placeholders_orderText (o : Term × Bool) :
    placeholders (SelectParts.orderText o) = orderPlaceholders o := by
  have hdirection : Parts (if o.2 then Text.ofString " ASC" else Text.ofString " DESC") := by
    split <;> decide
  rw [SelectParts.orderText, placeholders_before _ hdirection]
  rfl

-- Everything but the compiled clauses is without placeholders.
structure SelectParts.Silent (p : SelectParts) : Prop where
  tables : ∀ t ∈ p.tables, placeholders t.text = []
  source : placeholders p.source.text = []
  joins : ∀ j ∈ p.joins, placeholders j.text = []
  rawJoins : ∀ t ∈ p.rawJoins, placeholders t = []
  groupKeys : ∀ t ∈ p.groupKeys, t.placeholders = []

namespace SelectParts

variable {p : SelectParts}

theorem placeholders_opening (h : p.Silent) :
    placeholders p.opening = p.projections.flatMap Projection.placeholders := by
  have hcomma : Parts ", " := by decide
  have hselect : atSign ∉ (if p.distinct then Text.ofString "SELECT DISTINCT "
      else Text.ofString "SELECT ") := by
    split <;> decide
  have hjoins : ∀ t ∈ p.joins.map Include.Join.text, placeholders t = [] := by
    intro t ht
    obtain ⟨j, hj, rfl⟩ := List.mem_map.mp ht
    exact h.joins j hj
  rw [opening, placeholders_append _ (opens_spaced _), placeholders_append _ (opens_spaced _),
    placeholders_spaced h.rawJoins, placeholders_spaced hjoins,
    placeholders_beside _ _ (by decide), h.source, placeholders_append_of_not_mem hselect,
    Text.commaJoin, placeholders_join hcomma, List.flatMap_map]
  simp only [List.append_nil]
  rfl

theorem opens_closing (p : SelectParts) : Opens p.closing := by
  unfold closing
  refine ((((opens_clause ?_ _ _).append (opens_clause ?_ _ _)).append (opens_clause ?_ _ _)).append
    (parts_countClause _ ?_ _).1).append (parts_countClause _ ?_ _).1 <;> decide

theorem placeholders_closing (h : p.Silent) :
    placeholders p.closing =
      p.having.flatMap Term.placeholders ++ p.orders.flatMap orderPlaceholders := by
  have hcomma : Parts ", " := by decide
  have hgroup : Parts " GROUP BY " := by decide
  have hhaving : Parts " HAVING " := by decide
  have hand : Parts " AND " := by decide
  have horder : Parts " ORDER BY " := by decide
  obtain ⟨hlimit, hlimit'⟩ := parts_countClause " LIMIT " (by decide) p.limit
  obtain ⟨hoffset, hoffset'⟩ := parts_countClause " OFFSET " (by decide) p.offset
  have hkeys : (p.groupKeys.map Term.text).flatMap placeholders = [] := by
    rw [List.flatMap_map, List.flatMap_eq_nil_iff]
    exact h.groupKeys
  rw [closing, placeholders_append _ hoffset, placeholders_append _ hlimit, hlimit', hoffset',
    placeholders_append _ (opens_clause horder _ _), placeholders_append _ (opens_clause hhaving _ _),
    placeholders_clause hgroup hcomma, placeholders_clause hhaving hand,
    placeholders_clause horder hcomma, hkeys, List.flatMap_map, List.flatMap_map]
  simp only [List.append_nil, List.nil_append, placeholders_orderText]
  rfl

-- The compiled clauses in the order of the text.
theorem placeholders_operand (h : p.Silent) (filters : List Text) (combined : Bool) :
    placeholders (p.operand filters combined) =
      p.projections.flatMap Projection.placeholders ++ filters.flatMap placeholders ++
        (p.having.flatMap Term.placeholders ++ p.orders.flatMap orderPlaceholders) := by
  have hwhere : Parts " WHERE " := by decide
  have hand : Parts " AND " := by decide
  have hbody : placeholders (p.opening ++ clause " WHERE " " AND " filters ++ p.closing) =
      p.projections.flatMap Projection.placeholders ++ filters.flatMap placeholders ++
        (p.having.flatMap Term.placeholders ++ p.orders.flatMap orderPlaceholders) := by
    rw [placeholders_append _ p.opens_closing, placeholders_append _ (opens_clause hwhere _ _),
      placeholders_opening h, placeholders_clause hwhere hand, placeholders_closing h]
  unfold operand
  by_cases hbounded : (combined && p.isBounded) = true
  · rw [if_pos hbounded, ← List.singleton_append, placeholders_enclosed (by decide) (by decide),
      hbody]
  · rw [if_neg hbounded, hbody]

end SelectParts

theorem CommonTable.placeholders_text {t : CommonTable} (h : ∀ s ∈ t.fragments, Unmarked s) :
    placeholders t.text = [] := by
  simp only [fragments, names, List.mem_append, List.mem_cons, or_imp, forall_and, forall_eq] at h
  obtain ⟨⟨hname, hcolumns⟩, hbody⟩ := h
  have hquoted {name : Text} (hname : Unmarked name) : placeholders (Sql.quoted name) = [] :=
    placeholders_quoted (placeholders_of_unmarked hname)
  have hlist : Opens t.columnList ∧ placeholders t.columnList = [] := by
    unfold columnList
    split
    · exact ⟨.nil, rfl⟩
    · have hopen : Parts " (" := by decide
      refine ⟨?_, ?_⟩
      · rw [List.append_assoc]
        exact hopen.opens _
      · rw [placeholders_enclosed hopen.not_mem (by decide)]
        refine placeholders_commaJoin fun p hp => ?_
        obtain ⟨column, hcolumn, rfl⟩ := List.mem_map.mp hp
        exact hquoted (hcolumns column hcolumn)
  have htext : placeholders t.body.text = [] := by
    cases hcase : t.body with
    | plain sql => exact placeholders_of_unmarked (hbody sql (by simp [hcase, CommonTableBody.fragments]))
    | recursive anchor step =>
      rw [CommonTableBody.text, placeholders_beside _ _ (by decide),
        placeholders_of_unmarked (hbody anchor (by simp [hcase, CommonTableBody.fragments])),
        placeholders_of_unmarked (hbody step (by simp [hcase, CommonTableBody.fragments]))]
      rfl
  rw [text, placeholders_before _ (by decide), placeholders_beside _ _ (by decide),
    placeholders_append _ hlist.1, hquoted hname, hlist.2, htext]
  rfl

-- The WITH clause ends in a blank.
theorem placeholders_withClause_append {tables : List CommonTable}
    (h : ∀ t ∈ tables, placeholders t.text = []) (rest : Text) :
    placeholders (withClause tables ++ rest) = placeholders rest := by
  have hspace : Parts [Byte.space] := by decide
  have hword : atSign ∉ withWord tables := by
    unfold withWord
    split <;> decide
  have htables : placeholders (Text.commaJoin (tables.map CommonTable.text)) = [] := by
    refine placeholders_commaJoin fun p hp => ?_
    obtain ⟨t, ht, rfl⟩ := List.mem_map.mp hp
    exact h t ht
  unfold withClause
  split
  · rfl
  · rw [placeholders_beside _ _ hspace, placeholders_append_of_not_mem hword, htables]
    rfl

namespace Select

theorem opens_operationsText (operations : List (SetOperation Select)) :
    Opens (operationsText operations) := by
  cases operations with
  | nil => exact .nil
  | cons o rest =>
    rw [operationsText]
    exact opens_space _

theorem placeholders_text {parts : SelectParts} (h : parts.Silent) (filters : List (Filter Select))
    (operations : List (SetOperation Select)) :
    placeholders (text ⟨parts, filters, operations⟩) =
      parts.projections.flatMap Projection.placeholders ++
        (filterTexts filters).flatMap placeholders ++
        (parts.having.flatMap Term.placeholders ++ parts.orders.flatMap orderPlaceholders) ++
        placeholders (operationsText operations) := by
  rw [text, placeholders_append _ (opens_operationsText operations),
    placeholders_withClause_append h.tables, SelectParts.placeholders_operand h]

theorem placeholders_operationsText_cons (o : SetOperation Select)
    (rest : List (SetOperation Select)) :
    placeholders (operationsText (o :: rest)) =
      placeholders (operandText o.operand) ++ placeholders (operationsText rest) := by
  have hoperator : atSign ∉ Text.ofString " " ++ o.operator.text ++ Text.ofString " (" := by
    cases o.operator <;> decide
  have hclose : Parts ")" := by decide
  rw [operationsText, placeholders_append _ (opens_operationsText rest),
    placeholders_enclosed hoperator hclose]

theorem parts_wordIn (negated : Bool) : Parts (wordIn negated) := by
  cases negated <;> decide

theorem not_mem_wordExists (negated : Bool) : atSign ∉ wordExists negated := by
  cases negated <;> decide

theorem placeholders_inTerms {column : Term} (hcolumn : column.placeholders = [])
    (items : List Term) (negated : Bool) :
    placeholders (filterText (.inTerms column items negated)) = items.flatMap Term.placeholders := by
  have hclose : Parts ")" := by decide
  rw [filterText, inTermsText, placeholders_before _ hclose,
    placeholders_beside _ _ (parts_wordIn negated), Term.placeholders_commaJoin,
    show placeholders column.text = [] from hcolumn, List.nil_append]

-- The text behind IN.
theorem placeholders_inText {column : Term} (hcolumn : column.placeholders = []) (t : Text)
    (negated : Bool) :
    placeholders (column.text ++ wordIn negated ++ t ++ Text.ofString ")") = placeholders t := by
  rw [placeholders_before _ (by decide), placeholders_beside _ _ (parts_wordIn negated),
    show placeholders column.text = [] from hcolumn, List.nil_append]

end Select

-- A CASE projection.

namespace Case

def placeholders (c : Case Term) : List Text :=
  c.branches.flatMap (fun b => Sql.placeholders b.1.text ++ Sql.placeholders b.2.text) ++
    (c.otherwise.map Term.placeholders).getD []

theorem placeholders_text {c : Case Term} (halias : Unmarked c.aliasName) :
    Sql.placeholders c.text = c.placeholders := by
  have hwhen : Parts " WHEN " := by decide
  have hthen : Parts " THEN " := by decide
  have hopens (b : Side Term × Side Term) : Opens (branchText b) := by
    rw [branchText, List.append_assoc, List.append_assoc]
    exact hwhen.opens _
  have hbranch (b : Side Term × Side Term) :
      Sql.placeholders (branchText b) = Sql.placeholders b.1.text ++ Sql.placeholders b.2.text := by
    rw [branchText, placeholders_beside _ _ hthen, placeholders_append_of_not_mem hwhen.not_mem]
  have helse : Opens c.elseText ∧ Sql.placeholders c.elseText =
      (c.otherwise.map Term.placeholders).getD [] := by
    unfold elseText
    cases c.otherwise with
    | none => exact ⟨.nil, rfl⟩
    | some t =>
      have hword : Parts " ELSE " := by decide
      exact ⟨hword.opens _, placeholders_append_of_not_mem hword.not_mem _⟩
  have hname : Opens c.aliasText ∧ Sql.placeholders c.aliasText = [] := by
    unfold aliasText
    split
    · exact ⟨.nil, rfl⟩
    · have hword : Parts " AS " := by decide
      refine ⟨hword.opens _, ?_⟩
      rw [placeholders_append_of_not_mem hword.not_mem]
      exact placeholders_quoted (placeholders_of_unmarked halias)
  rw [text, placeholders_append _ hname.1, hname.2, placeholders_before _ (by decide),
    placeholders_append _ helse.1, helse.2, placeholders_append_of_not_mem (by decide),
    placeholders_flatMap_opens hopens, List.append_nil]
  simp only [hbranch]
  rfl

end Case

theorem Source.placeholders_table {name : Text} (hname : Unmarked name) {aliasName : Option Text}
    (halias : ∀ a ∈ aliasName, placeholders a = []) :
    placeholders (Source.table name aliasName).text = [] := by
  have hquoted := placeholders_quoted (placeholders_of_unmarked hname)
  cases aliasName with
  | none => exact hquoted
  | some a =>
    show placeholders (Sql.quoted name ++ ([Byte.space] ++ Sql.quoted a)) = []
    rw [placeholders_between _ _ (by decide), hquoted, placeholders_quoted (halias a rfl)]
    rfl

end EntitySql.Query
