import EntitySql.Proofs.Query.Origins
import EntitySql.Proofs.Sql.Fitting

-- The text of a statement, made of terms and hand-written SQL that fit. What
-- stands in parentheses is only to close the ones that it opens.

namespace EntitySql.Query

open Sql (Term Compiler)
open Sql.Compiler (State)
open Sql.Outline

-- Hand-written SQL, outside of parentheses and within them.

def Side.written : Side Term → List Text
  | .raw sql => [sql]
  | .of _ => []

def Case.written (e : Case Term) : List Text :=
  e.branches.flatMap fun b => b.1.written ++ b.2.written

def Projection.written : Projection → List Text
  | .raw sql => [sql]
  | .case e => e.written
  | _ => []

def Source.written : Source → List Text
  | .raw sql => [sql]
  | .table _ _ => []

def SelectParts.written (p : SelectParts) : List Text :=
  p.projections.flatMap Projection.written ++ p.source.written ++ p.rawJoins

def Filter.enclosed {σ : Type} : Filter σ → List Text
  | .raw pieces => [pieces.flatMap RawPiece.text]
  | .inRaw _ sql _ => [sql]
  | _ => []

def Operand.written {π : Type} : Operand π → List Text
  | .query _ => []
  | .raw sql => [sql]

def Select.enclosed (q : Select) : List Text :=
  q.parts.tables.map (·.body.text) ++ q.filters.flatMap Filter.enclosed ++
    q.operations.flatMap fun o => o.operand.written

structure SelectParts.Fitting (banned : List Text) (p : SelectParts) : Prop where
  written : ∀ t ∈ p.written, Fits banned t
  terms : ∀ t ∈ p.terms, Fits reserved t.text
  windows : ∀ t ∈ p.windows, Fits reserved t

structure Select.Fitting (banned : List Text) (q : Select) : Prop where
  parts : q.parts.Fitting banned
  filters : ∀ f ∈ q.filters, ∀ t ∈ f.terms, Fits reserved t.text
  enclosed : ∀ t ∈ q.enclosed, Fits [] t

variable {banned : List Text} {t w : Text}

-- Clauses.

theorem fits_clause {body separator : Text} {items : List Text} (hbody : Fits banned body)
    (hword : Continues banned w 0 0) (hseparator : Continues banned separator 0 0)
    (h : ∀ p ∈ items, Fits banned p) :
    Fits banned (body ++ SelectParts.clause w separator items) := by
  unfold SelectParts.clause
  split
  · rwa [List.append_nil]
  · rw [← List.append_assoc]
    exact (Ends.word hbody hword).operand (fits_join hseparator h)

theorem fits_countClause {body : Text} (hbody : Fits banned body) (hword : Continues banned w 0 0)
    (hbanned : banned ⊆ reserved) (n : Option Int) :
    Fits banned (body ++ SelectParts.countClause w n) := by
  cases n with
  | none => rwa [SelectParts.countClause, List.append_nil]
  | some n =>
    rw [SelectParts.countClause, ← List.append_assoc]
    exact (Ends.word hbody hword).operand ((fits_ofInt n).of_subset hbanned)

theorem fits_spaced {body : Text} {clauses : List Text} (hbody : Fits banned body)
    (h : ∀ p ∈ clauses, Fits banned p) : Fits banned (body ++ SelectParts.spaced clauses) := by
  have hspace : Continues banned [Byte.space] 0 0 := ⟨by decide, [], rfl, rfl⟩
  induction clauses generalizing body with
  | nil => rwa [SelectParts.spaced, List.flatMap_nil, List.append_nil]
  | cons p rest ih =>
    obtain ⟨hp, hrest⟩ := List.forall_mem_cons.mp h
    have hfirst : Fits banned (body ++ [Byte.space] ++ p) := (Ends.word hbody hspace).operand hp
    simpa [SelectParts.spaced] using ih hfirst hrest

-- A word between clauses, whatever is banned.
theorem continues_word (hbanned : banned ⊆ reserved) (h : Continues reserved w 0 0) :
    Continues banned w 0 0 := h.of_subset hbanned

theorem fits_alias (h : Fits banned t) (hbanned : banned ⊆ reserved) (name : Text) :
    Fits banned (t ++ " AS " ++ Sql.quoted name) :=
  (Ends.word h (continues_word hbanned (by decide))).operand (fits_name name)

theorem fits_includeColumn (column : Text × Text) : Fits banned (Include.columnText column) :=
  fits_columnText (some column.1) column.2

theorem fits_order {o : Term × Bool} (h : Fits banned o.1.text) (hbanned : banned ⊆ reserved) :
    Fits banned (SelectParts.orderText o) := by
  unfold SelectParts.orderText
  split
  · exact Ends.append h (by decide) (Fits.of_subset (by decide) hbanned)
  · exact Ends.append h (by decide) (Fits.of_subset (by decide) hbanned)

section

variable (hbanned : banned ⊆ reserved)

include hbanned

theorem fits_side {e : Side Term} (hwritten : ∀ t ∈ e.written, Fits banned t)
    (hterms : ∀ t ∈ e.terms, Fits reserved t.text) : Fits banned e.text := by
  cases e with
  | raw sql => exact hwritten sql (List.mem_singleton_self sql)
  | of t => exact (hterms t (List.mem_singleton_self t)).of_subset hbanned

theorem fits_branches {body : Text} {branches : List (Side Term × Side Term)}
    (hbody : Fits banned body)
    (hwritten : ∀ b ∈ branches, ∀ t ∈ b.1.written ++ b.2.written, Fits banned t)
    (hterms : ∀ b ∈ branches, ∀ t ∈ b.1.terms ++ b.2.terms, Fits reserved t.text) :
    Fits banned (body ++ branches.flatMap Case.branchText) := by
  induction branches generalizing body with
  | nil => rwa [List.flatMap_nil, List.append_nil]
  | cons b rest ih =>
    obtain ⟨hfirst, hwritten⟩ := List.forall_mem_cons.mp hwritten
    obtain ⟨hterm, hterms⟩ := List.forall_mem_cons.mp hterms
    obtain ⟨hcondition, hresult⟩ := List.forall_mem_append.mp hfirst
    obtain ⟨hleft, hright⟩ := List.forall_mem_append.mp hterm
    have hwhen : Continues banned " WHEN " 0 0 := continues_word hbanned (by decide)
    have hthen : Continues banned " THEN " 0 0 := continues_word hbanned (by decide)
    have hwhole := ((Ends.word hbody hwhen).operand (fits_side hbanned hcondition hleft)).word hthen
    have hbranch : Fits banned _ := hwhole.operand (fits_side hbanned hresult hright)
    simpa [Case.branchText] using ih hbranch hwritten hterms

theorem fits_case {e : Case Term} (hwritten : ∀ t ∈ e.written, Fits banned t)
    (hterms : ∀ t ∈ e.terms, Fits reserved t.text) : Fits banned e.text := by
  obtain ⟨hbranches, hotherwise⟩ := List.forall_mem_append.mp hterms
  have hcase : Fits banned "CASE" := Fits.of_subset (by decide) hbanned
  have hfirst := fits_branches hbanned hcase (List.forall_mem_flatMap.mp hwritten)
    (List.forall_mem_flatMap.mp hbranches)
  have helse : Fits banned ("CASE" ++ e.branches.flatMap Case.branchText ++ e.elseText) := by
    unfold Case.elseText
    split
    · rwa [List.append_nil]
    · next t ht =>
      have hword : Continues banned " ELSE " 0 0 := continues_word hbanned (by decide)
      have hterm := hotherwise t (Option.mem_toList.mpr ht)
      rw [← List.append_assoc]
      exact (Ends.word hfirst hword).operand (hterm.of_subset hbanned)
  have hend : Fits banned ("CASE" ++ e.branches.flatMap Case.branchText ++ e.elseText ++ " END") :=
    Ends.append helse (by decide) (Fits.of_subset (by decide) hbanned)
  unfold Case.text Case.aliasText
  split
  · rwa [List.append_nil]
  · rw [← List.append_assoc]
    exact fits_alias hend hbanned e.aliasName

theorem fits_projection {r : Projection} (hwritten : ∀ t ∈ r.written, Fits banned t)
    (hterms : ∀ t ∈ r.terms, Fits reserved t.text) (hwindows : ∀ t ∈ r.windows, Fits reserved t) :
    Fits banned r.text := by
  cases r with
  | raw sql => exact hwritten sql (List.mem_singleton_self sql)
  | allColumns => exact Fits.of_subset (by decide) hbanned
  | allColumnsOf table =>
    exact Ends.append (fits_name table) (by decide) (Fits.of_subset (by decide) hbanned)
  | column c =>
    rw [Projection.text, Include.SelectedColumn.text]
    split
    · exact fits_includeColumn c.column
    · exact fits_alias (fits_includeColumn c.column) hbanned _
  | groupKey t => exact (hterms t (List.mem_singleton_self t)).of_subset hbanned
  | aggregate t name =>
    exact fits_alias ((hterms t (List.mem_singleton_self t)).of_subset hbanned) hbanned name
  | window sql => exact (hwindows sql (List.mem_singleton_self sql)).of_subset hbanned
  | case e => exact fits_case hbanned hwritten hterms

theorem fits_source {source : Source} (hwritten : ∀ t ∈ source.written, Fits banned t) :
    Fits banned source.text := by
  cases source with
  | raw sql => exact hwritten sql (List.mem_singleton_self sql)
  | table name aliasName =>
    cases aliasName with
    | none => exact fits_name name
    | some aliasName =>
      have hspace : Continues banned " " 0 0 := continues_word hbanned (by decide)
      have htable : Fits banned (Sql.quoted name ++ " " ++ Sql.quoted aliasName) :=
        (Ends.word (fits_name name) hspace).operand (fits_name aliasName)
      rwa [List.append_assoc] at htable

theorem fits_includeJoin (j : Include.Join) : Fits banned j.text := by
  have hjoin : Leads reserved "LEFT JOIN " 0 0 := by decide
  have hspace : Continues reserved " " 0 0 := by decide
  have hon : Continues reserved " ON " 0 0 := by decide
  have hequal : Continues reserved " = " 0 0 := by decide
  have htable := ((hjoin.operand (fits_name j.table)).word hspace).operand (fits_name j.aliasName)
  have hcolumns := ((htable.word hon).operand (fits_includeColumn j.left)).word hequal
  exact Fits.of_subset (hcolumns.operand (fits_includeColumn j.right)) hbanned

theorem fits_opening {p : SelectParts} (h : p.Fitting banned) : Fits banned p.opening := by
  have hselect : Leads reserved
      (if p.distinct then Text.ofString "SELECT DISTINCT " else Text.ofString "SELECT ") 0 0 := by
    cases p.distinct <;> decide
  have hfrom : Continues banned " FROM " 0 0 := continues_word hbanned (by decide)
  have hwritten := h.written
  simp only [SelectParts.written, List.forall_mem_append] at hwritten
  obtain ⟨⟨hprojections, hsource⟩, hjoins⟩ := hwritten
  have hitems : ∀ t ∈ p.projections.map Projection.text, Fits banned t := by
    refine List.forall_mem_map.mpr fun r hr => fits_projection hbanned ?_ ?_ ?_
    · exact List.forall_mem_flatMap.mp hprojections r hr
    · intro t ht
      refine h.terms t ?_
      simp only [SelectParts.terms, List.mem_append, List.mem_flatMap]
      exact .inl (.inl (.inl ⟨r, hr, ht⟩))
    · exact fun t ht => h.windows t (List.mem_flatMap.mpr ⟨r, hr, ht⟩)
  have hselected := (hselect.of_subset hbanned).operand (fits_commaJoin hitems)
  have hsources : Fits banned _ := (hselected.word hfrom).operand (fits_source hbanned hsource)
  refine fits_spaced (fits_spaced hsources ?_) hjoins
  exact List.forall_mem_map.mpr fun j _ => fits_includeJoin hbanned j

-- Ordering and paging are clauses of the whole statement.
theorem fits_operand {p : SelectParts} (h : p.Fitting banned)
    (hbounded : p.isBounded = true → banned ⊆ setWords) {filters : List Text}
    (hfilters : ∀ t ∈ filters, Fits reserved t) : Fits banned (p.operand filters false) := by
  have hword {w : Text} (hw : Continues reserved w 0 0) : Continues banned w 0 0 :=
    continues_word hbanned hw
  have hterms := h.terms
  simp only [SelectParts.terms, List.forall_mem_append] at hterms
  obtain ⟨⟨⟨-, hkeys⟩, hhaving⟩, horders⟩ := hterms
  have hwhere : Fits banned (p.opening ++ SelectParts.clause " WHERE " " AND " filters) :=
    fits_clause (fits_opening hbanned h) (hword (by decide)) (hword (by decide))
      fun t ht => (hfilters t ht).of_subset hbanned
  have hgrouped : Fits banned (p.opening ++ SelectParts.clause " WHERE " " AND " filters ++
      SelectParts.clause " GROUP BY " ", " (p.groupKeys.map Term.text)) :=
    fits_clause hwhere (hword (by decide)) (continues_comma 0)
      (List.forall_mem_map.mpr fun t ht => (hkeys t ht).of_subset hbanned)
  have hfiltered : Fits banned (p.opening ++ SelectParts.clause " WHERE " " AND " filters ++
      SelectParts.clause " GROUP BY " ", " (p.groupKeys.map Term.text) ++
      SelectParts.clause " HAVING " " AND " (p.having.map Term.text)) :=
    fits_clause hgrouped (hword (by decide)) (hword (by decide))
      (List.forall_mem_map.mpr fun t ht => (hhaving t ht).of_subset hbanned)
  have hall : Fits banned
      (p.opening ++ SelectParts.clause " WHERE " " AND " filters ++ p.closing) := by
    simp only [SelectParts.closing, ← List.append_assoc]
    by_cases htail : p.isBounded = true
    · have hset {w : Text} (hw : Continues setWords w 0 0) : Continues banned w 0 0 :=
        hw.of_subset (hbounded htail)
      have hitems : ∀ t ∈ p.orders.map SelectParts.orderText, Fits banned t := by
        refine List.forall_mem_map.mpr fun o ho => fits_order ?_ hbanned
        exact (horders o.1 (List.mem_map_of_mem ho)).of_subset hbanned
      have horder : Continues setWords " ORDER BY " 0 0 := by decide
      have hordered := fits_clause hfiltered (hset horder) (continues_comma 0) hitems
      exact fits_countClause (fits_countClause hordered (hset (by decide)) hbanned _)
        (hset (by decide)) hbanned _
    · simp only [SelectParts.isBounded, Bool.or_eq_true, Bool.not_eq_true', not_or,
        Bool.not_eq_false, List.isEmpty_iff, Option.isSome_iff_ne_none, ne_eq, not_not] at htail
      obtain ⟨⟨horder, hlimit⟩, hoffset⟩ := htail
      simpa [horder, hlimit, hoffset, SelectParts.clause, SelectParts.countClause] using hfiltered
  exact hall

end

-- Common tables.

theorem fits_heading (table : CommonTable) :
    Fits banned (Sql.quoted table.name ++ table.columnList) := by
  unfold CommonTable.columnList
  split
  · rw [List.append_nil]
    exact fits_name table.name
  · have hopen : Continues banned " (" 0 1 := ⟨by decide, [.opening], rfl, rfl⟩
    have hcolumns : ∀ t ∈ table.columns.map Sql.quoted, Fits banned t :=
      List.forall_mem_map.mpr fun name _ => fits_name name
    have hlist := ((Ends.word (fits_name table.name) hopen).operand (fits_commaJoin hcolumns)).word
      (closes 0)
    simpa using hlist.fits

theorem leads_table {table : CommonTable} (h : Fits [] table.body.text) :
    Leads [] table.text 0 0 := by
  have has : Continues [] " AS (" 0 1 := by decide
  exact (((Ends.word (fits_heading table) has).inner h).word (closes 0))

theorem leads_withClause {tables : List CommonTable}
    (h : ∀ table ∈ tables, Fits [] table.body.text) :
    Leads [] (withClause tables) 0 0 := by
  unfold withClause
  split
  · exact .nil
  · have hwith : Leads [] (withWord tables) 0 0 := by
      unfold withWord
      split <;> decide
    have htables : ∀ t ∈ tables.map CommonTable.text, Fits [] t :=
      List.forall_mem_map.mpr fun table htable => (leads_table (h table htable)).fits
    exact (hwith.operand (fits_commaJoin htables)).word (by decide)

-- Whole statements, by the recursion of the statements in their filters and set
-- operations.

theorem fits_inTerms {column : Term} {items : List Term} (hcolumn : Fits reserved column.text)
    (hitems : ∀ t ∈ items, Fits reserved t.text) (negated : Bool) :
    Fits reserved (Select.inTermsText column items negated) := by
  have hin : Continues reserved (wordIn negated) 0 1 := by cases negated <;> decide
  exact (((Ends.word hcolumn hin).operand (fits_commaJoin (List.forall_mem_map.mpr hitems))).word
    (closes 0)).fits

theorem fits_inText {column : Term} (hcolumn : Fits reserved column.text) (h : Fits [] t)
    (negated : Bool) : Fits reserved (column.text ++ wordIn negated ++ t ++ ")") := by
  have hin : Continues reserved (wordIn negated) 0 1 := by cases negated <;> decide
  exact (((Ends.word hcolumn hin).inner h).word (closes 0)).fits

theorem fits_enclosed (hw : Leads reserved w 0 1) (h : Fits [] t) : Fits reserved (w ++ t ++ ")") :=
  ((hw.inner h).word (closes 0)).fits

theorem fits_operationsText {body : Text} {operations : List (SetOperation Select)}
    (hbody : Fits [] body) (h : ∀ o ∈ operations, Fits [] (Select.operandText o.operand)) :
    Fits [] (body ++ Select.operationsText operations) := by
  induction operations generalizing body with
  | nil => simpa [Select.operationsText] using hbody
  | cons o rest ih =>
    obtain ⟨operator, operand⟩ := o
    obtain ⟨hoperand, hrest⟩ := List.forall_mem_cons.mp h
    have hoperator : Continues [] (" " ++ operator.text ++ " (") 0 1 := by
      cases operator <;> decide
    have hwhole := ((Ends.word hbody hoperator).inner hoperand).word (closes 0)
    simpa [Select.operationsText] using ih hwhole.fits hrest

mutual

theorem fits_text (q : Select) (h : ∀ r ∈ q.nested, r.Fitting []) : Fits [] q.text := by
  match q, h with
  | ⟨parts, filters, operations⟩, h =>
    simp only [Select.nested, List.forall_mem_cons, List.forall_mem_append] at h
    obtain ⟨hown, hfilters, hoperations⟩ := h
    have henclosed := hown.enclosed
    simp only [Select.enclosed, List.forall_mem_append] at henclosed
    obtain ⟨⟨htables, hwritten⟩, hraw⟩ := henclosed
    have hwith := leads_withClause (List.forall_mem_map.mp htables)
    have htexts :=
      fits_filterTexts filters hown.filters (List.forall_mem_flatMap.mp hwritten) hfilters
    have hbody := fits_operand (List.nil_subset _) hown.parts (fun _ => List.nil_subset _) htexts
    have hoperand : Fits [] (parts.operand (Select.filterTexts filters) (!operations.isEmpty)) := by
      have hopen : Leads [] "(" 0 1 := by decide
      unfold SelectParts.operand at hbody ⊢
      split
      · exact ((hopen.inner hbody).word (closes 0)).fits
      · simpa using hbody
    rw [Select.text]
    exact fits_operationsText (hwith.operand hoperand)
      (fits_operandTexts operations (List.forall_mem_flatMap.mp hraw) hoperations)
termination_by sizeOf q

theorem fits_filterText (f : Filter Select) (hterms : ∀ t ∈ f.terms, Fits reserved t.text)
    (henclosed : ∀ t ∈ f.enclosed, Fits [] t) (h : ∀ r ∈ Select.nestedInFilter f, r.Fitting []) :
    Fits reserved (Select.filterText f) := by
  cases f with
  | term t => exact hterms t (List.mem_singleton_self t)
  | raw pieces =>
    exact fits_enclosed (by decide) (henclosed _ (List.mem_singleton_self _))
  | truth value =>
    rw [Select.filterText]
    cases value <;> decide
  | inTerms column items negated =>
    obtain ⟨hcolumn, hitems⟩ := List.forall_mem_cons.mp hterms
    exact fits_inTerms hcolumn hitems negated
  | inQuery column query negated =>
    exact fits_inText (hterms column (List.mem_singleton_self column)) (fits_text query h) negated
  | inRaw column sql negated =>
    exact fits_inText (hterms column (List.mem_singleton_self column))
      (henclosed sql (List.mem_singleton_self sql)) negated
  | «exists» query negated =>
    have hexists : Leads reserved (wordExists negated) 0 1 := by cases negated <;> decide
    exact fits_enclosed hexists (fits_text query h)
termination_by sizeOf f

theorem fits_filterTexts (filters : List (Filter Select))
    (hterms : ∀ f ∈ filters, ∀ t ∈ f.terms, Fits reserved t.text)
    (henclosed : ∀ f ∈ filters, ∀ t ∈ f.enclosed, Fits [] t)
    (h : ∀ r ∈ Select.nestedInFilters filters, r.Fitting []) :
    ∀ t ∈ Select.filterTexts filters, Fits reserved t := by
  cases filters with
  | nil => simp [Select.filterTexts]
  | cons f rest =>
    obtain ⟨hterm, hterms⟩ := List.forall_mem_cons.mp hterms
    obtain ⟨hfirst, henclosed⟩ := List.forall_mem_cons.mp henclosed
    obtain ⟨hnested, hothers⟩ := List.forall_mem_append.mp h
    exact List.forall_mem_cons.mpr ⟨fits_filterText f hterm hfirst hnested,
      fits_filterTexts rest hterms henclosed hothers⟩
termination_by sizeOf filters

theorem fits_operandText (operand : Operand Select) (hwritten : ∀ t ∈ operand.written, Fits [] t)
    (h : ∀ r ∈ Select.nestedInOperand operand, r.Fitting []) :
    Fits [] (Select.operandText operand) := by
  cases operand with
  | query q => exact fits_text q h
  | raw sql => exact hwritten sql (List.mem_singleton_self sql)
termination_by sizeOf operand

theorem fits_operandTexts (operations : List (SetOperation Select))
    (hwritten : ∀ o ∈ operations, ∀ t ∈ o.operand.written, Fits [] t)
    (h : ∀ r ∈ Select.nestedInOperations operations, r.Fitting []) :
    ∀ o ∈ operations, Fits [] (Select.operandText o.operand) := by
  match operations, hwritten, h with
  | [], _, _ => simp
  | ⟨operator, operand⟩ :: rest, hwritten, h =>
    obtain ⟨hfirst, hwritten⟩ := List.forall_mem_cons.mp hwritten
    obtain ⟨hnested, hothers⟩ := List.forall_mem_append.mp h
    exact List.forall_mem_cons.mpr ⟨fits_operandText operand hfirst hnested,
      fits_operandTexts rest hwritten hothers⟩
termination_by sizeOf operations

end

-- Window functions.

section

open WindowFunction

theorem fits_identifier {name sql : Text} (h : Sql.identifier name = .ok sql) :
    Fits reserved sql := by
  unfold Sql.identifier at h
  split at h
  · cases h
  · cases h
    exact fits_name name

theorem fits_beside (ht : Fits reserved t) (hw : Fits reserved w) :
    Fits reserved (t ++ ", " ++ w) :=
  (Ends.word ht (continues_comma 0)).operand hw

theorem fits_offsetArguments {column sql : Text} {offset : Int} {default : Option Value}
    (h : offsetArguments column offset default = .ok sql) : Fits reserved sql := by
  obtain ⟨name, hname, h⟩ := Result.bind_eq_ok.mp h
  have harguments := fits_beside (fits_identifier hname) (fits_ofInt offset)
  cases default with
  | none =>
    cases h
    exact harguments
  | some v =>
    obtain ⟨l, hl, h⟩ := Result.bind_eq_ok.mp h
    cases h
    exact fits_beside harguments (fits_literal hl)

theorem fits_requiredColumn {f : WindowFunction} {column sql : Text}
    (h : f.requiredColumn column = .ok sql) : Fits reserved sql := by
  unfold requiredColumn at h
  split at h
  · cases h
  · exact fits_identifier h

theorem fits_arguments {f : WindowFunction} {sql : Text} (h : f.arguments = .ok sql) :
    Fits reserved sql := by
  have hnone {sql : Text} (h : (.ok [] : Result Text) = .ok sql) : Fits reserved sql := by
    cases h
    exact Leads.nil.fits
  cases f with
  | rowNumber => exact hnone h
  | rank => exact hnone h
  | denseRank => exact hnone h
  | lead column offset default => exact fits_offsetArguments h
  | lag column offset default => exact fits_offsetArguments h
  | nthValue column position =>
    obtain ⟨name, hname, h⟩ := Result.bind_eq_ok.mp h
    cases h
    exact fits_beside (fits_identifier hname) (fits_ofInt position)
  | count column =>
    have h : (if column.isEmpty then .ok [Byte.star] else Sql.identifier column) = .ok sql := h
    split at h
    · cases h
      decide
    · exact fits_identifier h
  | _ => exact fits_requiredColumn h

theorem leads_name (f : WindowFunction) : Leads reserved (f.name ++ "(") 0 1 := by
  cases f <;> rw [name] <;> decide

end

theorem fits_windowOrder {o : WindowOrder} {sql : Text} (h : o.text = .ok sql) :
    Fits reserved sql := by
  obtain ⟨column, hcolumn, h⟩ := Result.bind_eq_ok.mp h
  cases h
  split
  · exact Ends.append (fits_identifier hcolumn) (by decide) (by decide)
  · exact Ends.append (fits_identifier hcolumn) (by decide) (by decide)

theorem fits_bound (b : FrameBound) : Fits reserved b.text := by
  cases b with
  | preceding n => exact Ends.append (fits_ofInt n) (by decide) (by decide)
  | following n => exact Ends.append (fits_ofInt n) (by decide) (by decide)
  | _ => decide

theorem fits_frame (f : Frame) : Fits reserved f.text := by
  have hbetween : Leads reserved (f.unit.text ++ " BETWEEN ") 0 0 := by
    cases f.unit <;> decide
  have hand : Continues reserved " AND " 0 0 := by decide
  exact ((hbetween.operand (fits_bound f.start)).word hand).operand (fits_bound f.finish)

-- The clauses of a window stand in parentheses.
theorem fits_listClause {word : Text} {items : List Text} (hword : Leads [] word 0 0)
    (h : ∀ t ∈ items, Fits reserved t) : ∀ t ∈ Window.listClause word items, Fits [] t := by
  unfold Window.listClause
  split
  · simp
  · refine List.forall_mem_singleton.mpr (hword.operand (fits_commaJoin fun t ht => ?_))
    exact (h t ht).of_subset (List.nil_subset _)

theorem fits_window {w : Window} {sql : Text} (h : w.text = .ok sql) : Fits reserved sql := by
  obtain ⟨arguments, harguments, h⟩ := Result.bind_eq_ok.mp h
  obtain ⟨partitions, hpartitions, h⟩ := Result.bind_eq_ok.mp h
  obtain ⟨orders, horders, h⟩ := Result.bind_eq_ok.mp h
  have hclauses : ∀ t ∈ Window.listClause "PARTITION BY " partitions ++
      Window.listClause "ORDER BY " orders ++ w.frameClause, Fits [] t := by
    refine List.forall_mem_append.mpr ⟨List.forall_mem_append.mpr ⟨?_, ?_⟩, ?_⟩
    · exact fits_listClause (by decide)
        (Result.forall_of_mapM (fun _ _ _ hname => fits_identifier hname) hpartitions)
    · exact fits_listClause (by decide)
        (Result.forall_of_mapM (fun _ _ _ horder => fits_windowOrder horder) horders)
    · unfold Window.frameClause
      split
      · simp
      · split
        · simp
        · exact List.forall_mem_singleton.mpr ((fits_frame _).of_subset (List.nil_subset _))
  have hspace : Continues [] " " 0 0 := by decide
  have hover : Continues reserved ") OVER (" 1 1 := by decide
  have hcall := ((leads_name w.function).operand (fits_arguments harguments)).word hover
  have hwindow := ((hcall.inner (fits_join hspace hclauses)).word (closes 0)).fits
  split at h
  · cases h
    exact hwindow
  · obtain ⟨name, hname, h⟩ := Result.bind_eq_ok.mp h
    cases h
    have has : Continues reserved " AS " 0 0 := by decide
    exact (Ends.word hwindow has).operand (fits_identifier hname)

-- Terms by their origin.

variable {c : Compiler} {p : Plan} {expressions : List Expr} {term : Term}

theorem fits_keyColumn (h : KeyColumn c p term) : Fits reserved term.text := by
  obtain ⟨key, -, h⟩ := h
  obtain ⟨table, column, rfl⟩ := Clauses.exists_column_of_selectedColumn h
  exact fits_columnText table column

theorem fits_namedColumn {name : Text} (h : p.clauses.namedColumn c name = .ok term) :
    Fits reserved term.text := by
  unfold Clauses.namedColumn at h
  split at h
  · cases h
  · obtain ⟨table, column, rfl⟩ := Compiler.exists_column_of_rowMember h
    exact fits_columnText table column

theorem fits_origin (h : Origin c p expressions term) (hsigned : SingleSigned term) :
    Fits reserved term.text := by
  cases h with
  | @expression group e before after _ hgroup h =>
    have hkeys : ∀ sql ∈ group.getD [], Fits reserved sql := by
      intro sql hsql
      obtain ⟨t, ht, rfl⟩ := hgroup sql hsql
      exact fits_keyColumn ht
    exact (invariant_fits hkeys).good_of_term (fun _ _ => trivial) h hsigned
  | constant h =>
    have hinvariant : c.Invariant none _ _ := invariant_fits (by simp)
    exact hinvariant.good_of_constant h hsigned
  | groupKey h => exact fits_keyColumn h
  | named _ h => exact fits_namedColumn h

-- What a statement must keep to, apart from what its compiled parts keep to by
-- themselves.
structure Select.Tidy (banned : List Text) (q : Select) : Prop where
  written : ∀ t ∈ q.parts.written, Fits banned t
  enclosed : ∀ t ∈ q.enclosed, Fits [] t
  signs : ∀ t ∈ q.terms, SingleSigned t

theorem Select.MadeFrom.fitting {s : Services} {env : Environment} {v : Variant} {q : Select}
    (h : q.MadeFrom s env v p) (hq : q.Tidy banned) : q.Fitting banned := by
  obtain ⟨includes, -, -, horigin⟩ := h.exists_compiler
  have hterms : ∀ t ∈ q.terms, Fits reserved t.text := fun t ht =>
    fits_origin (horigin t ht) (hq.signs t ht)
  obtain ⟨hparts, hfilters⟩ := List.forall_mem_append.mp hterms
  refine ⟨⟨hq.written, hparts, fun sql hsql => ?_⟩, List.forall_mem_flatMap.mp hfilters,
    hq.enclosed⟩
  obtain ⟨w, -, hw⟩ := h.windows sql hsql
  exact fits_window hw

end EntitySql.Query
