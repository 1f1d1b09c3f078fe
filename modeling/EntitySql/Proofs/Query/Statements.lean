import EntitySql.Proofs.Query.Phases

-- Numbered placeholders of all statements that are made of one plan: its
-- SELECT in every variant, its UPDATE and its measures.

namespace EntitySql.Query

open Sql
open Sql.Compiler (Numbered)

variable {s : Services} {env : Environment}

theorem placeholders_whereClause (filters : List (Filter Select)) :
    placeholders (whereClause filters) = filters.flatMap filterPlaceholders := by
  have hword : Parts " WHERE " := by decide
  have hand : Parts " AND " := by decide
  rw [whereClause, placeholders_clause hword hand, placeholders_filterTexts]

theorem opens_whereClause (filters : List (Filter Select)) : Opens (whereClause filters) := by
  have hword : Parts " WHERE " := by decide
  exact opens_clause hword _ _

-- Updates.

theorem Update.placeholders_text {u : Update} (htable : Unmarked u.table) :
    placeholders u.text = u.assignments.flatMap Compiler.Assignment.placeholders ++
      u.filters.flatMap filterPlaceholders := by
  have hset : Parts " SET " := by decide
  have hupdate : atSign ∉ Text.ofString "UPDATE " := by decide
  have hquoted := placeholders_quoted (placeholders_of_unmarked htable)
  rw [Update.text, placeholders_append _ (opens_whereClause u.filters), placeholders_whereClause,
    placeholders_beside _ _ hset, placeholders_append_of_not_mem hupdate, hquoted,
    Compiler.placeholders_assignmentsText, List.nil_append]

theorem Plan.quiet_plainCompiler (hs : s.Quiet) (env : Environment) {p : Plan} (hp : p.Quiet) :
    p.clauses.Quiet (p.plainCompiler s env) :=
  hs.clauses env hp.clauses (by simp)

theorem numbered_update (hs : s.Quiet) (p : Plan) (hp : ∀ q ∈ p.nested, q.Quiet)
    (assignments : Option Expr) :
    Numbered [] (p.update s env assignments) fun u => placeholders u.text := by
  cases p with
  | mk clauses conditions operations =>
    simp only [Plan.nested, List.forall_mem_cons, List.mem_append, or_imp, forall_and] at hp
    obtain ⟨hown, hconditions, -⟩ := hp
    have hquiet := Plan.quiet_plainCompiler hs env hown
    have htable : Unmarked clauses.root.table := hquiet.root _ (Entity.table_mem_identifiers _)
    refine .bind (Compiler.numbered_update hquiet.compiler assignments) fun assignments => ?_
    refine .lift_bind fun _ _ => ?_
    refine .bind ((numbered_filters hs hquiet.compiler conditions hown.conditions hown.slots
      hconditions).behind _) fun filters => .pure ?_
    have htext := Update.placeholders_text (u := ⟨clauses.root.table, assignments, filters⟩) htable
    rw [show Plan.root ⟨clauses, conditions, operations⟩ = clauses.root from rfl, htext]

-- Measures.

def Measure.placeholders : Measure Term → List Text
  | .aggregate _ t => t.placeholders
  | _ => []

theorem Scalar.placeholders_text {m : Scalar} (hsource : placeholders m.source.text = [])
    (hjoins : ∀ t ∈ m.rawJoins, placeholders t = []) :
    placeholders m.text = m.measure.placeholders ++ m.filters.flatMap filterPlaceholders := by
  have hfiltered : placeholders
      (m.source.text ++ SelectParts.spaced m.rawJoins ++ whereClause m.filters) =
        m.filters.flatMap filterPlaceholders := by
    rw [placeholders_append _ (opens_whereClause m.filters), placeholders_whereClause,
      placeholders_append _ (opens_spaced _), placeholders_spaced hjoins, hsource]
    rfl
  unfold Scalar.text
  split
  · next hmeasure =>
    rw [placeholders_append_of_not_mem (by decide), hfiltered, hmeasure]
    rfl
  · next hmeasure =>
    rw [placeholders_enclosed (by decide) (by decide), hfiltered, hmeasure]
    rfl
  · next f t hmeasure =>
    have hopen : atSign ∉ f.text ++ Text.ofString "(" := by cases f <;> decide
    have haggregate : placeholders (Term.aggregate f t).text = t.placeholders := by
      rw [Term.text, placeholders_enclosed hopen (by decide)]
      rfl
    rw [placeholders_beside _ _ (by decide),
      placeholders_append_of_not_mem (by decide), haggregate, hfiltered, hmeasure]
    rfl

theorem Plan.numbered_measure {c : Compiler} (hc : c.Unmarked) (m : Measure (Option Expr)) :
    Numbered [] (measure c m) Measure.placeholders := by
  cases m with
  | count => exact .pure (.refl _)
  | any => exact .pure (.refl _)
  | aggregate f selector =>
    cases selector with
    | none => exact .throw
    | some e => exact .bind (Compiler.numbered_expression hc (some e.body)) fun t => .pure (.refl _)

theorem numbered_scalar (hs : s.Quiet) (p : Plan) (hp : ∀ q ∈ p.nested, q.Quiet)
    (m : Measure (Option Expr)) (predicate : Option Expr) :
    Numbered [] (p.scalar s env m predicate) fun result => placeholders result.text := by
  cases p with
  | mk clauses conditions operations =>
    simp only [Plan.nested, List.forall_mem_cons, List.mem_append, or_imp, forall_and] at hp
    obtain ⟨hown, hconditions, -⟩ := hp
    have hquiet := Plan.quiet_plainCompiler hs env hown
    refine .bind (Plan.numbered_measure hquiet.compiler m) fun m => ?_
    refine .lift_bind fun source hsource => ?_
    refine .bind ((numbered_filters hs hquiet.compiler conditions hown.conditions hown.slots
      hconditions).behind _) fun filters => ?_
    have hstatement : ∀ extra : List (Filter Select),
        Numbered (m.placeholders ++ filters.flatMap filterPlaceholders ++
            extra.flatMap filterPlaceholders)
          (pure ⟨m, source, clauses.rawJoins, filters ++ extra⟩ : Compiler.Step Scalar)
          fun result => placeholders result.text := by
      refine fun extra => .pure ?_
      rw [Scalar.placeholders_text (hquiet.placeholders_source (by simp) hsource)
        fun t ht => placeholders_of_unmarked (hquiet.rawJoins t ht), List.flatMap_append,
        List.append_assoc]
    cases predicate with
    | none => exact .bind (Numbered.behind (.pure (.refl _)) _) hstatement
    | some e =>
      have hpredicate := Compiler.numbered_expression hquiet.compiler (some e.body)
      refine .bind (hpredicate.behind _) fun t => .bind (.pure ?_) hstatement
      simp [filterPlaceholders, Select.filterText, Term.placeholders]

-- The bindings of a statement are named by their places, and its placeholders
-- name, from left to right, bindings that were made for it.
theorem numbers_statements (hmode : s.mode = .parameterized)
    (hregistry : ∀ t ∈ s.registry.identifiers, Unmarked t) (env : Environment) {p : Plan}
    (hfragments : ∀ t ∈ p.fragments, Unmarked t) (hslots : ∀ t ∈ p.slotted, Separated t) :
    (∀ v : Variant, (∀ a ∈ v.aggregates, Unmarked a.1) → ∀ before result after,
      Yields (select s env v p) before result after →
        Numbers before.bindings after.bindings (placeholders result.1.text)) ∧
    (∀ assignments before u after, before.bindings = [] →
      Yields (p.update s env assignments) before u after →
        Numbers [] after.bindings (placeholders u.text)) ∧
    ∀ m predicate before result after, before.bindings = [] →
      Yields (p.scalar s env m predicate) before result after →
        Numbers [] after.bindings (placeholders result.text) := by
  have hs : s.Quiet := ⟨hmode, hregistry⟩
  have hp := Plan.quiet_of_fragments hfragments hslots
  refine ⟨?_, ?_, ?_⟩
  · intro v hv before result after h
    exact (numbered_select hs hv p hp).numbers h
  · intro assignments before u after hempty h
    rw [← hempty]
    exact (numbered_update hs p hp assignments).numbers h
  · intro m predicate before result after hempty h
    rw [← hempty]
    exact (numbered_scalar hs p hp m predicate).numbers h

-- Values of a filter in a slot, in a list, in a predicate and in a subquery.
def postsByAuthors : Plan where
  clauses := { root := Catalogue.postEntity, limit := some 3 }
  conditions :=
    [.raw "views > {0}" [.int 5], .inValues "author_id" [.int 1, .null, .int 2] false,
      .predicate (.binary 2 .notEqual (.member 1 (.parameter 0 ⟨"p", Catalogue.post, false⟩) "Title")
        (.constant 3 (.string "draft"))),
      .inQuery "author_id"
        { clauses := { root := Catalogue.authorEntity, rawSelect := "id" }
          conditions := [.inValues "name" [.string "Ada"] false] } true]

theorem numbers_statements_postsByAuthors :
    ∃ result after, Yields (select readServices readEnvironment {} postsByAuthors)
        { bindings := [⟨"@p0", .bool true⟩] } result after ∧
      placeholders result.1.text = ["@p1", "@p2", "@p3", "@p4", "@p5"] ∧
      Numbers [⟨"@p0", .bool true⟩] after.bindings (placeholders result.1.text) := by
  have hnumbers := numbers_statements (s := readServices) rfl (by decide) readEnvironment
    (p := postsByAuthors) (by decide) (by decide)
  have hselect : ∃ result after, Yields (select readServices readEnvironment {} postsByAuthors)
      { bindings := [⟨"@p0", .bool true⟩] } result after ∧
      placeholders result.1.text = ["@p1", "@p2", "@p3", "@p4", "@p5"] :=
    ⟨_, _, rfl, by decide⟩
  obtain ⟨result, after, hyields, hnames⟩ := hselect
  exact ⟨result, after, hyields, hnames, hnumbers.1 {} (by simp) _ result after hyields⟩

def digitBehindSlot : Plan where
  clauses := { root := Catalogue.companyEntity }
  conditions := [.raw "{0}5" [.int 1]]

-- Without the hypothesis on slots, a digit of the text goes on with the number
-- of a placeholder.
theorem not_numbers_digitBehindSlot :
    (∀ t ∈ digitBehindSlot.fragments, Unmarked t) ∧
    (∀ t ∈ readServices.registry.identifiers, Unmarked t) ∧
    ∃ result after, Yields (select readServices readEnvironment {} digitBehindSlot) {} result after ∧
      result.1.text = "SELECT \"companies\".* FROM \"companies\" WHERE (@p05)" ∧
      ¬Numbers [] after.bindings (placeholders result.1.text) := by
  refine ⟨by decide, by decide, _, _, rfl, by decide, fun h => ?_⟩
  obtain ⟨indices, hnames, -, hbounds⟩ := h.ordered
  have hmem : Text.ofString "@p05" ∈ indices.map parameterName := by
    rw [← hnames]
    decide
  obtain ⟨i, hi, hname⟩ := List.mem_map.mp hmem
  have hlt : i < 1 := (hbounds i hi).2
  obtain rfl : i = 0 := by omega
  exact absurd hname (by decide)

end EntitySql.Query
