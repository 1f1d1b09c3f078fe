import EntitySql.Proofs.Query.Placeholders
import EntitySql.Schema.Catalogue

-- The numbering of whole statements: the placeholders of a SELECT with all its
-- subqueries, of an UPDATE and of an aggregate name the bindings that were made
-- for them, from left to right.

namespace EntitySql.Query

open Sql
open Sql.Compiler (Numbered Step)

namespace Clauses

variable {c : Compiler}

-- Columns.

theorem placeholders_selectedColumn (hc : c.Unmarked) {selector : Expr} {t : Term}
    (h : c.selectedColumn? selector = .ok (some t)) : t.placeholders = [] := by
  unfold Compiler.selectedColumn? at h
  split at h
  · next p name _ =>
    split at h
    · cases h
    · next f hf =>
      split at hf
      · cases hf
      · obtain ⟨entity, hentity, hproperty⟩ := Option.bind_eq_some_iff.mp hf
        have hcolumn : Sql.Unmarked f.column :=
          hc.registry _ (Registry.mem_identifiers (Registry.mem_of_find? hentity)
            (Entity.column_mem_identifiers (Entity.mem_of_property? hproperty)))
        cases hroot : c.rootColumn f.column with
        | error e =>
          rw [hroot] at h
          cases h
        | ok u =>
          rw [hroot] at h
          cases h
          exact Compiler.placeholders_rootColumn hcolumn hroot
  · cases h

theorem forall_of_selectedColumns {P : Term → Prop} {keys : List Expr} {columns : List Term}
    (hcolumn : ∀ {selector t}, c.selectedColumn? selector = .ok (some t) → P t)
    (h : selectedColumns? c keys = .ok (some columns)) : ∀ t ∈ columns, P t := by
  induction keys generalizing columns with
  | nil =>
    cases h
    simp
  | cons key rest ih =>
    rw [selectedColumns?, Result.bind_eq_ok] at h
    obtain ⟨first, hfirst, h⟩ := h
    cases first with
    | none => cases h
    | some t =>
      obtain ⟨others, hothers, h⟩ := Result.bind_eq_ok.mp h
      cases others with
      | none => cases h
      | some others =>
        cases h
        exact List.forall_mem_cons.mpr ⟨hcolumn hfirst, ih hothers⟩

theorem forall_of_groupColumns {P : Term → Prop} {clauses : Clauses} {columns : List Term}
    (hcolumn : ∀ {selector t}, c.selectedColumn? selector = .ok (some t) → P t)
    (h : clauses.groupColumns c = .ok columns) : ∀ t ∈ columns, P t := by
  unfold groupColumns at h
  cases hselected : selectedColumns? c clauses.groupKeys with
  | error e =>
    rw [hselected] at h
    cases h
  | ok found =>
    rw [hselected] at h
    cases h
    cases found with
    | none => simp
    | some columns => exact forall_of_selectedColumns hcolumn hselected

theorem placeholders_groupColumns (hc : c.Unmarked) {clauses : Clauses} {columns : List Term}
    (h : clauses.groupColumns c = .ok columns) : ∀ t ∈ columns, t.placeholders = [] :=
  forall_of_groupColumns (placeholders_selectedColumn hc) h

theorem placeholders_texts {columns : List Term} (h : ∀ t ∈ columns, t.placeholders = []) :
    ∀ t ∈ columns.map Term.text, Sql.placeholders t = [] := by
  intro t ht
  obtain ⟨column, hcolumn, rfl⟩ := List.mem_map.mp ht
  exact h column hcolumn

theorem placeholders_namedColumn (hc : c.Unmarked) {clauses : Clauses} {name : Text} {t : Term}
    (h : clauses.namedColumn c name = .ok t) : t.placeholders = [] := by
  unfold namedColumn at h
  split at h
  · cases h
  · exact Compiler.placeholders_rowMember hc h

-- Projections.

theorem numbered_aggregate (hc : c.Unmarked) {columns : List Term}
    (hcolumns : ∀ t ∈ columns, t.placeholders = []) {a : Text × Option Expr}
    (ha : Sql.Unmarked a.1) : Numbered [] (aggregate c columns a) Projection.placeholders := by
  have has : Parts " AS " := by decide
  unfold aggregate
  split
  · exact .throw
  · next e _ =>
    refine .lift_bind fun _ _ => ?_
    refine .bind (Compiler.numbered_having hc _ (placeholders_texts hcolumns)) fun t => .pure ?_
    rw [Projection.placeholders, Projection.text, placeholders_beside _ _ has,
      placeholders_quoted (placeholders_of_unmarked ha), List.append_nil]
    rfl

theorem numbered_keyProjections (hc : c.Unmarked) {v : Variant}
    (hv : ∀ a ∈ v.aggregates, Sql.Unmarked a.1) {columns : List Term}
    (hcolumns : ∀ t ∈ columns, t.placeholders = []) :
    Numbered [] (keyProjections c v columns) fun projections =>
      projections.flatMap Projection.placeholders := by
  have hkeys : (columns.map Projection.groupKey).flatMap Projection.placeholders = [] := by
    rw [List.flatMap_map, List.flatMap_eq_nil_iff]
    exact hcolumns
  unfold keyProjections
  refine .ite (fun _ => .throw_bind) fun _ => ?_
  refine .bind (.mapM fun a ha => numbered_aggregate hc hcolumns (hv a ha)) fun aggregates => .pure ?_
  rw [List.flatMap_append, hkeys, List.nil_append]

theorem numbered_side (hc : c.Unmarked) {e : Side Expr} (he : ∀ t ∈ e.fragments, Sql.Unmarked t) :
    Numbered [] (side c e) fun result => Sql.placeholders result.text := by
  cases e with
  | raw sql =>
    refine .pure ?_
    rw [Side.text, placeholders_of_unmarked (he sql (by simp [Side.fragments]))]
  | of e => exact .bind (Compiler.numbered_expression hc (some e)) fun t => .pure (.refl _)

theorem numbered_branch (hc : c.Unmarked) {b : Side Expr × Side Expr}
    (hb : ∀ t ∈ b.1.fragments ++ b.2.fragments, Sql.Unmarked t) :
    Numbered [] (branch c b) fun result =>
      Sql.placeholders result.1.text ++ Sql.placeholders result.2.text := by
  simp only [List.mem_append, or_imp, forall_and] at hb
  refine .bind (numbered_side hc hb.1) fun condition => ?_
  exact .bind ((numbered_side hc hb.2).behind _) fun result => .pure (.refl _)

theorem numbered_case (hc : c.Unmarked) {e : Case Expr} (he : ∀ t ∈ e.fragments, Sql.Unmarked t) :
    Numbered [] (case c e) Projection.placeholders := by
  obtain ⟨halias, hbranches⟩ := List.forall_mem_cons.mp he
  have hbranch : ∀ b ∈ e.branches, ∀ t ∈ b.1.fragments ++ b.2.fragments, Sql.Unmarked t :=
    fun b hb t ht => hbranches t (List.mem_flatMap.mpr ⟨b, hb, ht⟩)
  have helse : Numbered [] (e.otherwise.mapM fun e => c.expression (some e))
      fun otherwise => (otherwise.map Term.placeholders).getD [] := by
    cases e.otherwise with
    | none => exact .pure (.refl _)
    | some e => exact .map (Compiler.numbered_expression hc (some e))
  unfold case
  refine .bind (.mapM fun b hb => numbered_branch hc (hbranch b hb)) fun branches => ?_
  refine .bind (helse.behind _) fun otherwise => ?_
  have hresult : Numbered (branches.flatMap (fun b =>
        Sql.placeholders b.1.text ++ Sql.placeholders b.2.text) ++
        (otherwise.map Term.placeholders).getD [])
      (pure (.case ⟨branches, otherwise, e.aliasName⟩) : Step Projection)
      Projection.placeholders := by
    refine .pure ?_
    rw [Projection.placeholders, Projection.text, Case.placeholders_text halias]
    exact .refl _
  exact .ite (fun _ => .lift_bind fun _ _ => hresult) fun _ => hresult

-- What the clauses of a plan are compiled with: the fragments hold no marker,
-- and neither does an include plan that has been made from them.
structure Quiet (clauses : Clauses) (c : Compiler) : Prop where
  compiler : c.Unmarked
  fragments : ∀ t ∈ clauses.fragments, Sql.Unmarked t
  includes : ∀ p ∈ c.includes, p.Unmarked c.registry

namespace Quiet

variable {clauses : Clauses}

theorem root (h : clauses.Quiet c) : ∀ t ∈ clauses.root.identifiers, Sql.Unmarked t :=
  fun t ht => h.fragments t (by simp [Clauses.fragments, ht])

theorem tables (h : clauses.Quiet c) : ∀ t ∈ clauses.tables, ∀ s ∈ t.fragments, Sql.Unmarked s :=
  fun t ht s hs => h.fragments s (by
    simp only [Clauses.fragments, List.mem_append, List.mem_flatMap]
    exact .inl (.inl (.inl (.inr ⟨t, ht, hs⟩))))

theorem windows (h : clauses.Quiet c) : ∀ w ∈ clauses.windows, ∀ s ∈ w.fragments, Sql.Unmarked s :=
  fun w hw s hs => h.fragments s (by
    simp only [Clauses.fragments, List.mem_append, List.mem_flatMap]
    exact .inl (.inl (.inr ⟨w, hw, hs⟩)))

theorem cases (h : clauses.Quiet c) : ∀ e ∈ clauses.cases, ∀ s ∈ e.fragments, Sql.Unmarked s :=
  fun e he s hs => h.fragments s (by
    simp only [Clauses.fragments, List.mem_append, List.mem_flatMap]
    exact .inl (.inr ⟨e, he, hs⟩))

theorem rawSelect (h : clauses.Quiet c) : Sql.Unmarked clauses.rawSelect :=
  h.fragments _ (by simp [Clauses.fragments])

theorem rawFrom (h : clauses.Quiet c) : Sql.Unmarked clauses.rawFrom :=
  h.fragments _ (by simp [Clauses.fragments])

theorem rawJoins (h : clauses.Quiet c) : ∀ t ∈ clauses.rawJoins, Sql.Unmarked t :=
  fun t ht => h.fragments t (by simp [Clauses.fragments, ht])

theorem placeholders_rowColumns (h : clauses.Quiet c) {columns : List Projection}
    (hcolumns : clauses.rowColumns c = .ok columns) :
    columns.flatMap Projection.placeholders = [] := by
  rw [List.flatMap_eq_nil_iff]
  unfold rowColumns at hcolumns
  split at hcolumns
  · cases hcolumns
    simpa [Projection.placeholders, Projection.text] using placeholders_of_unmarked h.rawSelect
  split at hcolumns
  · next plan hplan =>
    obtain ⟨_, -, hcolumns⟩ := Result.bind_eq_ok.mp hcolumns
    cases hcolumns
    intro p hp
    obtain ⟨column, hcolumn, rfl⟩ := List.mem_map.mp hp
    exact (h.includes plan hplan).placeholders_selectedColumns column hcolumn
  split at hcolumns
  · obtain ⟨_, -, hcolumns⟩ := Result.bind_eq_ok.mp hcolumns
    cases hcolumns
    have htable := h.root _ (Entity.table_mem_identifiers clauses.root)
    have hstar : Parts ".*" := by decide
    simpa [Projection.placeholders, Projection.text, placeholders_before _ hstar] using
      placeholders_quoted (placeholders_of_unmarked htable)
  · cases hcolumns
    simpa [Projection.placeholders, Projection.text] using
      placeholders_of_not_mem (s := [Byte.star]) (by decide)

theorem numbered_windows (h : clauses.Quiet c) :
    Numbered [] (clauses.windows.mapM fun w => do return Projection.window (← w.text) :
        Step (List Projection)) fun windows => windows.flatMap Projection.placeholders := by
  refine .mapM fun w hw => .lift_bind fun t ht => .pure ?_
  rw [Projection.placeholders, Projection.text, placeholders_window (h.windows w hw) ht]

theorem numbered_rowProjections (h : clauses.Quiet c) (v : Variant) :
    Numbered [] (clauses.rowProjections c v) fun projections =>
      projections.flatMap Projection.placeholders := by
  unfold rowProjections
  refine .ite (fun _ => .throw_bind) fun _ => .lift_bind fun columns hcolumns => ?_
  refine .bind h.numbered_windows fun windows => ?_
  refine .bind (Numbered.behind (.mapM fun e he => numbered_case h.compiler (h.cases e he)) _)
    fun cases => .pure ?_
  rw [List.flatMap_append, List.flatMap_append, h.placeholders_rowColumns hcolumns, List.nil_append]

theorem numbered_projections (h : clauses.Quiet c) {v : Variant}
    (hv : ∀ a ∈ v.aggregates, Sql.Unmarked a.1) {columns : List Term}
    (hcolumns : ∀ t ∈ columns, t.placeholders = []) :
    Numbered [] (clauses.projections c v columns) fun projections =>
      projections.flatMap Projection.placeholders :=
  .ite (fun _ => numbered_keyProjections h.compiler hv hcolumns)
    fun _ => h.numbered_rowProjections v

-- Sources and joins.

theorem placeholders_source (h : clauses.Quiet c) {aliasName : Option Text}
    (halias : ∀ a ∈ aliasName, Sql.placeholders a = []) {source : Source}
    (hsource : clauses.source aliasName = .ok source) : Sql.placeholders source.text = [] := by
  unfold Clauses.source at hsource
  split at hsource
  · cases hsource
    exact placeholders_of_unmarked h.rawFrom
  · obtain ⟨_, -, hsource⟩ := Result.bind_eq_ok.mp hsource
    cases hsource
    exact Source.placeholders_table (h.root _ (Entity.table_mem_identifiers _)) halias

theorem placeholders_joins (h : clauses.Quiet c) {joins : List Include.Join}
    (hjoins : Clauses.joins c = .ok joins) : ∀ j ∈ joins, Sql.placeholders j.text = [] := by
  unfold Clauses.joins at hjoins
  obtain ⟨_, -, hjoins⟩ := Result.bind_eq_ok.mp hjoins
  cases hjoins
  cases hplan : c.includes with
  | none => simp
  | some plan => exact (h.includes plan hplan).placeholders_joins

end Quiet

-- The clauses behind the filters.

theorem numbered_havingTerms (hc : c.Unmarked) (clauses : Clauses) (v : Variant)
    {columns : List Term} (hcolumns : ∀ t ∈ columns, t.placeholders = []) :
    Numbered [] (clauses.havingTerms c v columns) fun terms => terms.flatMap Term.placeholders := by
  unfold havingTerms
  refine .ite (fun _ => .pure (.refl _)) fun _ => .ite (fun _ => .throw_bind) fun _ => ?_
  exact .mapM fun e _ => Compiler.numbered_having hc (some e) (placeholders_texts hcolumns)

theorem numbered_orderTerms (hc : c.Unmarked) (clauses : Clauses) (v : Variant) :
    Numbered [] (clauses.orderTerms c v) fun orders => orders.flatMap orderPlaceholders := by
  unfold orderTerms
  refine .ite (fun _ => .pure (.refl _)) fun _ => .mapM fun o _ => ?_
  exact .bind (Compiler.numbered_expression hc (some o.selector)) fun t => .pure (.refl _)

theorem ofPaths_of_includePlan {clauses : Clauses} {s : Services} {v : Variant} {plan : Include.Plan}
    (h : clauses.includePlan s v = .ok (some plan)) :
    Include.Plan.ofPaths s.registry clauses.maxIncludeDepth clauses.root clauses.includes =
      .ok plan := by
  unfold includePlan at h
  split at h
  · cases h
  · cases hplan : Include.Plan.make s.registry clauses.maxIncludeDepth clauses.root
      clauses.includes with
    | error e =>
      rw [hplan] at h
      cases h
    | ok plan =>
      rw [hplan] at h
      cases h
      exact Include.Plan.ofPaths_of_make hplan

theorem unmarked_includePlan {clauses : Clauses} {s : Services} {v : Variant}
    (hregistry : ∀ t ∈ s.registry.identifiers, Sql.Unmarked t)
    (hroot : ∀ t ∈ clauses.root.identifiers, Sql.Unmarked t) {includes : Option Include.Plan}
    (h : clauses.includePlan s v = .ok includes) : ∀ p ∈ includes, p.Unmarked s.registry := by
  rintro p rfl
  obtain ⟨hsound, hplanRoot⟩ := Include.Plan.sound_ofPaths (ofPaths_of_includePlan h)
  exact ⟨hsound, hplanRoot ▸ hroot, hregistry⟩

end Clauses

-- What one plan brings into its statements, apart from the plans within it:
-- no fragment holds a marker, and no slot is followed by a digit.
structure Plan.Quiet (p : Plan) : Prop where
  clauses : ∀ t ∈ p.clauses.fragments, Unmarked t
  conditions : ∀ c ∈ p.conditions, ∀ t ∈ c.fragments, Unmarked t
  slots : ∀ c ∈ p.conditions, ∀ t ∈ c.slotted, Separated t
  operations : ∀ o ∈ p.operations, ∀ t ∈ o.fragments, Unmarked t

theorem Plan.quiet_of_fragments {p : Plan} (hfragments : ∀ t ∈ p.fragments, Unmarked t)
    (hslots : ∀ t ∈ p.slotted, Separated t) : ∀ q ∈ p.nested, q.Quiet := by
  intro q hq
  have hown (t : Text) (ht : t ∈ q.clauses.fragments ++ q.conditions.flatMap Condition.fragments ++
      q.operations.flatMap SetOperation.fragments) : Unmarked t :=
    hfragments t (List.mem_flatMap.mpr ⟨q, hq, ht⟩)
  simp only [List.mem_append, List.mem_flatMap, or_imp, forall_and, forall_exists_index,
    and_imp] at hown
  obtain ⟨⟨hclauses, hconditions⟩, hoperations⟩ := hown
  exact
    { clauses := hclauses
      conditions := fun c hc t ht => hconditions t c hc ht
      slots := fun c hc t ht =>
        hslots t (List.mem_flatMap.mpr ⟨q, hq, List.mem_flatMap.mpr ⟨c, hc, ht⟩⟩)
      operations := fun o ho t ht => hoperations t o ho ht }

-- Values are bound, and no registered name holds a marker.
structure Services.Quiet (s : Services) : Prop where
  mode : s.mode = .parameterized
  registry : ∀ t ∈ s.registry.identifiers, Unmarked t

variable {s : Services}

theorem Services.Quiet.clauses (hs : s.Quiet) (env : Environment) {clauses : Clauses}
    (hclauses : ∀ t ∈ clauses.fragments, Unmarked t) {includes : Option Include.Plan}
    (hincludes : ∀ p ∈ includes, p.Unmarked s.registry) :
    clauses.Quiet (s.compiler env clauses.root includes) where
  compiler :=
    { mode := hs.mode
      registry := hs.registry
      includes := fun p hp _ hn t ht => hs.registry t
        (Registry.mem_identifiers ((hincludes p hp).sound.target_mem hn) ht) }
  fragments := hclauses
  includes := hincludes

theorem placeholders_rootAlias {c : Compiler} : ∀ a ∈ c.rootAlias?, placeholders a = [] := by
  intro a ha
  unfold Compiler.rootAlias? at ha
  split at ha
  · cases ha
  · split at ha
    · cases ha
    · cases ha
      exact placeholders_of_not_mem (by decide)

-- The parts of a statement as they are put together in the end.
def statementParts (v : Variant) (clauses : Clauses) (projections : List Projection)
    (source : Source) (joins : List Include.Join) (columns having : List Term)
    (orders : List (Term × Bool)) : SelectParts :=
  { tables := clauses.tables, distinct := clauses.distinct, projections, source, joins
    rawJoins := clauses.rawJoins, groupKeys := if v.omitGroups then [] else columns, having
    orders, limit := if v.keysOnly then none else clauses.limit
    offset := if v.keysOnly then none else clauses.offset }

theorem Clauses.Quiet.silent_statementParts {clauses : Clauses} {c : Compiler}
    (h : clauses.Quiet c) (v : Variant) (projections : List Projection) {source : Source}
    (hsource : clauses.source c.rootAlias? = .ok source) {joins : List Include.Join}
    (hjoins : Clauses.joins c = .ok joins) {columns : List Term}
    (hcolumns : ∀ t ∈ columns, t.placeholders = []) (having : List Term)
    (orders : List (Term × Bool)) :
    (statementParts v clauses projections source joins columns having orders).Silent where
  tables := fun t ht => CommonTable.placeholders_text (h.tables t ht)
  source := h.placeholders_source placeholders_rootAlias hsource
  joins := h.placeholders_joins hjoins
  rawJoins := fun t ht => placeholders_of_unmarked (h.rawJoins t ht)
  groupKeys := by
    unfold statementParts
    split
    · simp
    · exact hcolumns

def filterPlaceholders (f : Filter Select) : List Text := placeholders (Select.filterText f)

theorem placeholders_filterTexts (filters : List (Filter Select)) :
    (Select.filterTexts filters).flatMap placeholders = filters.flatMap filterPlaceholders := by
  induction filters with
  | nil => rfl
  | cons f rest ih =>
    rw [Select.filterTexts, List.flatMap_cons, List.flatMap_cons, ih]
    rfl

variable {env : Environment}

mutual

-- By the recursion of the plans in filters and set operations.
theorem numbered_select (hs : s.Quiet) {v : Variant} (hv : ∀ a ∈ v.aggregates, Unmarked a.1)
    (p : Plan) (hp : ∀ q ∈ p.nested, q.Quiet) :
    Numbered [] (select s env v p) fun result => placeholders result.1.text := by
  cases p with
  | mk clauses conditions operations =>
    simp only [Plan.nested, List.forall_mem_cons, List.mem_append, or_imp, forall_and] at hp
    obtain ⟨hown, hconditions, hoperations⟩ := hp
    rw [select]
    refine .ite (fun _ => .throw_bind) fun _ => .lift_bind fun includes hincludes => ?_
    have hquiet := hs.clauses env hown.clauses (Clauses.unmarked_includePlan hs.registry
      (fun t ht => hown.clauses t (by simp [Clauses.fragments, ht])) hincludes)
    refine .lift_bind fun columns hcolumns => ?_
    have hsilent := Clauses.placeholders_groupColumns hquiet.compiler hcolumns
    refine .bind (hquiet.numbered_projections hv hsilent) fun projections => ?_
    refine .lift_bind fun source hsource => .lift_bind fun joins hjoins => ?_
    refine .bind ((numbered_filters hs hquiet.compiler conditions hown.conditions hown.slots
      hconditions).behind _) fun filters => ?_
    refine .bind ((Clauses.numbered_havingTerms hquiet.compiler clauses v hsilent).behind _)
      fun having => ?_
    refine .bind ((Clauses.numbered_orderTerms hquiet.compiler clauses v).behind _) fun orders => ?_
    -- The alternatives for the set operations meet again in the same statement.
    have hstatement : ∀ operations, Numbered
        (projections.flatMap Projection.placeholders ++ filters.flatMap filterPlaceholders ++
          having.flatMap Term.placeholders ++ orders.flatMap orderPlaceholders ++
          placeholders (Select.operationsText operations))
        (do
          liftM (Include.checkNames (clauses.tables.flatMap CommonTable.names))
          return (⟨statementParts v clauses projections source joins columns having orders,
            filters, operations⟩, includes))
        (fun result : Select × Option Include.Plan => placeholders result.1.text) := by
      refine fun operations => .lift_bind fun _ _ => .pure ?_
      have hsilentParts := hquiet.silent_statementParts v projections hsource hjoins
        hsilent having orders
      rw [Select.placeholders_text hsilentParts, placeholders_filterTexts]
      simp [statementParts]
    refine .ite (fun _ => .bind (Numbered.behind (.pure (.refl _)) _) hstatement) fun _ => ?_
    exact .bind ((numbered_operands hs operations hown.operations hoperations).behind _) hstatement
termination_by sizeOf p

theorem numbered_filter (hs : s.Quiet) {clauses : Clauses} {c : Compiler} (hc : c.Unmarked)
    (condition : Condition Plan) (hfragments : ∀ t ∈ condition.fragments, Unmarked t)
    (hslots : ∀ t ∈ condition.slotted, Separated t)
    (hnested : ∀ q ∈ Plan.nestedInCondition condition, q.Quiet) :
    Numbered [] (filter s env clauses c condition) filterPlaceholders := by
  cases condition with
  | predicate e =>
    rw [filter]
    exact .bind (Compiler.numbered_expression hc (some e)) fun t => .pure (.refl _)
  | raw sql values =>
    rw [filter]
    refine .bind (numbered_fillSlots hc.mode (hfragments sql (by simp [Condition.fragments]))
      (hslots sql (by simp [Condition.slotted]))) fun pieces => .pure ?_
    rw [filterPlaceholders, Select.filterText,
      placeholders_enclosed (by decide) (by decide)]
  | inValues column values negated =>
    rw [filter]
    refine .lift_bind fun t ht => ?_
    have hcolumn := Clauses.placeholders_namedColumn hc ht
    refine .ite (fun _ => .pure ?_) fun _ => ?_
    · have htruth : filterPlaceholders (.truth negated) = [] :=
        placeholders_of_not_mem (by cases negated <;> decide)
      rw [htruth]
    · refine .bind (.mapM fun v _ => Compiler.numbered_constant hc.mode v) fun items => .pure ?_
      rw [filterPlaceholders, Select.placeholders_inTerms hcolumn]
  | inQuery column query negated =>
    rw [filter]
    refine .lift_bind fun t ht => ?_
    have hcolumn := Clauses.placeholders_namedColumn hc ht
    refine .bind (numbered_select hs (by simp) query hnested) fun result => .pure ?_
    rw [filterPlaceholders, Select.filterText, Select.placeholders_inText hcolumn]
  | inRaw column sql negated =>
    rw [filter]
    refine .lift_bind fun t ht => .pure ?_
    rw [filterPlaceholders, Select.filterText,
      Select.placeholders_inText (Clauses.placeholders_namedColumn hc ht),
      placeholders_of_unmarked (hfragments sql (by simp [Condition.fragments]))]
  | «exists» query negated =>
    rw [filter]
    refine .bind (numbered_select hs (by simp) query hnested) fun result => .pure ?_
    rw [filterPlaceholders, Select.filterText,
      placeholders_enclosed (Select.not_mem_wordExists negated) (by decide)]
termination_by sizeOf condition

theorem numbered_filters (hs : s.Quiet) {clauses : Clauses} {c : Compiler} (hc : c.Unmarked)
    (conditions : List (Condition Plan))
    (hfragments : ∀ c ∈ conditions, ∀ t ∈ c.fragments, Unmarked t)
    (hslots : ∀ c ∈ conditions, ∀ t ∈ c.slotted, Separated t)
    (hnested : ∀ q ∈ Plan.nestedInConditions conditions, q.Quiet) :
    Numbered [] (filters s env clauses c conditions)
      fun filters => filters.flatMap filterPlaceholders := by
  cases conditions with
  | nil =>
    rw [filters]
    exact .pure (.refl _)
  | cons condition rest =>
    rw [filters]
    simp only [Plan.nestedInConditions, List.mem_append, or_imp, forall_and] at hnested
    obtain ⟨hfragment, hfragments⟩ := List.forall_mem_cons.mp hfragments
    obtain ⟨hslot, hslots⟩ := List.forall_mem_cons.mp hslots
    refine .bind (numbered_filter hs hc condition hfragment hslot hnested.1) fun first => ?_
    exact .bind ((numbered_filters hs hc rest hfragments hslots hnested.2).behind _)
      fun others => .pure (.refl _)
termination_by sizeOf conditions

theorem numbered_operand (hs : s.Quiet) (operand : Operand Plan)
    (hfragments : ∀ sql, operand = .raw sql → Unmarked sql)
    (hnested : ∀ q ∈ Plan.nestedInOperand operand, q.Quiet) :
    Numbered [] (Query.operand s env operand) fun result =>
      placeholders (Select.operandText result) := by
  cases operand with
  | query q =>
    rw [Query.operand]
    exact .bind (numbered_select hs (by simp) q hnested) fun result => .pure (.refl _)
  | raw sql =>
    rw [Query.operand]
    refine .pure ?_
    rw [Select.operandText, placeholders_of_unmarked (hfragments sql rfl)]
termination_by sizeOf operand

theorem numbered_operands (hs : s.Quiet) (operations : List (SetOperation Plan))
    (hfragments : ∀ o ∈ operations, ∀ t ∈ o.fragments, Unmarked t)
    (hnested : ∀ q ∈ Plan.nestedInOperations operations, q.Quiet) :
    Numbered [] (operands s env operations) fun operations =>
      placeholders (Select.operationsText operations) := by
  match operations, hfragments, hnested with
  | [], _, _ =>
    rw [operands]
    exact .pure (.refl _)
  | ⟨operator, q⟩ :: rest, hfragments, hnested =>
    rw [operands]
    simp only [Plan.nestedInOperations, List.mem_append, or_imp, forall_and] at hnested
    obtain ⟨hfragment, hfragments⟩ := List.forall_mem_cons.mp hfragments
    refine .bind (numbered_operand hs q ?_ hnested.1) fun first => ?_
    · rintro sql rfl
      exact hfragment sql (by simp [SetOperation.fragments])
    · refine .bind ((numbered_operands hs rest hfragments hnested.2).behind _) fun others => .pure ?_
      rw [Select.placeholders_operationsText_cons]
termination_by sizeOf operations

end

end EntitySql.Query
