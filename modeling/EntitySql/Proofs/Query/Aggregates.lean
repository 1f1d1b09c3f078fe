import EntitySql.Proofs.Query.Phases
import EntitySql.Proofs.Sql.Unjoining

-- A query and its aggregates. Counting the rows of a query and asking for the
-- keys of its groups join no includes, so they accept what the query accepts as
-- long as no predicate reads a member of an included reference.

namespace EntitySql.Query

open Sql (Term Compiler)
open Sql.Compiler (Step State Naming Honest Follows Shifted Unshifted MovedFrom boundIn Beneath
  SameGroupWords)

-- What succeeds behind some values succeeds without them.
abbrev Succeeds (names : Naming) (registry : Registry) (shift : Nat)
    (P : List Sql.Binding → Prop) {α : Type} (x y : Step α) : Prop :=
  Follows (Unshifted names registry shift) P (fun _ _ _ => True) x y

variable {names : Naming} {shift : Nat} {table : Option Text} {P : List Sql.Binding → Prop}
variable {c c' : Compiler} {s : Services} {env : Environment}

theorem succeeds_expression {e : Expr} (he : Named names e) :
    Succeeds names c.registry shift P (c.expression (some e)) (c.expression (some e)) := by
  have hsame := (Compiler.unjoining (.same c) names shift none).simulates_term e
    fun n hn => ⟨he n hn, Beneath.reaches_same c n⟩
  exact hsame.within.imp fun _ _ _ _ => trivial

theorem follows_fillSlots (h : c.Beneath table c') (sql : Text) (values : List Value) :
    Follows (Unshifted names c.registry shift) P
      (fun bindings => List.Forall₂ fun piece piece' =>
        piece'.Rel (Term.Moves shift table (boundIn shift bindings)) piece)
      (fillSlots c sql values) (fillSlots c' sql values) :=
  follows_fillSlots_of_constant (fun _ => .byte) (fun ht => .term ht) h.follows_constant sql values

namespace Clauses

theorem succeeds_side {e : Side Expr} (he : ∀ x ∈ e.expressions, Named names x) :
    Succeeds names c.registry shift P (side c e) (side c e) := by
  cases e with
  | raw sql => exact .pure fun _ _ => trivial
  | of e =>
    exact .bind (succeeds_expression (he e (by simp [Side.expressions]))) fun t t' _ =>
      .pure fun _ _ => trivial

theorem succeeds_case {e : Case Expr} (he : ∀ x ∈ e.expressions, Named names x) :
    Succeeds names c.registry shift P (case c e) (case c e) := by
  simp only [Case.expressions, List.mem_append (t := e.otherwise.toList), Option.mem_toList, or_imp,
    forall_and] at he
  obtain ⟨hbranches, hotherwise⟩ := he
  have hbranch : ∀ b ∈ e.branches,
      Succeeds names c.registry shift (fun _ => True) (branch c b) (branch c b) := by
    intro b hb
    have hsides : ∀ x ∈ b.1.expressions ++ b.2.expressions, Named names x :=
      fun x hx => hbranches x (List.mem_flatMap.mpr ⟨b, hb, hx⟩)
    simp only [List.mem_append, or_imp, forall_and] at hsides
    exact .bind (succeeds_side hsides.1) fun _ _ _ => .bind (succeeds_side hsides.2) fun _ _ _ =>
      .pure fun _ _ => trivial
  have helse (P : List Sql.Binding → Prop) : Succeeds names c.registry shift P
      (e.otherwise.mapM fun e => c.expression (some e))
      (e.otherwise.mapM fun e => c.expression (some e)) := by
    cases hfound : e.otherwise with
    | none => exact .pure fun _ _ => trivial
    | some x => exact .map (succeeds_expression (hotherwise x hfound)) fun _ _ _ _ => trivial
  unfold case
  refine .bind (.mapM hbranch) fun _ _ _ => .bind (helse _) fun _ _ _ => ?_
  exact .ite (fun _ => .lift_bind fun name hname => ⟨name, hname, .pure fun _ _ => trivial⟩)
    fun _ => .pure fun _ _ => trivial

theorem succeeds_rowProjections {clauses : Clauses}
    (hcases : ∀ e ∈ clauses.cases, ∀ x ∈ e.expressions, Named names x) (v : Variant) :
    Succeeds names c.registry shift P (clauses.rowProjections c v)
      (clauses.rowProjections c v) := by
  refine .ite (fun _ => .throw_bind) fun _ => .lift_bind fun columns hcolumns =>
    ⟨columns, hcolumns, ?_⟩
  have hwindow (w : Window) : Succeeds names c.registry shift (fun _ => True)
      (do return Projection.window (← w.text)) (do return Projection.window (← w.text)) :=
    .lift_bind fun t ht => ⟨t, ht, .pure fun _ _ => trivial⟩
  refine .bind (.mapM fun w _ => hwindow w) fun _ _ _ => ?_
  exact .bind (.mapM fun e he => succeeds_case (hcases e he)) fun _ _ _ => .pure fun _ _ => trivial

-- HAVING over the same groups, whose columns may stand behind an alias.
theorem succeeds_havingTerms (h : c.Beneath table c') {clauses : Clauses}
    (hnamed : ∀ e ∈ clauses.having, Named names e)
    (hreaches : ∀ e ∈ clauses.having, ∀ n ∈ e.nodes, c.Reaches c' n) {v w : Variant}
    (hv : w.omitGroups = v.omitGroups) {columns columns' : List Term}
    (hcolumns : SameGroupWords (columns.map Term.text) (columns'.map Term.text)) :
    Succeeds names c.registry shift P (clauses.havingTerms c v columns)
      (clauses.havingTerms c' w columns') := by
  have hempty : columns'.isEmpty = columns.isEmpty := by
    have hlength := hcolumns.length_eq
    simp only [List.length_map] at hlength
    rw [Bool.eq_iff_iff, List.isEmpty_iff_length_eq_zero, List.isEmpty_iff_length_eq_zero, hlength]
  have hempty' : (columns'.map Term.text).isEmpty = (columns.map Term.text).isEmpty := by
    rw [List.isEmpty_map, List.isEmpty_map, hempty]
  unfold havingTerms
  rw [hv, hempty]
  refine .ite (fun _ => .pure fun _ _ => trivial) fun _ => .ite (fun _ => .throw_bind) fun _ => ?_
  refine (Follows.mapM (R := fun _ _ _ => True) fun e he => ?_).imp fun _ _ _ _ => trivial
  unfold Compiler.having
  rw [hempty']
  refine .ite (fun _ => .throw) fun _ => ?_
  have hterm := (Compiler.regrouping h names shift hcolumns).simulates_term e
    fun n hn => ⟨hnamed e he n hn, hreaches e he n hn⟩
  exact hterm.imp fun _ _ _ _ => trivial

theorem succeeds_orderTerms {clauses : Clauses}
    (h : ∀ o ∈ clauses.orders, Named names o.selector) (v : Variant) :
    Succeeds names c.registry shift P (clauses.orderTerms c v) (clauses.orderTerms c v) := by
  refine .ite (fun _ => .pure fun _ _ => trivial) fun _ => ?_
  refine (Follows.mapM (R := fun _ _ _ => True) fun o ho => ?_).imp fun _ _ _ _ => trivial
  exact .bind (succeeds_expression (h o ho)) fun _ _ _ => .pure fun _ _ => trivial

theorem movedFrom_namedColumn (h : c.Beneath table c') {clauses : Clauses} {name : Text} {t : Term}
    (ht : clauses.namedColumn c name = .ok t) :
    ∃ t', clauses.namedColumn c' name = .ok t' ∧ ∀ bound, t'.Moves shift table bound t := by
  unfold namedColumn at ht ⊢
  split at ht
  · cases ht
  · exact h.movedFrom_rowMember (.inl rfl) ht

end Clauses

-- Behind fewer values, a statement that succeeds is the same one.
theorem follows_select_of_succeeds {p : Plan} (hp : p.Named names)
    (h : Succeeds names s.registry shift (fun _ => True) (select s env {} p) (select s env {} p)) :
    Follows (Unshifted names s.registry shift) P
      (fun bindings r r' => Select.Moves shift (boundIn shift bindings) r'.1 r.1)
      (select s env {} p) (select s env {} p) := by
  intro t t' r u hI _ hr
  obtain ⟨r', u', hr', hI', hgrow, -⟩ := h t t' r u hI (fun _ _ => trivial) hr
  obtain ⟨r'', u'', hr'', hI'', -, hmoves⟩ :=
    behind_select (by simp) p hp t' t r' u' hI (fun _ _ => trivial) hr'
  obtain ⟨rfl, rfl⟩ := hr.unique hr''
  refine ⟨r', u', hr', hI', hgrow, fun final hfinal => ?_⟩
  -- As many bindings as the second state may still grow to, the first one may.
  have hlength : boundIn shift final =
      (u.bindings ++ final.drop u'.bindings.length).length := by
    have hle := hfinal.length_le
    rw [List.length_append, List.length_drop, hI'.length]
    unfold boundIn
    omega
  show Select.Moves shift (boundIn shift final) r'.1 r.1
  rw [hlength]
  exact (hmoves _ (List.prefix_append _ _)).2

theorem sameGroupWords_refl (columns : List Text) : SameGroupWords columns columns :=
  List.forall₂_same.mpr fun _ _ => rfl

mutual

-- By the recursion of the plans in filters and set operations.
theorem succeeds_select (p : Plan) (hp : p.Named names) :
    Succeeds names s.registry shift (fun _ => True) (select s env {} p) (select s env {} p) := by
  cases p with
  | mk clauses conditions operations =>
    simp only [Plan.Named, Plan.nested, List.forall_mem_cons, List.mem_append, or_imp,
      forall_and] at hp
    obtain ⟨hown, hconditions, hoperations⟩ := hp
    rw [select]
    refine .ite (fun _ => .throw_bind) fun _ => .lift_bind fun includes hincludes => ?_
    have hsame := Beneath.same (s.compiler env clauses.root includes)
    refine ⟨includes, hincludes, .lift_bind fun columns hcolumns => ⟨columns, hcolumns, ?_⟩⟩
    refine .bind (Clauses.succeeds_rowProjections (c := s.compiler env clauses.root includes)
      hown.cases {}) fun _ _ _ => ?_
    refine .lift_bind fun source hsource => ⟨source, hsource, ?_⟩
    refine .lift_bind fun joins hjoins => ⟨joins, hjoins, ?_⟩
    refine .bind (follows_filters hsame rfl conditions hown.conditions
      (fun _ _ _ _ n _ => Beneath.reaches_same _ n) hconditions).within fun _ _ _ => ?_
    refine .bind (Clauses.succeeds_havingTerms hsame hown.having
      (fun _ _ n _ => Beneath.reaches_same _ n) rfl (sameGroupWords_refl _)) fun _ _ _ => ?_
    refine .bind (Clauses.succeeds_orderTerms (c := s.compiler env clauses.root includes)
      hown.orders {}) fun _ _ _ => ?_
    refine .ite (fun h => nomatch h) fun _ =>
      .bind (succeeds_operands operations hoperations).within fun _ _ _ => ?_
    exact .lift_bind fun checked hchecked => ⟨checked, hchecked, .pure fun _ _ => trivial⟩
termination_by sizeOf p

theorem follows_filter {c c' : Compiler} {table : Option Text} (h : c.Beneath table c')
    (hc : c.registry = s.registry) {clauses : Clauses} (condition : Condition Plan)
    (hown : ∀ e ∈ condition.expressions, Named names e)
    (hreaches : ∀ e ∈ condition.expressions, ∀ n ∈ e.nodes, c.Reaches c' n)
    (hnested : ∀ q ∈ Plan.nestedInCondition condition, q.NamesOwn names) :
    Follows (Unshifted names s.registry shift) (fun _ => True)
      (fun bindings f f' => Filter.Moves shift table (boundIn shift bindings) f' f)
      (filter s env clauses c condition) (filter s env clauses c' condition) := by
  cases condition with
  | predicate e =>
    rw [filter, filter, ← hc]
    have hterm := (Compiler.unjoining h names shift none).simulates_term e
      fun n hn => ⟨hown e (List.mem_singleton_self e) n hn,
        hreaches e (List.mem_singleton_self e) n hn⟩
    exact .bind hterm fun t t' _ => .pure fun bindings ht => .term ht.2
  | raw sql values =>
    rw [filter, filter, ← hc]
    refine .bind (follows_fillSlots h sql values) fun pieces pieces' _ => ?_
    exact .pure fun bindings hpieces => .raw hpieces.2.flip
  | inValues column values negated =>
    rw [filter, filter, ← hc]
    refine .lift_bind fun t ht => ?_
    obtain ⟨t', ht', hmoves⟩ := Clauses.movedFrom_namedColumn h ht
    refine ⟨t', ht', .ite (fun _ => .pure fun _ _ => .truth negated) fun _ => ?_⟩
    refine .bind (.mapM fun v _ => h.follows_constant v) fun items items' _ => ?_
    exact .pure fun bindings hitems => .inTerms (hmoves _) hitems.2.flip negated
  | inQuery column query negated =>
    rw [filter, filter]
    refine .lift_bind fun t ht => ?_
    obtain ⟨t', ht', hmoves⟩ := Clauses.movedFrom_namedColumn h ht
    refine ⟨t', ht', .bind (follows_select_of_succeeds hnested (succeeds_select query hnested))
      fun r r' _ => ?_⟩
    exact .pure fun bindings hquery => .inQuery (hmoves _) hquery.2 negated
  | inRaw column sql negated =>
    rw [filter, filter]
    refine .lift_bind fun t ht => ?_
    obtain ⟨t', ht', hmoves⟩ := Clauses.movedFrom_namedColumn h ht
    exact ⟨t', ht', .pure fun bindings _ => .inRaw (hmoves _) sql negated⟩
  | «exists» query negated =>
    rw [filter, filter]
    refine .bind (follows_select_of_succeeds hnested (succeeds_select query hnested))
      fun r r' _ => ?_
    exact .pure fun bindings hquery => .exists hquery.2 negated
termination_by sizeOf condition

theorem follows_filters {c c' : Compiler} {table : Option Text} (h : c.Beneath table c')
    (hc : c.registry = s.registry) {clauses : Clauses} (conditions : List (Condition Plan))
    (hown : ∀ d ∈ conditions, ∀ e ∈ d.expressions, Named names e)
    (hreaches : ∀ d ∈ conditions, ∀ e ∈ d.expressions, ∀ n ∈ e.nodes, c.Reaches c' n)
    (hnested : ∀ q ∈ Plan.nestedInConditions conditions, q.NamesOwn names) :
    Follows (Unshifted names s.registry shift) (fun _ => True)
      (fun bindings filters filters' =>
        List.Forall₂ (Filter.Moves shift table (boundIn shift bindings)) filters' filters)
      (filters s env clauses c conditions) (filters s env clauses c' conditions) := by
  cases conditions with
  | nil =>
    rw [filters, filters]
    exact .pure fun _ _ => .nil
  | cons condition rest =>
    rw [filters, filters]
    simp only [Plan.nestedInConditions, List.mem_append, or_imp, forall_and] at hnested
    obtain ⟨hfirst, hothers⟩ := List.forall_mem_cons.mp hown
    obtain ⟨hreach, hreaches⟩ := List.forall_mem_cons.mp hreaches
    refine .bind (follows_filter h hc condition hfirst hreach hnested.1) fun first first' _ => ?_
    refine .bind (follows_filters h hc rest hothers hreaches hnested.2).within
      fun others others' _ => .pure ?_
    rintro bindings ⟨⟨-, hfirst⟩, hothers⟩
    exact .cons hfirst hothers
termination_by sizeOf conditions

theorem succeeds_operand (operand : Operand Plan)
    (hnested : ∀ q ∈ Plan.nestedInOperand operand, q.NamesOwn names) :
    Succeeds names s.registry shift (fun _ => True) (Query.operand s env operand)
      (Query.operand s env operand) := by
  cases operand with
  | query q =>
    rw [Query.operand]
    exact .bind (succeeds_select q hnested) fun _ _ _ => .pure fun _ _ => trivial
  | raw sql =>
    rw [Query.operand]
    exact .pure fun _ _ => trivial
termination_by sizeOf operand

theorem succeeds_operands (operations : List (SetOperation Plan))
    (hnested : ∀ q ∈ Plan.nestedInOperations operations, q.NamesOwn names) :
    Succeeds names s.registry shift (fun _ => True) (operands s env operations)
      (operands s env operations) := by
  match operations, hnested with
  | [], _ =>
    rw [operands]
    exact .pure fun _ _ => trivial
  | ⟨operator, q⟩ :: rest, hnested =>
    rw [operands]
    simp only [Plan.nestedInOperations, List.mem_append, or_imp, forall_and] at hnested
    refine .bind (succeeds_operand q hnested.1) fun _ _ _ => ?_
    exact .bind (succeeds_operands rest hnested.2).within fun _ _ _ => .pure fun _ _ => trivial
termination_by sizeOf operations

end

-- The statements.

variable {clauses : Clauses} {conditions : List (Condition Plan)}
variable {operations : List (SetOperation Plan)} {v : Variant} {before after : State} {q : Select}
variable {includes : Option Include.Plan}

-- What is checked before the first clause and behind the last one.
theorem checks_of_yields
    (h : Yields (select s env v ⟨clauses, conditions, operations⟩) before (q, includes) after) :
    ¬(!clauses.having.isEmpty && clauses.groupKeys.isEmpty) = true ∧
      Include.checkNames (clauses.tables.flatMap CommonTable.names) = .ok () := by
  rw [select] at h
  obtain ⟨hgroups, h⟩ := Yields.guard_iff.mp h
  obtain ⟨_, -, h⟩ := Yields.lift_bind_iff.mp h
  obtain ⟨_, -, h⟩ := Yields.lift_bind_iff.mp h
  obtain ⟨_, _, -, h⟩ := Yields.bind_iff.mp h
  obtain ⟨_, -, h⟩ := Yields.lift_bind_iff.mp h
  obtain ⟨_, -, h⟩ := Yields.lift_bind_iff.mp h
  obtain ⟨_, _, -, h⟩ := Yields.bind_iff.mp h
  obtain ⟨_, _, -, h⟩ := Yields.bind_iff.mp h
  obtain ⟨_, _, -, h⟩ := Yields.bind_iff.mp h
  obtain ⟨-, h⟩ | ⟨-, h⟩ := Yields.ite_iff.mp h
  all_goals
    obtain ⟨_, _, -, h⟩ := Yields.bind_iff.mp h
    obtain ⟨⟨⟩, hnames, -⟩ := Yields.lift_bind_iff.mp h
    exact ⟨hgroups, hnames⟩

-- A member behind a navigation that has been included, or a member of such a
-- member.
def ReadsIncluded (c : Compiler) : Expr → Prop
  | .member _ owner _ =>
    (owner.memberPath.isEmpty = false ∧ c.included? owner ≠ none) ∨ ReadsIncluded c owner
  | _ => False

theorem reaches_of_not_readsIncluded {c : Compiler} {e : Expr} (h : ¬ReadsIncluded c e) :
    c.Reaches { c with includes := none } e := by
  cases e with
  | member id owner name =>
    obtain ⟨hself, howner⟩ := not_or.mp h
    refine ⟨?_, reaches_of_not_readsIncluded howner⟩
    by_cases hroot : owner.memberPath.isEmpty = true
    · exact .inl hroot
    · have hnone : c.included? owner = none := by simpa [hroot] using hself
      exact .inr hnone.symm
  | _ => trivial

-- The filters of two statements, with the values that they are bound to.
structure FiltersAlike (shift : Nat) (table : Option Text) (bound : Nat)
    (filters filters' : List (Filter Select)) (values values' : List Value) : Prop where
  filters : List.Forall₂ (Filter.Moves shift table bound) filters filters'
  values : ∀ i, i + shift < bound → values'[i + shift]? = values[i]?

theorem exists_source {aliasName : Option Text} {source : Source}
    (h : clauses.source aliasName = .ok source) : ∃ source', clauses.source none = .ok source' := by
  unfold Clauses.source at h ⊢
  split at h
  · next hraw => exact ⟨_, by rw [if_pos hraw]; rfl⟩
  · next hraw =>
    obtain ⟨⟨⟩, hname, -⟩ := Result.bind_eq_ok.mp h
    exact ⟨_, by rw [if_neg hraw, hname]; rfl⟩

-- The filters without joins, behind no values.
theorem exists_filters (hown : Plan.NamesOwn names ⟨clauses, conditions, operations⟩)
    (hnested : ∀ q ∈ Plan.nestedInConditions conditions, q.NamesOwn names)
    (hdirect : ∀ d ∈ conditions, ∀ e ∈ d.expressions, ∀ n ∈ e.nodes,
      ¬ReadsIncluded (s.compiler env clauses.root includes) n)
    {first second : State} (hfirst : Honest names s.registry first.cache)
    {found : List (Filter Select)}
    (hfilters : Yields (filters s env clauses (s.compiler env clauses.root includes) conditions)
      first found second) {cache : Option Sql.AccessorCache}
    (hcache : Honest names s.registry cache) :
    ∃ found' second',
      Yields (filters s env clauses (s.compiler env clauses.root none) conditions)
        { cache := cache } found' second' ∧
      Unshifted names s.registry first.bindings.length second second' ∧
      List.Forall₂ (Filter.Moves first.bindings.length
        (s.compiler env clauses.root includes).rootAlias? second.bindings.length) found' found := by
  have hstart : Unshifted names s.registry first.bindings.length first { cache := cache } :=
    ⟨le_rfl, by simp, hcache, hfirst⟩
  obtain ⟨found', second', hyields, hunshifted, -, hmoves⟩ :=
    follows_filters (.unjoined (s.compiler env clauses.root includes)) rfl conditions
      hown.conditions (fun d hd e he n hn => reaches_of_not_readsIncluded (hdirect d hd e he n hn))
      hnested _ _ _ _ hstart (fun _ _ => trivial) hfilters
  refine ⟨found', second', hyields, hunshifted, ?_⟩
  have hlength : boundIn first.bindings.length second'.bindings = second.bindings.length :=
    hunshifted.length.symm
  rw [← hlength]
  exact hmoves _ List.prefix_rfl

-- What both statements have bound by now, they go on to hold.
theorem filtersAlike_of_unshifted {shift : Nat} {found found' : List (Filter Select)}
    {second second' after' : State} (h : Unshifted names s.registry shift second second')
    (hmoves : List.Forall₂ (Filter.Moves shift table second.bindings.length) found' found)
    (hgrow : second.bindings <+: after.bindings) (hgrow' : second'.bindings <+: after'.bindings) :
    FiltersAlike shift table second.bindings.length found' found (State.values after')
      (State.values after) :=
  ⟨hmoves, values_of_shifted h hgrow' hgrow⟩

-- Counting, and asking whether there are any.
theorem exists_scalar {p : Plan} (hp : p.Named names)
    (hbefore : Honest names s.registry before.cache)
    (hrender : Yields (select s env {} p) before (q, includes) after)
    (hdirect : ∀ d ∈ p.conditions, ∀ e ∈ d.expressions, ∀ n ∈ e.nodes,
      ¬ReadsIncluded (s.compiler env p.root includes) n)
    {cache : Option Sql.AccessorCache} (hcache : Honest names s.registry cache)
    {m : Measure (Option Expr)} (hm : m = .count ∨ m = .any) :
    ∃ scalar after', Yields (p.scalar s env m none) { cache := cache } scalar after' ∧
      ∃ shift table bound, (table = none ∨ table = some Include.Node.rootAlias) ∧
        FiltersAlike shift table bound scalar.filters q.filters (State.values after')
          (State.values after) := by
  cases p with
  | mk clauses conditions operations =>
    simp only [Plan.Named, Plan.nested, List.forall_mem_cons, List.mem_append, or_imp,
      forall_and] at hp
    obtain ⟨hown, hconditions, hoperations⟩ := hp
    obtain ⟨columns, projections, first, source, joins, found, second, having, third, orders,
      fourth, combined, -, -, hprojections, hsource, -, hfilters, hhaving, horders, hcombined,
      rfl⟩ := clauses_of_yields hrender
    have hfirst := (Clauses.behind_rowProjections (c := s.compiler env clauses.root includes)
      hown.cases {}).keeps hbefore hprojections
    obtain ⟨found', second', hfilters', hunshifted, hmoves⟩ :=
      exists_filters hown hconditions hdirect hfirst.1 hfilters hcache
    have hgrow := (Clauses.behind_havingTerms (c := s.compiler env clauses.root includes)
      hown.having {} columns).keeps hunshifted.honest' hhaving
    have hgrow' := (Clauses.behind_orderTerms (c := s.compiler env clauses.root includes)
      hown.orders {}).keeps hgrow.1 horders
    have hgrow'' := (behind_operands operations hoperations).keeps hgrow'.1 hcombined
    have hafter := hgrow.2.trans (hgrow'.2.trans hgrow''.2)
    obtain ⟨source', hsource'⟩ := exists_source hsource
    obtain ⟨m', hmeasure⟩ : ∃ m', Yields
        (Plan.measure (s.compiler env clauses.root none) m) { cache := cache } m'
        { cache := cache } := by
      rcases hm with rfl | rfl
      · exact ⟨_, Yields.pure_iff.mpr ⟨rfl, rfl⟩⟩
      · exact ⟨_, Yields.pure_iff.mpr ⟨rfl, rfl⟩⟩
    refine ⟨⟨m', source', clauses.rawJoins, found' ++ []⟩, second', ?_, first.bindings.length, _,
      second.bindings.length, rootAlias?_eq (s.compiler env clauses.root includes), ?_⟩
    · refine Yields.bind_iff.mpr ⟨m', _, hmeasure, Yields.lift_bind_iff.mpr ⟨source', hsource', ?_⟩⟩
      refine Yields.bind_iff.mpr ⟨found', second', hfilters', ?_⟩
      exact Yields.bind_iff.mpr ⟨[], second', Yields.pure_iff.mpr ⟨rfl, rfl⟩,
        Yields.pure_iff.mpr ⟨rfl, rfl⟩⟩
    · rw [List.append_nil]
      exact filtersAlike_of_unshifted hunshifted hmoves hafter List.prefix_rfl

-- Group keys.

-- The key is a field of its row.
def SelectsField (registry : Registry) (key : Expr) : Prop :=
  ∃ id owner parameter name f, key.body = .member id (.parameter owner parameter) name ∧
    parameter.group = false ∧
    (registry.find? parameter.entity).bind (·.property? name) = some f

theorem SelectsField.selectedColumn? {key : Expr} (h : SelectsField c.registry key) :
    ∃ f : Field, ∀ c' : Compiler, c'.registry = c.registry →
      c'.selectedColumn? key = (c'.rootColumn f.column).map some := by
  obtain ⟨id, owner, parameter, name, f, hbody, hgroup, hf⟩ := h
  refine ⟨f, fun c' hc => ?_⟩
  unfold Compiler.selectedColumn?
  simp only [hbody, hgroup, Bool.false_eq_true, if_false, hc, hf]

def IsColumn (t : Term) : Prop := ∃ aliasName name, t = .column aliasName name

-- A quoted name, or a star.
theorem quoted_ne_null (name rest : Text) : Sql.quoted name ++ rest ≠ "NULL" := by
  have hhead : ∃ first more, Sql.quoted name = first :: more ∧ first ≠ 78 := by
    unfold Sql.quoted
    obtain ⟨segment, segments, hsplit⟩ := List.exists_cons_of_ne_nil
      (Text.split_ne_nil Byte.dot name)
    rw [hsplit, List.map_cons, Text.join_cons]
    unfold Sql.quotedSegment
    split
    · next hstar => exact ⟨Byte.star, _, by rw [hstar]; rfl, by decide⟩
    · exact ⟨Byte.doubleQuote, _, rfl, by decide⟩
  obtain ⟨first, more, hquoted, hfirst⟩ := hhead
  rw [hquoted]
  intro hnull
  have hnull : first = 78 := (List.cons.inj hnull).1
  exact hfirst hnull

theorem IsColumn.ne_null {t : Term} (h : IsColumn t) : (t.text == "NULL") = false := by
  obtain ⟨aliasName, name, rfl⟩ := h
  rw [beq_eq_false_iff_ne]
  cases aliasName with
  | none =>
    have hname := quoted_ne_null name []
    rwa [List.append_nil] at hname
  | some aliasName => exact quoted_ne_null aliasName _

theorem exists_selectedColumns (h : c.Beneath table c') {keys : List Expr}
    (hkeys : ∀ key ∈ keys, SelectsField c.registry key) {found : Option (List Term)}
    (hfound : Clauses.selectedColumns? c keys = .ok found) :
    ∃ columns columns', found = some columns ∧
      Clauses.selectedColumns? c' keys = .ok (some columns') ∧ columns'.length = keys.length ∧
      List.Forall₂ (fun t t' => IsColumn t ∧ IsColumn t') columns columns' := by
  induction keys generalizing found with
  | nil =>
    cases hfound
    exact ⟨[], [], rfl, rfl, rfl, .nil⟩
  | cons key rest ih =>
    obtain ⟨hkey, hrest⟩ := List.forall_mem_cons.mp hkeys
    obtain ⟨f, hcolumn⟩ := hkey.selectedColumn?
    rw [Clauses.selectedColumns?, hcolumn c rfl] at hfound
    rw [Clauses.selectedColumns?, hcolumn c' h.registry]
    cases hroot : c.rootColumn f.column with
    | error e =>
      rw [hroot] at hfound
      cases hfound
    | ok t =>
      obtain ⟨t', ht', -⟩ : ∃ t', c'.rootColumn f.column = .ok t' ∧
        ∀ bound, t'.Moves 0 table bound t := h.movedFrom_rootColumn hroot
      rw [hroot] at hfound
      obtain ⟨first, hfirst, hfound⟩ := Result.bind_eq_ok.mp hfound
      cases hfirst
      obtain ⟨others, hothers, hfound⟩ := Result.bind_eq_ok.mp hfound
      obtain ⟨columns, columns', rfl, hcolumns', hlength, hall⟩ := ih hrest hothers
      cases hfound
      refine ⟨t :: columns, t' :: columns', rfl, ?_, by simp [hlength], .cons ?_ hall⟩
      · rw [ht']
        exact Result.bind_eq_ok.mpr ⟨some t', rfl,
          Result.bind_eq_ok.mpr ⟨some columns', hcolumns', rfl⟩⟩
      · exact ⟨⟨_, _, Compiler.eq_of_column hroot⟩, ⟨_, _, Compiler.eq_of_column ht'⟩⟩

theorem exists_groupColumns (h : c.Beneath table c')
    (hkeys : ∀ key ∈ clauses.groupKeys, SelectsField c.registry key) {columns : List Term}
    (hcolumns : clauses.groupColumns c = .ok columns) :
    ∃ columns', clauses.groupColumns c' = .ok columns' ∧
      columns'.length = clauses.groupKeys.length ∧
      SameGroupWords (columns.map Term.text) (columns'.map Term.text) := by
  unfold Clauses.groupColumns at hcolumns ⊢
  cases hfound : Clauses.selectedColumns? c clauses.groupKeys with
  | error e =>
    rw [hfound] at hcolumns
    cases hcolumns
  | ok found =>
    obtain ⟨columns, columns', rfl, hcolumns', hlength, hall⟩ := exists_selectedColumns h hkeys hfound
    rw [hfound] at hcolumns
    cases hcolumns
    refine ⟨columns', by rw [hcolumns']; rfl, hlength, ?_⟩
    unfold SameGroupWords
    rw [List.forall₂_map_left_iff, List.forall₂_map_right_iff]
    exact hall.imp fun t t' ht => by rw [ht.1.ne_null, ht.2.ne_null]

-- The keys of the groups that qualify.
theorem exists_keys {p : Plan} (hp : p.Named names)
    (hbefore : Honest names s.registry before.cache)
    (hrender : Yields (select s env {} p) before (q, includes) after)
    (hdirect : ∀ d ∈ p.conditions, ∀ e ∈ d.expressions, ∀ n ∈ e.nodes,
      ¬ReadsIncluded (s.compiler env p.root includes) n)
    {cache : Option Sql.AccessorCache} (hcache : Honest names s.registry cache)
    (hgrouped : p.clauses.groupKeys ≠ [])
    (hkeys : ∀ key ∈ p.clauses.groupKeys, SelectsField s.registry key)
    (hgroups : ∀ e ∈ p.clauses.having, ∀ n ∈ e.nodes,
      ¬ReadsIncluded (s.compiler env p.root includes) n) :
    ∃ keys after', Yields (select s env { keysOnly := true } p) { cache := cache } (keys, none)
        after' ∧
      ∃ shift table bound, (table = none ∨ table = some Include.Node.rootAlias) ∧
        FiltersAlike shift table bound keys.filters q.filters (State.values after')
          (State.values after) := by
  cases p with
  | mk clauses conditions operations =>
    simp only [Plan.Named, Plan.nested, List.forall_mem_cons, List.mem_append, or_imp,
      forall_and] at hp
    obtain ⟨hown, hconditions, hoperations⟩ := hp
    obtain ⟨hguard, hnames⟩ := checks_of_yields hrender
    obtain ⟨columns, projections, first, source, joins, found, second, having, third, orders,
      fourth, combined, -, hcolumns, hprojections, hsource, -, hfilters, hhaving, horders,
      hcombined, rfl⟩ := clauses_of_yields hrender
    have hbeneath := Beneath.unjoined (s.compiler env clauses.root includes)
    have hfirst := (Clauses.behind_rowProjections (c := s.compiler env clauses.root includes)
      hown.cases {}).keeps hbefore hprojections
    obtain ⟨found', second', hfilters', hunshifted, hmoves⟩ :=
      exists_filters hown hconditions hdirect hfirst.1 hfilters hcache
    obtain ⟨columns', hcolumns', hlength, hwords⟩ := exists_groupColumns hbeneath hkeys hcolumns
    obtain ⟨having', third', hhaving', -, hgrow, -⟩ :=
      Clauses.succeeds_havingTerms (P := fun _ => True) (v := {}) (w := { keysOnly := true })
        hbeneath hown.having
        (fun e he n hn => reaches_of_not_readsIncluded (hgroups e he n hn)) rfl hwords
        _ _ _ _ hunshifted (fun _ _ => trivial) hhaving
    have hgrown := (Clauses.behind_havingTerms (c := s.compiler env clauses.root includes)
      hown.having {} columns).keeps hunshifted.honest' hhaving
    have hgrown' := (Clauses.behind_orderTerms (c := s.compiler env clauses.root includes)
      hown.orders {}).keeps hgrown.1 horders
    have hgrown'' := (behind_operands operations hoperations).keeps hgrown'.1 hcombined
    have hafter := hgrown.2.trans (hgrown'.2.trans hgrown''.2)
    obtain ⟨source', hsource'⟩ := exists_source hsource
    have hprojections' : Yields (clauses.projections (s.compiler env clauses.root none)
        { keysOnly := true } columns') { cache := cache } (columns'.map .groupKey)
        { cache := cache } := by
      have hsome : ¬columns'.isEmpty = true := by
        rw [List.isEmpty_iff_length_eq_zero, hlength, List.length_eq_zero_iff]
        exact hgrouped
      refine Yields.guard_iff.mpr ⟨hsome, Yields.bind_iff.mpr ⟨[], { cache := cache }, ?_, ?_⟩⟩
      · exact Yields.pure_iff.mpr ⟨rfl, rfl⟩
      · exact Yields.pure_iff.mpr ⟨by simp, rfl⟩
    refine ⟨⟨statementParts { keysOnly := true } clauses (columns'.map .groupKey) source' [] columns'
      having' [], found', []⟩, third', ?_, first.bindings.length, _, second.bindings.length,
      rootAlias?_eq (s.compiler env clauses.root includes),
      filtersAlike_of_unshifted hunshifted hmoves hafter hgrow⟩
    rw [select]
    refine Yields.guard_iff.mpr ⟨hguard, Yields.lift_bind_iff.mpr ⟨none, rfl, ?_⟩⟩
    refine Yields.lift_bind_iff.mpr ⟨columns', hcolumns', ?_⟩
    refine Yields.bind_iff.mpr ⟨_, _, hprojections', ?_⟩
    refine Yields.lift_bind_iff.mpr ⟨source', hsource', Yields.lift_bind_iff.mpr ⟨[], rfl, ?_⟩⟩
    refine Yields.bind_iff.mpr ⟨found', second', hfilters', ?_⟩
    refine Yields.bind_iff.mpr ⟨having', third', hhaving', ?_⟩
    refine Yields.bind_iff.mpr ⟨[], third', Yields.pure_iff.mpr ⟨rfl, rfl⟩, ?_⟩
    refine Yields.bind_iff.mpr ⟨[], third', Yields.pure_iff.mpr ⟨rfl, rfl⟩, ?_⟩
    exact Yields.lift_bind_iff.mpr ⟨(), hnames, Yields.pure_iff.mpr ⟨rfl, rfl⟩⟩

-- What a query accepts, its aggregates accept, and they filter the same rows:
-- by the same conditions, up to the alias of the root and the numbers of the
-- placeholders.
theorem accepts_aggregates {p : Plan} (hp : p.Named names)
    (hbefore : Honest names s.registry before.cache)
    (hrender : Yields (select s env {} p) before (q, includes) after)
    (hdirect : ∀ d ∈ p.conditions, ∀ e ∈ d.expressions, ∀ n ∈ e.nodes,
      ¬ReadsIncluded (s.compiler env p.root includes) n)
    {cache : Option Sql.AccessorCache} (hcache : Honest names s.registry cache) :
    (∀ m, m = .count ∨ m = .any → ∃ scalar after',
      Yields (p.scalar s env m none) { cache := cache } scalar after' ∧
      ∃ shift table bound, (table = none ∨ table = some Include.Node.rootAlias) ∧
        FiltersAlike shift table bound scalar.filters q.filters (State.values after')
          (State.values after)) ∧
    (p.clauses.groupKeys ≠ [] → (∀ key ∈ p.clauses.groupKeys, SelectsField s.registry key) →
      (∀ e ∈ p.clauses.having, ∀ n ∈ e.nodes,
        ¬ReadsIncluded (s.compiler env p.root includes) n) →
      ∃ keys after',
        Yields (select s env { keysOnly := true } p) { cache := cache } (keys, none) after' ∧
        ∃ shift table bound, (table = none ∨ table = some Include.Node.rootAlias) ∧
          FiltersAlike shift table bound keys.filters q.filters (State.values after')
            (State.values after)) :=
  ⟨fun _ hm => exists_scalar hp hbefore hrender hdirect hcache hm,
    fun hgrouped hkeys hgroups =>
      exists_keys hp hbefore hrender hdirect hcache hgrouped hkeys hgroups⟩

-- Posts with their authors, grouped, and some of them counted.
theorem accepts_aggregates_readByAuthor :
    ∃ q includes after,
      Yields (select readServices readEnvironment {} readByAuthor) {} (q, includes) after ∧
      (∃ scalar after',
        Yields (readByAuthor.scalar readServices readEnvironment .count none) {} scalar after' ∧
        ∃ shift table bound, (table = none ∨ table = some Include.Node.rootAlias) ∧
          FiltersAlike shift table bound scalar.filters q.filters (State.values after')
            (State.values after)) ∧
      ∃ keys after',
        Yields (select readServices readEnvironment { keysOnly := true } readByAuthor) {}
          (keys, none) after' ∧
        ∃ shift table bound, (table = none ∨ table = some Include.Node.rootAlias) ∧
          FiltersAlike shift table bound keys.filters q.filters (State.values after')
            (State.values after) := by
  obtain ⟨q, includes, after, hrender⟩ : ∃ q includes after,
      Yields (select readServices readEnvironment {} readByAuthor) {} (q, includes) after :=
    ⟨_, _, _, rfl⟩
  have hhonest := Sql.Compiler.honest_none readNames readServices.registry
  obtain ⟨hscalar, hkeys⟩ := accepts_aggregates named_readByAuthor hhonest hrender
    (by simp [readByAuthor, Condition.expressions, Expr.nodes, ReadsIncluded, Expr.memberPath])
    hhonest
  refine ⟨q, includes, after, hrender, hscalar .count (.inl rfl), hkeys (by simp [readByAuthor]) ?_ ?_⟩
  · intro key hkey
    obtain rfl := List.mem_singleton.mp hkey
    exact ⟨_, _, _, _, _, rfl, rfl, rfl⟩
  · simp [readByAuthor, Expr.nodes, Expr.nodesOf, ReadsIncluded]

-- The posts of an author are found by a name that is read through the include,
-- but not counted.

def postsOfAnn : Plan where
  clauses := { root := Catalogue.postEntity, includes := ["Author"] }
  conditions :=
    [.predicate (.binary 4 .equal
      (.member 2 (.member 1 (.parameter 0 ⟨"p", Catalogue.post, false⟩) "Author") "Name")
      (.constant 3 (.string "Ann")))]

theorem counting_refuses_included :
    (∃ q includes after,
      Yields (select readServices readEnvironment {} postsOfAnn) {} (q, includes) after ∧
      whereClause q.filters = " WHERE (\"t1\".\"name\" = @p0)") ∧
    (∀ scalar after,
      ¬Yields (postsOfAnn.scalar readServices readEnvironment .count none) {} scalar after) ∧
    ∀ scalar after,
      ¬Yields (postsOfAnn.scalar readServices readEnvironment .any none) {} scalar after := by
  refine ⟨⟨_, _, _, rfl, by decide⟩, fun scalar after h => ?_, fun scalar after h => ?_⟩
  · cases h
  · cases h

end EntitySql.Query
