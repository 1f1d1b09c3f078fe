import EntitySql.Proofs.Include.Conditions
import EntitySql.Proofs.Query.Attribution
import EntitySql.Proofs.Query.Phases

-- The aliases of a statement with includes. FROM and the joins declare each
-- alias of the include plan once, and every column stands behind one of them.

namespace EntitySql.Query

open Include (Node)
open Sql (Term Compiler)
open Sql.Compiler (Step State)

def Source.aliases : Source → List Text
  | .raw _ => []
  | .table _ aliasName => aliasName.toList

-- The aliases that are declared by FROM and by the joins, in their order.
def SelectParts.aliases (p : SelectParts) : List Text :=
  p.source.aliases ++ p.joins.map Include.Join.aliasName

-- The tables that a projection takes its columns from.
def Projection.qualifiers : Projection → List Text
  | .column c => [c.column.1]
  | .allColumnsOf table => [table]
  | _ => []

-- A group key is kept as the text of its column.
def Keyed (table : Option Text) (t : Term) : Prop :=
  ∀ sql, (Term.groupKey sql).Occurs t → ∃ column, sql = (Term.column table column).text

-- A column behind a joined table is a column of the entity of the one node
-- with that alias.
def ColumnOf (plan : Include.Plan) (aliasName column : Text) : Prop :=
  ∃ n ∈ plan.nodes, n.aliasName = aliasName ∧ (∀ m ∈ plan.nodes, m.aliasName = aliasName → m = n) ∧
    ∃ f ∈ n.target.fields, f.column = column

variable {s : Services} {env : Environment} {c : Compiler} {p : Plan} {expressions : List Expr}
variable {plan : Include.Plan}

theorem keyed_of_leaf {table : Option Text} {t : Term} (hoperands : t.operands = [])
    (ht : ∀ sql, t ≠ .groupKey sql) : Keyed table t :=
  fun sql hoccurs => absurd (hoccurs.eq_of_operands hoperands).symm (ht sql)

theorem keying (c : Compiler) {group : Compiler.GroupColumns}
    (hgroup : ∀ sql ∈ group.getD [], ∃ column, sql = (Term.column c.rootAlias? column).text) :
    c.Invariant group (fun _ => True) (Keyed c.rootAlias?) where
  frame := by
    intro t ht hoperands sql hoccurs
    obtain ⟨o, ho, hoccurs⟩ := hoccurs.exists_operand ht id
    exact hoperands o ho sql hoccurs
  value _ := keyed_of_leaf rfl (by simp)
  placeholder _ := keyed_of_leaf rfl (by simp)
  groupKey sql hsql := by
    intro sql' hoccurs
    cases hoccurs.eq_of_operands rfl
    exact hgroup sql hsql
  row := by
    rintro id owner name x t - - - ht
    obtain ⟨table, column, rfl⟩ := Compiler.exists_column_of_rowMember ht
    exact keyed_of_leaf rfl (by simp)

theorem exists_column_of_keyColumn {t : Term} (h : KeyColumn c p t) :
    ∃ column, t = .column c.rootAlias? column := by
  obtain ⟨key, -, h⟩ := h
  unfold Compiler.selectedColumn? at h
  split at h
  · split at h
    · cases h
    · next f _ =>
      cases hroot : c.rootColumn f.column with
      | error e =>
        rw [hroot] at h
        cases h
      | ok u =>
        rw [hroot] at h
        cases h
        exact ⟨f.column, (Compiler.rootColumn_eq_ok.mp hroot).2⟩
  · cases h

theorem Origin.keyed {t : Term} (h : Origin c p expressions t) : Keyed c.rootAlias? t := by
  cases h with
  | @expression group e before after _ hgroup h =>
    refine (keying c fun sql hsql => ?_).good_of_term (fun _ _ => trivial) h
    obtain ⟨t, ht, rfl⟩ := hgroup sql hsql
    obtain ⟨column, rfl⟩ := exists_column_of_keyColumn ht
    exact ⟨column, rfl⟩
  | constant h =>
    have hinvariant : c.Invariant none _ _ := keying c (by simp)
    exact hinvariant.good_of_constant h
  | groupKey h =>
    obtain ⟨column, rfl⟩ := exists_column_of_keyColumn h
    exact keyed_of_leaf rfl (by simp)
  | named _ h =>
    unfold Clauses.namedColumn at h
    split at h
    · cases h
    · obtain ⟨table, column, rfl⟩ := Compiler.exists_column_of_rowMember h
      exact keyed_of_leaf rfl (by simp)

-- The columns of the rows are those of the plan.

theorem mem_aliases_of_node {n : Node} (hn : n ∈ plan.nodes) : n.aliasName ∈ plan.aliases :=
  List.mem_cons_of_mem _ (List.mem_flatMap.mpr ⟨n, hn, Node.mem_aliases.mpr (.inr rfl)⟩)

theorem mem_aliases_of_selectedColumn {column : Include.SelectedColumn}
    (h : column ∈ Include.selectedColumns plan) : column.column.1 ∈ plan.aliases := by
  rcases Include.Plan.mem_selectedColumns h with ⟨f, -, rfl⟩ | ⟨n, hn, f, -, rfl⟩
  · exact List.mem_cons_self
  · exact mem_aliases_of_node hn

theorem qualifiers_rowColumns {clauses : Clauses} (hplan : c.includes = some plan)
    {projections : List Projection} (h : clauses.rowColumns c = .ok projections) :
    ∀ r ∈ projections, ∀ a ∈ r.qualifiers, a ∈ plan.aliases := by
  unfold Clauses.rowColumns at h
  rw [hplan] at h
  split at h
  · cases h
    simp [Projection.qualifiers]
  · obtain ⟨_, -, h⟩ := Result.bind_eq_ok.mp h
    cases h
    simp only [List.forall_mem_map, Projection.qualifiers, List.forall_mem_singleton]
    exact fun column hcolumn => mem_aliases_of_selectedColumn hcolumn

theorem qualifiers_case {e : Case Expr} {r : Projection} {before after : State}
    (h : Yields (Clauses.case c e) before r after) : r.qualifiers = [] := by
  obtain ⟨branches, _, -, h⟩ := Yields.bind_iff.mp h
  obtain ⟨otherwise, _, -, h⟩ := Yields.bind_iff.mp h
  obtain ⟨-, h⟩ | ⟨-, h⟩ := Yields.ite_iff.mp h
  · obtain ⟨_, -, h⟩ := Yields.lift_bind_iff.mp h
    obtain ⟨rfl, -⟩ := Yields.pure_iff.mp h
    rfl
  · obtain ⟨rfl, -⟩ := Yields.pure_iff.mp h
    rfl

theorem qualifiers_rowProjections {clauses : Clauses} (hplan : c.includes = some plan)
    {projections : List Projection} {before after : State}
    (h : Yields (clauses.rowProjections c {}) before projections after) :
    ∀ r ∈ projections, ∀ a ∈ r.qualifiers, a ∈ plan.aliases := by
  unfold Clauses.rowProjections at h
  obtain ⟨-, h⟩ := Yields.guard_iff.mp h
  obtain ⟨columns, hcolumns, h⟩ := Yields.lift_bind_iff.mp h
  obtain ⟨windows, _, hwindows, h⟩ := Yields.bind_iff.mp h
  obtain ⟨cases, _, hcases, h⟩ := Yields.bind_iff.mp h
  obtain ⟨rfl, -⟩ := Yields.pure_iff.mp h
  have hnone : ∀ r ∈ windows ++ cases, r.qualifiers = [] := by
    refine List.forall_mem_append.mpr ⟨?_, ?_⟩
    · refine Yields.forall_of_mapM (fun w _ _ r _ hr => ?_) hwindows
      obtain ⟨sql, -, hr⟩ := Yields.lift_bind_iff.mp hr
      obtain ⟨rfl, -⟩ := Yields.pure_iff.mp hr
      rfl
    · exact Yields.forall_of_mapM (fun e _ _ r _ hr => qualifiers_case hr) hcases
  rw [List.append_assoc]
  refine List.forall_mem_append.mpr ⟨qualifiers_rowColumns hplan hcolumns, fun r hr a ha => ?_⟩
  rw [hnone r hr] at ha
  cases ha

-- What the aliases of a statement over a plan are, and what they stand for.
structure Select.AliasedBy (q : Select) (c : Compiler) (plan : Include.Plan) : Prop where
  declared : q.parts.aliases = plan.aliases
  distinct : q.parts.aliases.Nodup
  source : q.parts.source.aliases = [Node.rootAlias]
  joined : Include.InScope q.parts.source.aliases q.parts.joins
  projected : ∀ r ∈ q.parts.projections, ∀ a ∈ r.qualifiers, a ∈ q.parts.aliases
  columns : ∀ t ∈ q.terms, ∀ table column, (Term.column table column).Occurs t →
    ∃ a ∈ q.parts.aliases, table = some a ∧ (a = Node.rootAlias ∨ ColumnOf plan a column)
  keys : ∀ t ∈ q.terms, Keyed (some Node.rootAlias) t
  reference : ∀ {x source owner member t}, owner.memberPath ≠ [] →
    c.rowMember x source owner member = .ok t →
    ∃ n ∈ plan.nodes, plan.find? (Compiler.navigationPath owner) = some n ∧
      ∃ f ∈ n.target.fields, t = .column (some n.aliasName) f.column ∧
        ColumnOf plan n.aliasName f.column

theorem columnOf_node {registry : Registry} (h : plan.Sound registry) {n : Node}
    (hn : n ∈ plan.nodes) {f : Field} (hf : f ∈ n.target.fields) :
    ColumnOf plan n.aliasName f.column :=
  ⟨n, hn, rfl, fun _ hm heq => h.eq_of_number_eq hm hn (Node.aliasOf_injective heq), f, hf, rfl⟩

theorem exists_plan_of_includes {clauses : Clauses} (hincludes : clauses.includes ≠ [])
    {includes : Option Include.Plan} (h : clauses.includePlan s {} = .ok includes) :
    ∃ plan, includes = some plan ∧ plan.Sound s.registry ∧ plan.nodes ≠ [] := by
  obtain ⟨hsound, -, hnodes⟩ := includePlan_spec h
  cases includes with
  | none =>
    rw [Clauses.includePlan, if_neg (by simp [hincludes])] at h
    cases hplan : Include.Plan.make s.registry clauses.maxIncludeDepth clauses.root
        clauses.includes <;> rw [hplan] at h <;> cases h
  | some plan => exact ⟨plan, rfl, hsound, (hnodes plan rfl).1⟩

theorem rootAlias?_eq_some (hplan : c.includes = some plan) (hnodes : plan.nodes ≠ []) :
    c.rootAlias? = some Node.rootAlias := by
  simp [Compiler.rootAlias?, hplan, Include.Plan.isEmpty, hnodes]

-- A column of the terms is one of the root, or one that navigations lead to.
theorem Origin.aliased (hplan : c.includes = some plan) (hnodes : plan.nodes ≠ [])
    {registry : Registry} (hsound : plan.Sound registry) {t : Term}
    (h : Origin c p (p.ownExpressions ++ expressions) t) {table : Option Text} {column : Text}
    (hoccurs : (Term.column table column).Occurs t) :
    ∃ a ∈ plan.aliases, table = some a ∧ (a = Node.rootAlias ∨ ColumnOf plan a column) := by
  have hkeys : p.clauses.groupKeys ⊆ p.ownExpressions ++ expressions := fun e he => by
    simp [Plan.ownExpressions, he]
  cases h.attributed hkeys table column hoccurs with
  | own _ => exact ⟨Node.rootAlias, List.mem_cons_self, rootAlias?_eq_some hplan hnodes, .inl rfl⟩
  | joined hjoined =>
    obtain ⟨-, -, hincludes, hfound, rfl, hfield, rfl⟩ := hjoined
    obtain rfl := Option.some.inj (hplan.symm.trans hincludes)
    have hn := Compiler.mem_nodes_of_find? hfound
    exact ⟨_, mem_aliases_of_node hn, rfl,
      .inr (columnOf_node hsound hn (Entity.mem_of_property? hfield))⟩

-- A statement with includes reads the root and the joins of their plan.
structure Select.Reads (q : Select) (registry : Registry) (plan : Include.Plan) : Prop where
  sound : plan.Sound registry
  nodes : plan.nodes ≠ []
  source : q.parts.source.aliases = [Node.rootAlias]
  joins : q.parts.joins = Include.joins plan
  projections : ∀ r ∈ q.parts.projections, ∀ a ∈ r.qualifiers, a ∈ plan.aliases

theorem reads_plan {p : Plan} {before after : State} {q : Select} {includes : Option Include.Plan}
    (hincludes : p.clauses.includes ≠ []) (hfrom : p.clauses.rawFrom = [])
    (h : Yields (select s env {} p) before (q, includes) after) :
    p.clauses.includePlan s {} = .ok includes ∧
      ∃ plan, includes = some plan ∧ q.Reads s.registry plan := by
  obtain ⟨clauses, conditions, operations⟩ := p
  obtain ⟨columns, projections, first, source, joins, filters, second, having, third, orders,
    fourth, combined, hplan, -, hprojections, hsource, hjoins, -, -, -, -, rfl⟩ :=
    clauses_of_yields h
  obtain ⟨plan, rfl, hsound, hnodes⟩ := exists_plan_of_includes hincludes hplan
  have hroot := rootAlias?_eq_some (c := s.compiler env clauses.root (some plan)) rfl hnodes
  refine ⟨hplan, plan, rfl, hsound, hnodes, ?_, joins_eq hjoins clauses.root,
    qualifiers_rowProjections rfl hprojections⟩
  rw [hroot] at hsource
  cases source_eq_table hfrom hsource
  rfl

theorem Select.Reads.aliases {q : Select} {registry : Registry} (h : q.Reads registry plan) :
    q.parts.aliases = plan.aliases := by
  rw [SelectParts.aliases, h.source, h.joins, ← Include.Plan.map_aliasName_joins]
  rfl

-- In a statement with includes every column is behind an alias that is
-- declared once, and in a condition no later than there.
theorem closes_aliases {p : Plan} {before after : State} {q : Select}
    {includes : Option Include.Plan} (hincludes : p.clauses.includes ≠ [])
    (hfrom : p.clauses.rawFrom = [])
    (h : Yields (select s env {} p) before (q, includes) after) :
    ∃ plan, includes = some plan ∧ q.AliasedBy (s.compiler env p.root includes) plan := by
  obtain ⟨hplan, plan, rfl, hreads⟩ := reads_plan hincludes hfrom h
  obtain ⟨_, hplan', -, horigins⟩ := (origins_select p h).1.exists_compiler
  obtain rfl := Except.ok.inj (hplan'.symm.trans hplan)
  have hsound := hreads.sound
  refine ⟨plan, rfl, ⟨hreads.aliases, hreads.aliases ▸ hsound.nodup_aliases, hreads.source, ?_,
    hreads.aliases ▸ hreads.projections, fun t ht table column hoccurs => ?_, fun t ht => ?_,
    fun hpath ht => ?_⟩⟩
  · rw [hreads.source, hreads.joins]
    exact hsound.inScope_joins
  · rw [hreads.aliases]
    exact (horigins t ht).aliased rfl hreads.nodes hsound hoccurs
  · have hkeyed := (horigins t ht).keyed
    rwa [rootAlias?_eq_some rfl hreads.nodes] at hkeyed
  · obtain ⟨_, n, f, ⟨⟩, hfound, hfield, rfl⟩ := Compiler.rowMember_of_path hpath ht
    have hn := Compiler.mem_nodes_of_find? hfound
    have hf := Entity.mem_of_property? hfield
    exact ⟨n, hn, hfound, f, hf, rfl, columnOf_node hsound hn hf⟩

-- The tagged posts of an author, behind one reference and one junction table.

def taggedPosts : Plan where
  clauses :=
    { root := Catalogue.postEntity, includes := ["Author", "Tags"]
      orders := [⟨.member 7 (.parameter 6 ⟨"p", Catalogue.post, false⟩) "Id", true⟩] }
  conditions :=
    [.predicate (.binary 5 .equal
      (.member 2 (.member 1 (.parameter 0 ⟨"p", Catalogue.post, false⟩) "Author") "Name")
      (.constant 4 (.string "Ann")))]

theorem closes_aliases_taggedPosts :
    ∃ q plan after, Yields (select readServices readEnvironment {} taggedPosts) {} (q, some plan) after ∧
      q.parts.aliases = [Text.ofString "t0", "t1", "jt_t2", "t2"] ∧
      q.AliasedBy (readServices.compiler readEnvironment Catalogue.postEntity (some plan)) plan := by
  obtain ⟨q, plan, after, h, haliases⟩ : ∃ q plan after,
      Yields (select readServices readEnvironment {} taggedPosts) {} (q, some plan) after ∧
      q.parts.aliases = [Text.ofString "t0", "t1", "jt_t2", "t2"] := ⟨_, _, _, rfl, by decide⟩
  obtain ⟨_, ⟨⟩, haliased⟩ := closes_aliases (by decide) rfl h
  exact ⟨q, plan, after, h, haliases, haliased⟩

end EntitySql.Query
