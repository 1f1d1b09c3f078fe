import EntitySql.Proofs.Query.Moving
import EntitySql.Proofs.Sql.Caching
import EntitySql.Query.Grouping

-- A cache of accessors is transparent. Operations that share one, whatever it
-- holds on to and whatever the captured variables are by then, return what
-- they return without a cache.

namespace EntitySql.Query

open Sql (Term Compiler AccessorCache)
open Sql.Compiler (Step State Naming Honest Transparent SameBindings)

variable {names : Naming}

-- Clauses.

namespace Clauses

variable {c : Compiler} {clauses : Clauses} {v : Variant} {columns : List Term}

theorem transparent_aggregate {a : Text × Option Expr} (ha : ∀ e ∈ a.2, Named names e) :
    Transparent names c.registry (aggregate c columns a) := by
  unfold aggregate
  split
  · exact .throw _
  · next e he =>
    refine .bind (.lift _) fun _ => .bind (Compiler.transparent_having c ?_ _) fun t => .pure _
    rintro x ⟨⟩
    exact ha e he

theorem transparent_keyProjections (hv : ∀ a ∈ v.aggregates, ∀ e ∈ a.2, Named names e) :
    Transparent names c.registry (keyProjections c v columns) := by
  refine .ite (fun _ => .throw_bind _ _) fun _ => ?_
  exact .bind (.mapM fun a ha => transparent_aggregate (hv a ha)) fun aggregates => .pure _

theorem transparent_compiled {e : Expr} (he : Named names e) :
    Transparent names c.registry (c.expression (some e)) := by
  refine Compiler.transparent_expression c ?_
  rintro x ⟨⟩
  exact he

theorem transparent_side {e : Side Expr} (he : ∀ x ∈ e.expressions, Named names x) :
    Transparent names c.registry (side c e) := by
  cases e with
  | raw sql => exact .pure _
  | of e => exact .bind (transparent_compiled (he e (by simp [Side.expressions]))) fun t => .pure _

theorem transparent_case {e : Case Expr} (he : ∀ x ∈ e.expressions, Named names x) :
    Transparent names c.registry (case c e) := by
  simp only [Case.expressions, List.mem_append (t := e.otherwise.toList), Option.mem_toList, or_imp,
    forall_and] at he
  obtain ⟨hbranches, hotherwise⟩ := he
  have hbranch : ∀ b ∈ e.branches, Transparent names c.registry (branch c b) := by
    intro b hb
    have hsides : ∀ x ∈ b.1.expressions ++ b.2.expressions, Named names x :=
      fun x hx => hbranches x (List.mem_flatMap.mpr ⟨b, hb, hx⟩)
    simp only [List.mem_append, or_imp, forall_and] at hsides
    exact .bind (transparent_side hsides.1) fun condition =>
      .bind (transparent_side hsides.2) fun result => .pure _
  unfold case
  refine .bind (.mapM hbranch) fun branches => ?_
  refine .bind (.option fun x hx => transparent_compiled (hotherwise x hx)) fun otherwise => ?_
  exact .ite (fun _ => .bind (.lift _) fun _ => .pure _) fun _ => .pure _

theorem transparent_rowProjections
    (hcases : ∀ e ∈ clauses.cases, ∀ x ∈ e.expressions, Named names x) :
    Transparent names c.registry (clauses.rowProjections c v) := by
  refine .ite (fun _ => .throw_bind _ _) fun _ => .bind (.lift _) fun columns => ?_
  refine .bind (.mapM fun w _ => .bind (.lift _) fun t => .pure _) fun windows => ?_
  exact .bind (.mapM fun e he => transparent_case (hcases e he)) fun cases => .pure _

theorem transparent_projections
    (hcases : ∀ e ∈ clauses.cases, ∀ x ∈ e.expressions, Named names x)
    (hv : ∀ a ∈ v.aggregates, ∀ e ∈ a.2, Named names e) :
    Transparent names c.registry (clauses.projections c v columns) :=
  .ite (fun _ => transparent_keyProjections hv) fun _ => transparent_rowProjections hcases

theorem transparent_havingTerms (h : ∀ e ∈ clauses.having, Named names e) :
    Transparent names c.registry (clauses.havingTerms c v columns) := by
  refine .ite (fun _ => .pure _) fun _ => .ite (fun _ => .throw_bind _ _) fun _ => ?_
  refine .mapM fun e he => Compiler.transparent_having c ?_ _
  rintro x ⟨⟩
  exact h e he

theorem transparent_orderTerms (h : ∀ o ∈ clauses.orders, Named names o.selector) :
    Transparent names c.registry (clauses.orderTerms c v) :=
  .ite (fun _ => .pure _) fun _ =>
    .mapM fun o ho => .bind (transparent_compiled (h o ho)) fun _ => .pure _

end Clauses

theorem transparent_fillSlots (c : Compiler) (sql : Text) (values : List Value) :
    Transparent names c.registry (fillSlots c sql values) := by
  refine .mapM fun token _ => ?_
  cases token with
  | byte b => exact .pure _
  | slot digits =>
    exact .bind (.lift _) fun v => .bind (Compiler.transparent_constant c v) fun t => .pure _

-- Statements.

variable {s : Services} {env : Environment}

mutual

-- By the recursion of the plans in filters and set operations.
theorem transparent_select {v : Variant} (hv : ∀ a ∈ v.aggregates, ∀ e ∈ a.2, Named names e)
    (p : Plan) (hp : p.Named names) : Transparent names s.registry (select s env v p) := by
  cases p with
  | mk clauses conditions operations =>
    simp only [Plan.Named, Plan.nested, List.forall_mem_cons, List.mem_append, or_imp,
      forall_and] at hp
    obtain ⟨hown, hconditions, hoperations⟩ := hp
    rw [select]
    refine .ite (fun _ => .throw_bind _ _) fun _ => .bind (.lift _) fun includes => ?_
    have hcompiler : (s.compiler env clauses.root includes).registry = s.registry := rfl
    rw [← hcompiler]
    refine .bind (.lift _) fun columns => ?_
    refine .bind (Clauses.transparent_projections hown.cases hv) fun projections => ?_
    refine .bind (.lift _) fun source => .bind (.lift _) fun joins => ?_
    refine .bind (transparent_filters rfl conditions hown.conditions hconditions) fun filters => ?_
    refine .bind (Clauses.transparent_havingTerms hown.having) fun having => ?_
    refine .bind (Clauses.transparent_orderTerms hown.orders) fun orders => ?_
    refine .ite (fun _ => .bind (.pure _) fun combined => ?_) fun _ =>
      .bind (transparent_operands operations hoperations) fun combined => ?_
    all_goals exact .bind (.lift _) fun _ => .pure _
termination_by sizeOf p

theorem transparent_filter {c : Compiler} (hc : c.registry = s.registry) {clauses : Clauses}
    (condition : Condition Plan) (hown : ∀ e ∈ condition.expressions, Named names e)
    (hnested : ∀ q ∈ Plan.nestedInCondition condition, q.NamesOwn names) :
    Transparent names s.registry (filter s env clauses c condition) := by
  cases condition with
  | predicate e =>
    rw [filter, ← hc]
    exact .bind (Clauses.transparent_compiled (hown e (by simp [Condition.expressions]))) fun t =>
      .pure _
  | raw sql values =>
    rw [filter, ← hc]
    exact .bind (transparent_fillSlots c sql values) fun pieces => .pure _
  | inValues column values negated =>
    rw [filter, ← hc]
    refine .bind (.lift _) fun t => .ite (fun _ => .pure _) fun _ => ?_
    exact .bind (.mapM fun v _ => Compiler.transparent_constant c v) fun items => .pure _
  | inQuery column query negated =>
    rw [filter]
    exact .bind (.lift _) fun t =>
      .bind (transparent_select (by simp) query hnested) fun r => .pure _
  | inRaw column sql negated =>
    rw [filter]
    exact .bind (.lift _) fun t => .pure _
  | «exists» query negated =>
    rw [filter]
    exact .bind (transparent_select (by simp) query hnested) fun r => .pure _
termination_by sizeOf condition

theorem transparent_filters {c : Compiler} (hc : c.registry = s.registry) {clauses : Clauses}
    (conditions : List (Condition Plan))
    (hown : ∀ d ∈ conditions, ∀ e ∈ d.expressions, Named names e)
    (hnested : ∀ q ∈ Plan.nestedInConditions conditions, q.NamesOwn names) :
    Transparent names s.registry (filters s env clauses c conditions) := by
  cases conditions with
  | nil =>
    rw [filters]
    exact .pure _
  | cons condition rest =>
    rw [filters]
    simp only [Plan.nestedInConditions, List.mem_append, or_imp, forall_and] at hnested
    obtain ⟨hfirst, hothers⟩ := List.forall_mem_cons.mp hown
    refine .bind (transparent_filter hc condition hfirst hnested.1) fun first => ?_
    exact .bind (transparent_filters hc rest hothers hnested.2) fun others => .pure _
termination_by sizeOf conditions

theorem transparent_operand (operand : Operand Plan)
    (hnested : ∀ q ∈ Plan.nestedInOperand operand, q.NamesOwn names) :
    Transparent names s.registry (Query.operand s env operand) := by
  cases operand with
  | query q =>
    rw [Query.operand]
    exact .bind (transparent_select (by simp) q hnested) fun r => .pure _
  | raw sql =>
    rw [Query.operand]
    exact .pure _
termination_by sizeOf operand

theorem transparent_operands (operations : List (SetOperation Plan))
    (hnested : ∀ q ∈ Plan.nestedInOperations operations, q.NamesOwn names) :
    Transparent names s.registry (operands s env operations) := by
  match operations, hnested with
  | [], _ =>
    rw [operands]
    exact .pure _
  | ⟨operator, q⟩ :: rest, hnested =>
    rw [operands]
    simp only [Plan.nestedInOperations, List.mem_append, or_imp, forall_and] at hnested
    refine .bind (transparent_operand q hnested.1) fun first => ?_
    exact .bind (transparent_operands rest hnested.2) fun others => .pure _
termination_by sizeOf operations

end

-- What is asked of a whole plan.

variable {p : Plan}

theorem transparent_conditions (hp : p.Named names) {c : Compiler} (hc : c.registry = s.registry) :
    Transparent names s.registry (filters s env p.clauses c p.conditions) := by
  cases p with
  | mk clauses conditions operations =>
    simp only [Plan.Named, Plan.nested, List.forall_mem_cons, List.mem_append, or_imp,
      forall_and] at hp
    exact transparent_filters hc conditions hp.1.conditions hp.2.1

theorem transparent_update (hp : p.Named names) {assignments : Option Expr}
    (h : ∀ e ∈ assignments, Named names e) :
    Transparent names s.registry (p.update s env assignments) := by
  refine .bind (Compiler.transparent_update (p.plainCompiler s env) h) fun assignments => ?_
  exact .bind (.lift _) fun _ => .bind (transparent_conditions hp rfl) fun filters => .pure _

theorem transparent_measure {c : Compiler} {m : Measure (Option Expr)}
    (h : ∀ f selector, m = .aggregate f (some selector) → Named names selector) :
    Transparent names c.registry (Plan.measure c m) := by
  unfold Plan.measure
  split
  · exact .pure _
  · exact .pure _
  · exact .throw _
  · next f selector =>
    have hbody : Named names selector.body :=
      fun n hn => h f selector rfl n (Expr.mem_nodes_of_body hn)
    exact .bind (Clauses.transparent_compiled hbody) fun t => .pure _

theorem transparent_scalar (hp : p.Named names) {m : Measure (Option Expr)}
    (hm : ∀ f selector, m = .aggregate f (some selector) → Named names selector)
    {predicate : Option Expr} (h : ∀ e ∈ predicate, Named names e) :
    Transparent names s.registry (p.scalar s env m predicate) := by
  refine .bind (transparent_measure (c := p.plainCompiler s env) hm) fun m => ?_
  refine .bind (.lift _) fun source => .bind (transparent_conditions hp rfl) fun filters => ?_
  cases predicate with
  | none => exact .bind (.pure _) fun extra => .pure _
  | some e =>
    have hbody : Named names e.body := fun n hn => h e rfl n (Expr.mem_nodes_of_body hn)
    have hterm := Clauses.transparent_compiled (c := p.plainCompiler s env) hbody
    exact .bind hterm fun t => .bind (.pure _) fun extra => .pure _

-- Sessions.

-- The sessions that differ in their honest caches only.
structure Session.SameButCache (names : Naming) (registry : Registry) (s s' : Session) :
    Prop where
  connection : s.connection = s'.connection
  log : s.log = s'.log
  store : s.store = s'.store
  honest : Honest names registry s.cache
  honest' : Honest names registry s'.cache

abbrev Unseen {α : Type} (names : Naming) (registry : Registry) (x : Action α) : Prop :=
  Blind (Session.SameButCache names registry) x

namespace Session

variable {registry : Registry}

theorem unseen_compile {α : Type} {x : Step α} (hx : Transparent names registry x) :
    Unseen names registry (compile x) := by
  intro t t' h
  obtain ⟨hresult, hbindings, hhonest, hhonest'⟩ :=
    hx { cache := t.cache } { cache := t'.cache } ⟨rfl, h.honest, h.honest'⟩
  have hrun (t : Session) : ((compile x).run.run t).run =
      ((x.run.run { cache := t.cache }).run.1.map
        fun a => (a, (x.run.run { cache := t.cache }).run.2.bindings),
        { t with cache := (x.run.run { cache := t.cache }).run.2.cache }) := by
    have hget (f : Session → Action (α × List Sql.Binding)) :
        ((get >>= f).run.run t).run = ((f t).run.run t).run := rfl
    cases hx : x.run { cache := t.cache } with
    | mk result state =>
      have hstate : (x.run.run { cache := t.cache }).run = (result, state) := hx
      rw [compile, hget, hx, hstate]
      cases result <;> rfl
  rw [hrun, hrun, hresult, hbindings]
  exact ⟨rfl, h.connection, h.log, h.store, hhonest, hhonest'⟩

variable {s : Services} {env : Environment} {p : Plan}

theorem unseen_rows {v : Variant} (hv : ∀ a ∈ v.aggregates, ∀ e ∈ a.2, Query.Named names e)
    (hp : p.Named names) : Unseen names s.registry (rows s env v p) :=
  .bind (unseen_compile (transparent_select hv p hp)) fun _ => .pure _

theorem unseen_update (hp : p.Named names) {assignments : Option Expr}
    (h : ∀ e ∈ assignments, Query.Named names e) :
    Unseen names s.registry (update s env p assignments) :=
  .bind (unseen_compile (transparent_update hp h)) fun _ => .pure _

theorem unseen_measure (hp : p.Named names) {m : Measure (Option Expr)}
    (hm : ∀ f selector, m = .aggregate f (some selector) → Query.Named names selector)
    {predicate : Option Expr} (h : ∀ e ∈ predicate, Query.Named names e) :
    Unseen names s.registry (measure s env p m predicate) :=
  .bind (unseen_compile (transparent_scalar hp hm h)) fun _ => .pure _

-- The keys are read by accessors of rows, which are kept beside those of
-- values.
theorem unseen_groupInMemory (hp : p.Named names) (items : List InstanceId) :
    Unseen names s.registry (groupInMemory s env p items) := by
  have hkeys : ∀ key ∈ p.clauses.groupKeys, names key.id = some key := by
    intro key hkey
    have hself : p ∈ p.nested := by
      cases p
      exact List.mem_cons_self ..
    exact (hp p hself).groupKeys key hkey key (Expr.mem_nodes_self key)
  refine .bind (.mapM fun key hkey => ?_) fun selectors => ?_
  · have haccessor := Compiler.transparent_accessor (c := p.plainCompiler s env) (hkeys key hkey)
    exact .bind (unseen_compile haccessor) fun _ => .pure _
  · intro t t' h
    obtain ⟨connection, log, cache, store⟩ := t
    obtain ⟨connection', log', cache', store'⟩ := t'
    obtain ⟨rfl, rfl, rfl, hhonest, hhonest'⟩ := h
    exact Blind.lift (items.foldlM (groupItem env selectors store) []) _ _
      ⟨rfl, rfl, rfl, hhonest, hhonest'⟩

end Session

end EntitySql.Query
