import EntitySql.Proofs.Query.Caching
import EntitySql.Schema.Catalogue

-- Operations one after the other, with one cache of accessors between them.
-- Without a cache every operation stands for itself, so what they return with
-- one depends neither on what came before nor on its capacity.

namespace EntitySql

namespace Query

open Sql (Term Compiler AccessorCache)
open Sql.Compiler (Step State Naming Honest Transparent SameBindings)

-- What uses the cache, and what changes it. The captured variables and the
-- time are those of the operation.
inductive Operation where
  | compile (c : Compiler) (bindings : List Sql.Binding) (e : Option Expr)
  | compileUpdate (c : Compiler) (bindings : List Sql.Binding) (e : Option Expr)
  | compileHaving (c : Compiler) (bindings : List Sql.Binding) (e : Option Expr)
      (columns : List Text)
  | render (s : Services) (env : Environment) (v : Variant) (p : Plan)
  | renderUpdate (s : Services) (env : Environment) (p : Plan) (assignments : Option Expr)
  | renderScalar (s : Services) (env : Environment) (p : Plan) (m : Measure (Option Expr))
      (predicate : Option Expr)
  | groupInMemory (s : Services) (env : Environment) (p : Plan) (store : Store)
      (items : List InstanceId)
  | setCapacity (capacity : Nat)
  | clear

-- Bindings are kept by a compilation that fails.
inductive Outcome where
  | compiled (sql : Result Text) (bindings : List Sql.Binding)
  | rendered (statement : Result Rendered)
  | grouped (groups : Result (List Group))
  | changed

namespace Operation

def ofStep (x : Step Text) (bindings : List Sql.Binding) (cache : Option AccessorCache) :
    Outcome × Option AccessorCache :=
  let (sql, state) := x.run { bindings, cache }
  (.compiled sql state.bindings, state.cache)

def ofAction {α : Type} (outcome : Result α → Outcome) (x : Action α) (store : Store)
    (cache : Option AccessorCache) : Outcome × Option AccessorCache :=
  let (result, session) := x.run { cache, store }
  (outcome result, session.cache)

def run (cache : Option AccessorCache) : Operation → Outcome × Option AccessorCache
  | .compile c bindings e => ofStep (Term.text <$> c.expression e) bindings cache
  | .compileUpdate c bindings e =>
    ofStep (Compiler.assignmentsText <$> c.update e) bindings cache
  | .compileHaving c bindings e columns => ofStep (Term.text <$> c.having e columns) bindings cache
  | .render s env v p => ofAction .rendered (Session.rows s env v p) {} cache
  | .renderUpdate s env p assignments =>
    ofAction .rendered (Session.update s env p assignments) {} cache
  | .renderScalar s env p m predicate =>
    ofAction .rendered (Session.measure s env p m predicate) {} cache
  | .groupInMemory s env p store items =>
    ofAction .grouped (Session.groupInMemory s env p items) store cache
  | .setCapacity capacity => (.changed, cache.map (·.setCapacity capacity))
  | .clear => (.changed, cache.map LruCache.clear)

def outcomes (cache : Option AccessorCache) : List Operation → List Outcome
  | [] => []
  | o :: rest => (o.run cache).1 :: outcomes (o.run cache).2 rest

def registry? : Operation → Option Registry
  | .compile c _ _ => some c.registry
  | .compileUpdate c _ _ => some c.registry
  | .compileHaving c _ _ _ => some c.registry
  | .render s _ _ _ => some s.registry
  | .renderUpdate s _ _ _ => some s.registry
  | .renderScalar s _ _ _ _ => some s.registry
  | .groupInMemory s _ _ _ _ => some s.registry
  | .setCapacity _ => none
  | .clear => none

end Operation

def Measure.expressions : Measure (Option Expr) → List Expr
  | .aggregate _ selector => selector.toList
  | _ => []

namespace Operation

def expressions : Operation → List Expr
  | .compile _ _ e => e.toList
  | .compileUpdate _ _ e => e.toList
  | .compileHaving _ _ e _ => e.toList
  | .render _ _ v p => v.expressions ++ p.expressions
  | .renderUpdate _ _ p assignments => assignments.toList ++ p.expressions
  | .renderScalar _ _ p m predicate => m.expressions ++ predicate.toList ++ p.expressions
  | .groupInMemory _ _ p _ _ => p.expressions
  | .setCapacity _ => []
  | .clear => []

def nodes (operations : List Operation) : List Expr :=
  (operations.flatMap expressions).flatMap Expr.nodes

end Operation

-- An identity stands for one node, which may stand in several places.
def Distinct (nodes : List Expr) : Prop := ∀ a ∈ nodes, ∀ b ∈ nodes, a.id = b.id → a = b

def namesOf (nodes : List Expr) : Naming := fun id => nodes.find? (·.id = id)

variable {names : Naming} {registry : Registry} {cache cache' : Option AccessorCache}

theorem Distinct.namesOf_eq {nodes : List Expr} (h : Distinct nodes) {e : Expr} (he : e ∈ nodes) :
    namesOf nodes e.id = some e := by
  unfold namesOf
  cases hfound : nodes.find? (·.id = e.id) with
  | none =>
    have hnone := List.find?_eq_none.mp hfound e he
    simp at hnone
  | some a =>
    have hid : a.id = e.id := by simpa using List.find?_some hfound
    rw [h a (List.mem_of_find?_eq_some hfound) e he hid]

theorem distinct_of_names (names : Naming) {nodes : List Expr} (h : ∀ n ∈ nodes, names n.id = some n) :
    Distinct nodes := by
  intro a ha b hb hid
  have hnames := h a ha
  rw [hid, h b hb] at hnames
  exact (Option.some.inj hnames).symm

-- Forgetting entries leaves a cache honest.

theorem honest_clear (cache : Option AccessorCache) :
    Honest names registry (cache.map LruCache.clear) := by
  cases cache with
  | none => exact Sql.Compiler.honest_none names registry
  | some cache =>
    rintro found ⟨⟩ entry hentry
    cases hentry

theorem honest_setCapacity (h : Honest names registry cache) (capacity : Nat) :
    Honest names registry (cache.map (·.setCapacity capacity)) := by
  cases cache with
  | none => exact Sql.Compiler.honest_none names registry
  | some cache =>
    rintro found ⟨⟩ entry hentry
    exact h cache rfl entry (LruCache.entries_setCapacity_subset cache capacity hentry)

theorem honest_new (capacity : Nat) : Honest names registry (some (LruCache.new capacity)) := by
  rintro found ⟨⟩ entry hentry
  cases hentry

namespace Operation

theorem ofStep_eq {x : Step Text} (hx : Transparent names registry x)
    (bindings : List Sql.Binding) (h : Honest names registry cache)
    (h' : Honest names registry cache') :
    (ofStep x bindings cache).1 = (ofStep x bindings cache').1 ∧
      Honest names registry (ofStep x bindings cache).2 ∧
      Honest names registry (ofStep x bindings cache').2 := by
  obtain ⟨hsql, hbindings, hhonest, hhonest'⟩ :=
    hx { bindings, cache } { bindings, cache := cache' } ⟨rfl, h, h'⟩
  exact ⟨congrArg₂ Outcome.compiled hsql hbindings, hhonest, hhonest'⟩

theorem ofAction_eq {α : Type} {x : Action α} (hx : Unseen names registry x)
    (outcome : Result α → Outcome) (store : Store) (h : Honest names registry cache)
    (h' : Honest names registry cache') :
    (ofAction outcome x store cache).1 = (ofAction outcome x store cache').1 ∧
      Honest names registry (ofAction outcome x store cache).2 ∧
      Honest names registry (ofAction outcome x store cache').2 := by
  obtain ⟨hresult, -, -, -, hhonest, hhonest'⟩ :=
    hx { cache, store } { cache := cache', store } ⟨rfl, rfl, rfl, h, h'⟩
  exact ⟨congrArg outcome hresult, hhonest, hhonest'⟩

-- One operation, from any two honest caches.
theorem run_eq {o : Operation} (hregistry : ∀ r ∈ o.registry?, r = registry)
    (hnamed : ∀ e ∈ o.expressions, Named names e) (h : Honest names registry cache)
    (h' : Honest names registry cache') :
    (o.run cache).1 = (o.run cache').1 ∧ Honest names registry (o.run cache).2 ∧
      Honest names registry (o.run cache').2 := by
  cases o with
  | compile c bindings e =>
    obtain rfl := hregistry _ rfl
    have he := Compiler.transparent_expression c fun x hx => hnamed x (Option.mem_toList.mpr hx)
    exact ofStep_eq (.map he) bindings h h'
  | compileUpdate c bindings e =>
    obtain rfl := hregistry _ rfl
    have he := Compiler.transparent_update c fun x hx => hnamed x (Option.mem_toList.mpr hx)
    exact ofStep_eq (.map he) bindings h h'
  | compileHaving c bindings e columns =>
    obtain rfl := hregistry _ rfl
    have he := Compiler.transparent_having c (fun x hx => hnamed x (Option.mem_toList.mpr hx))
      columns
    exact ofStep_eq (.map he) bindings h h'
  | render s env v p =>
    obtain rfl := hregistry _ rfl
    simp only [expressions, List.mem_append, or_imp, forall_and] at hnamed
    have hv : ∀ a ∈ v.aggregates, ∀ e ∈ a.2, Named names e := fun a ha e he =>
      hnamed.1 e (List.mem_flatMap.mpr ⟨a, ha, Option.mem_toList.mpr he⟩)
    exact ofAction_eq (Session.unseen_rows hv (named_of_expressions hnamed.2)) _ _ h h'
  | renderUpdate s env p assignments =>
    obtain rfl := hregistry _ rfl
    simp only [expressions, List.mem_append, or_imp, forall_and] at hnamed
    refine ofAction_eq (Session.unseen_update (named_of_expressions hnamed.2) ?_) _ _ h h'
    exact fun e he => hnamed.1 e (Option.mem_toList.mpr he)
  | renderScalar s env p m predicate =>
    obtain rfl := hregistry _ rfl
    simp only [expressions, List.mem_append, or_imp, forall_and] at hnamed
    refine ofAction_eq (Session.unseen_measure (named_of_expressions hnamed.2) ?_ ?_) _ _ h h'
    · rintro f selector rfl
      exact hnamed.1.1 selector (List.mem_singleton_self selector)
    · exact fun e he => hnamed.1.2 e (Option.mem_toList.mpr he)
  | groupInMemory s env p store items =>
    obtain rfl := hregistry _ rfl
    exact ofAction_eq (Session.unseen_groupInMemory (named_of_expressions hnamed) items) _ _ h h'
  | setCapacity capacity => exact ⟨rfl, honest_setCapacity h capacity, honest_setCapacity h' capacity⟩
  | clear => exact ⟨rfl, honest_clear cache, honest_clear cache'⟩

-- By induction on the operations: the caches stay honest, whatever they hold.
theorem outcomes_eq {operations : List Operation}
    (hregistry : ∀ o ∈ operations, ∀ r ∈ o.registry?, r = registry)
    (hnamed : ∀ o ∈ operations, ∀ e ∈ o.expressions, Named names e)
    (h : Honest names registry cache) (h' : Honest names registry cache') :
    outcomes cache operations = outcomes cache' operations := by
  induction operations generalizing cache cache' with
  | nil => rfl
  | cons o rest ih =>
    obtain ⟨hregistry, hregistries⟩ := List.forall_mem_cons.mp hregistry
    obtain ⟨hfirst, hothers⟩ := List.forall_mem_cons.mp hnamed
    obtain ⟨houtcome, hcache, hcache'⟩ := run_eq hregistry hfirst h h'
    rw [outcomes, outcomes, houtcome, ih hregistries hothers hcache hcache']

end Operation

-- Every operation returns what it returns without a cache.
theorem transparent_cache {registry : Registry} {operations : List Operation}
    (hregistry : ∀ o ∈ operations, ∀ r ∈ o.registry?, r = registry)
    (hdistinct : Distinct (Operation.nodes operations)) (capacity : Nat) :
    Operation.outcomes (some (LruCache.new capacity)) operations =
      Operation.outcomes none operations := by
  have hnamed : ∀ o ∈ operations, ∀ e ∈ o.expressions,
      Named (namesOf (Operation.nodes operations)) e := by
    intro o ho e he n hn
    exact hdistinct.namesOf_eq
      (List.mem_flatMap.mpr ⟨e, List.mem_flatMap.mpr ⟨o, ho, he⟩, hn⟩)
  exact Operation.outcomes_eq hregistry hnamed (honest_new capacity)
    (Sql.Compiler.honest_none _ _)

-- Posts that have been read more often than a captured number, compiled twice,
-- grouped, and rendered, while the number changes. The cache holds one accessor
-- at first.

def readOften : Expr :=
  .binary 3 (.compare .greater) (.member 1 (.parameter 0 ⟨"p", Catalogue.post, false⟩) "Views")
    (.captured 2 "limit" 0)

def postsReadOften : Plan where
  clauses :=
    { root := Catalogue.postEntity
      groupKeys := [.member 1 (.parameter 0 ⟨"p", Catalogue.post, false⟩) "Views"] }
  conditions := [.predicate readOften]

def capturing (n : Value) : Environment where
  now := 0
  captures _ := n
  hashes := HashFunctions.plain

def postServices : Services := { registry := Catalogue.registry }

def viewedPosts : Store :=
  ⟨[⟨Catalogue.post, [("Views", .int 3)], []⟩, ⟨Catalogue.post, [("Views", .int 5)], []⟩,
    ⟨Catalogue.post, [("Views", .int 3)], []⟩]⟩

def readings : List Operation :=
  [.compile (postsReadOften.plainCompiler postServices (capturing (.int 1))) [] (some readOften),
    .compile (postsReadOften.plainCompiler postServices (capturing (.int 2))) [] (some readOften),
    .setCapacity 8,
    .groupInMemory postServices (capturing (.int 2)) postsReadOften viewedPosts [0, 1, 2],
    .compile (postsReadOften.plainCompiler postServices (capturing .null)) []
      (some (.captured 2 "limit" 0)),
    .clear,
    .render postServices (capturing (.int 4)) { omitGroups := true } postsReadOften]

def readingNames : Naming
  | 0 => some (.parameter 0 ⟨"p", Catalogue.post, false⟩)
  | 1 => some (.member 1 (.parameter 0 ⟨"p", Catalogue.post, false⟩) "Views")
  | 2 => some (.captured 2 "limit" 0)
  | _ => some readOften

theorem transparent_cache_readings :
    Distinct (Operation.nodes readings) ∧
      Operation.outcomes (some (LruCache.new 1)) readings = Operation.outcomes none readings ∧
      Operation.outcomes none readings =
        [.compiled (.ok "(\"views\" > 1)") [], .compiled (.ok "(\"views\" > 2)") [], .changed,
          .grouped (.ok [⟨.int 3, [0, 2]⟩, ⟨.int 5, [1]⟩]), .compiled (.ok "NULL") [], .changed,
          .rendered
            (.ok ⟨"SELECT \"posts\".* FROM \"posts\" WHERE (\"views\" > 4)", [], none⟩)] := by
  have hdistinct : Distinct (Operation.nodes readings) := by
    refine distinct_of_names readingNames ?_
    simp [Operation.nodes, readings, Operation.expressions, Plan.expressions, Plan.ownExpressions,
      Plan.nested, Plan.nestedInConditions, Plan.nestedInCondition, Plan.nestedInOperations,
      postsReadOften, readOften, Condition.expressions, Variant.expressions, Expr.nodes, Expr.id,
      readingNames]
  have hregistry : ∀ o ∈ readings, ∀ r ∈ o.registry?, r = Catalogue.registry := by
    simp [readings, Operation.registry?, Plan.plainCompiler, Services.compiler, postServices]
  refine ⟨hdistinct, transparent_cache hregistry hdistinct 1, ?_⟩
  rfl

end Query

end EntitySql
