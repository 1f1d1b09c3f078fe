import EntitySql.Proofs.Include.Sound
import EntitySql.Proofs.Query.Database
import EntitySql.Schema.Catalogue

-- The two statements of a grouped query with a HAVING predicate: one for the
-- keys of the groups that qualify, one for the rows of all groups. Both read
-- the same rows, as long as the second one returns all that it reads.

namespace EntitySql

-- No property name holds a dot, and no navigation is named like a field, not even in
-- another case of letters: the path of an include is never that of a field.
structure Registry.Apart (r : Registry) : Prop where
  undotted : ∀ e ∈ r.entities, ∀ f ∈ e.fields, Byte.dot ∉ Text.lower f.property
  navigations : ∀ e ∈ r.entities, ∀ n ∈ e.navigations, ∀ e' ∈ r.entities, ∀ f ∈ e'.fields,
    Text.sameFolded n.property f.property = false

theorem Include.Plan.path_apart {registry : Registry} (h : registry.Apart) {maxDepth : Int}
    {root : Entity} (hroot : root ∈ registry.entities) {paths : List Text} {plan : Include.Plan}
    (hplan : Include.Plan.ofPaths registry maxDepth root paths = .ok plan) :
    ∀ e ∈ registry.entities, ∀ f ∈ e.fields, ∀ n ∈ plan.nodes,
      Text.sameFolded n.path f.property = false := by
  intro e he f hf n hn
  obtain ⟨hsound, hplanRoot⟩ := Include.Plan.sound_ofPaths hplan
  rcases Include.Plan.path_of_ofPaths hplan n hn with hpath | hdot
  · rw [hpath]
    exact h.navigations _ (hsound.source_mem (hplanRoot ▸ hroot) hn) _ (hsound.navigation_mem hn)
      e he f hf
  · have hlower : Byte.dot ∈ Text.lower n.path := List.mem_map.mpr ⟨Byte.dot, hdot, rfl⟩
    rw [Text.sameFolded, beq_eq_false_iff_ne]
    intro heq
    exact h.undotted e he f hf (heq ▸ hlower)

namespace Query

open Sql (Term Compiler)
open Sql.Compiler (Step State Naming Honest Follows Shifted Beside)

-- What can be done behind no placeholders keeps all that has been bound, and
-- the cache honest.
theorem Behind.keeps {names : Naming} {registry : Registry} {α : Type} {R : Nat → α → α → Prop}
    {x : Step α} (h : Behind names registry 0 (fun _ => True) R x x) {before after : State} {a : α}
    (hbefore : Honest names registry before.cache) (hx : Yields x before a after) :
    Honest names registry after.cache ∧ before.bindings <+: after.bindings := by
  have hstart : Shifted names registry 0 before before := ⟨Nat.zero_le _, rfl, hbefore, hbefore⟩
  obtain ⟨b, after', hx', hshifted, hgrow, -⟩ :=
    h before before a after hstart (fun _ _ => trivial) hx
  obtain ⟨-, rfl⟩ := hx.unique hx'
  exact ⟨hshifted.honest, hgrow⟩

variable {s : Services} {env : Environment} {clauses : Clauses}
variable {conditions : List (Condition Plan)} {operations : List (SetOperation Plan)}
variable {before after : State} {q : Select} {includes : Option Include.Plan}

-- The clauses of a SELECT are made one after the other.
theorem clauses_of_yields {v : Variant}
    (h : Yields (select s env v ⟨clauses, conditions, operations⟩) before (q, includes) after) :
    ∃ columns projections first source joins filters second having third orders fourth combined,
      clauses.includePlan s v = .ok includes ∧
      clauses.groupColumns (s.compiler env clauses.root includes) = .ok columns ∧
      Yields (clauses.projections (s.compiler env clauses.root includes) v columns) before
        projections first ∧
      clauses.source (s.compiler env clauses.root includes).rootAlias? = .ok source ∧
      Clauses.joins (s.compiler env clauses.root includes) = .ok joins ∧
      Yields (Query.filters s env clauses (s.compiler env clauses.root includes) conditions) first
        filters second ∧
      Yields (clauses.havingTerms (s.compiler env clauses.root includes) v columns) second having
        third ∧
      Yields (clauses.orderTerms (s.compiler env clauses.root includes) v) third orders fourth ∧
      Yields (if v.keysOnly then pure [] else operands s env operations) fourth combined after ∧
      q = ⟨statementParts v clauses projections source joins columns having orders, filters,
        combined⟩ := by
  rw [select] at h
  obtain ⟨-, h⟩ := Yields.guard_iff.mp h
  obtain ⟨includes, hincludes, h⟩ := Yields.lift_bind_iff.mp h
  obtain ⟨columns, hcolumns, h⟩ := Yields.lift_bind_iff.mp h
  obtain ⟨projections, first, hprojections, h⟩ := Yields.bind_iff.mp h
  obtain ⟨source, hsource, h⟩ := Yields.lift_bind_iff.mp h
  obtain ⟨joins, hjoins, h⟩ := Yields.lift_bind_iff.mp h
  obtain ⟨filters, second, hfilters, h⟩ := Yields.bind_iff.mp h
  obtain ⟨having, third, hhaving, h⟩ := Yields.bind_iff.mp h
  obtain ⟨orders, fourth, horders, h⟩ := Yields.bind_iff.mp h
  obtain ⟨hkeys, h⟩ | ⟨hkeys, h⟩ := Yields.ite_iff.mp h
  all_goals
    obtain ⟨combined, fifth, hcombined, h⟩ := Yields.bind_iff.mp h
    obtain ⟨_, -, h⟩ := Yields.lift_bind_iff.mp h
    obtain ⟨hq, rfl⟩ := Yields.pure_iff.mp h
    cases hq
    refine ⟨columns, projections, first, source, joins, filters, second, having, third, orders,
      fourth, combined, hincludes, hcolumns, hprojections, hsource, hjoins, hfilters, hhaving,
      horders, ?_, rfl⟩
    simpa [hkeys] using hcombined

theorem includePlan_spec (h : clauses.includePlan s {} = .ok includes) :
    (includes.getD { root := clauses.root }).Sound s.registry ∧
      (includes.getD { root := clauses.root }).root = clauses.root ∧
      ∀ plan ∈ includes, plan.nodes ≠ [] ∧ plan.root = clauses.root := by
  cases includes with
  | none => exact ⟨Include.Plan.sound_empty clauses.root, rfl, fun _ hplan => by cases hplan⟩
  | some plan =>
    have hplan := Clauses.ofPaths_of_includePlan h
    obtain ⟨hsound, hroot⟩ := Include.Plan.sound_ofPaths hplan
    refine ⟨hsound, hroot, ?_⟩
    rintro _ ⟨⟩
    refine ⟨Include.Plan.nodes_ne_nil_of_ofPaths hplan fun hnone => ?_, hroot⟩
    rw [Clauses.includePlan, hnone] at h
    cases h

theorem source_eq_table {aliasName : Option Text} {source : Source} (hfrom : clauses.rawFrom = [])
    (h : clauses.source aliasName = .ok source) : source = .table clauses.root.table aliasName := by
  rw [Clauses.source, if_neg (by simp [hfrom])] at h
  obtain ⟨_, -, h⟩ := Result.bind_eq_ok.mp h
  cases h
  rfl

theorem joins_eq {c : Compiler} {joins : List Include.Join} (h : Clauses.joins c = .ok joins)
    (root : Entity) : joins = Include.joins (c.includes.getD { root }) := by
  unfold Clauses.joins at h
  obtain ⟨_, -, h⟩ := Result.bind_eq_ok.mp h
  cases h
  cases c.includes <;> rfl

theorem yields_keyProjections {c : Compiler} {columns : List Term}
    {projections : List Projection} {first : State}
    (h : Yields (Clauses.keyProjections c { keysOnly := true } columns) before projections first) :
    projections = columns.map .groupKey ∧ first = before := by
  unfold Clauses.keyProjections at h
  obtain ⟨-, h⟩ := Yields.guard_iff.mp h
  obtain ⟨aggregates, _, hnone, h⟩ := Yields.bind_iff.mp h
  obtain ⟨rfl, rfl⟩ := Yields.pure_iff.mp hnone
  obtain ⟨hall, rfl⟩ := Yields.pure_iff.mp h
  exact ⟨by simpa using hall, rfl⟩

-- The compiler of the rows stands beside the one of the keys.
theorem beside_includes (hregistry : s.registry.Apart) (hroot : clauses.root ∈ s.registry.entities)
    {v : Variant} (h : clauses.includePlan s v = .ok includes) :
    (s.compiler env clauses.root none).Beside (s.compiler env clauses.root includes).rootAlias?
      (s.compiler env clauses.root includes) := by
  cases includes with
  | none => exact .same
  | some plan =>
    have hplan := Clauses.ofPaths_of_includePlan h
    exact .joined plan rfl (Include.Plan.path_apart hregistry hroot hplan)

theorem rootAlias?_eq (c : Compiler) :
    c.rootAlias? = none ∨ c.rootAlias? = some Include.Node.rootAlias := by
  unfold Compiler.rootAlias?
  split
  · exact .inl rfl
  · split
    · exact .inl rfl
    · exact .inr rfl

theorem source_withAlias {aliasName : Option Text} {source source' : Source}
    (h : clauses.source none = .ok source) (h' : clauses.source aliasName = .ok source') :
    source' = source.withAlias aliasName := by
  unfold Clauses.source at h h'
  split at h
  · next hraw =>
    rw [if_pos hraw] at h'
    cases h
    cases h'
    rfl
  · next hraw =>
    rw [if_neg hraw] at h'
    obtain ⟨_, -, h⟩ := Result.bind_eq_ok.mp h
    obtain ⟨_, -, h'⟩ := Result.bind_eq_ok.mp h'
    cases h
    cases h'
    rfl

-- What both states have bound by now, they go on to hold.
theorem values_of_shifted {names : Naming} {registry : Registry} {shift : Nat}
    {s s' more more' : State} (h : Shifted names registry shift s s')
    (hgrow : s.bindings <+: more.bindings) (hgrow' : s'.bindings <+: more'.bindings) (i : Nat)
    (hi : i + shift < s'.bindings.length) :
    (more'.bindings.map Sql.Binding.value)[i + shift]? =
      (more.bindings.map Sql.Binding.value)[i]? := by
  have hlength := h.length
  have hvalue := congrArg (·[i]?) h.values
  simp only [List.getElem?_map, List.getElem?_drop] at hvalue
  obtain ⟨rest, hrest⟩ := hgrow
  obtain ⟨rest', hrest'⟩ := hgrow'
  rw [← hrest, ← hrest', List.getElem?_map, List.getElem?_map, List.getElem?_append_left hi,
    List.getElem?_append_left (by omega), Nat.add_comm i shift, hvalue]

abbrev State.values (s : State) : List Value := s.bindings.map Sql.Binding.value

-- A statement that returns all that its source holds, and nothing else.
structure Select.Unbounded (q : Select) : Prop where
  joins : q.parts.joins = []
  orders : q.parts.orders = []
  limit : q.parts.limit = none
  offset : q.parts.offset = none
  operations : q.operations = []

theorem unbounded_keys {p : Plan} (h : Yields (select s env { keysOnly := true } p) before
    (q, includes) after) : q.Unbounded := by
  cases p with
  | mk clauses conditions operations =>
    obtain ⟨columns, projections, first, source, joins, filters, second, having, third, orders,
      fourth, combined, hincludes, -, -, -, hjoins, -, -, horders, hcombined, rfl⟩ :=
      clauses_of_yields h
    cases hincludes
    cases hjoins
    obtain ⟨rfl, -⟩ := Yields.pure_iff.mp horders
    obtain ⟨rfl, -⟩ := Yields.pure_iff.mp hcombined
    exact ⟨rfl, rfl, rfl, rfl, rfl⟩

theorem bounds_rows {p : Plan} (h : Yields (select s env { omitGroups := true } p) before
    (q, includes) after) :
    q.parts.distinct = p.clauses.distinct ∧ q.parts.limit = p.clauses.limit ∧
      q.parts.offset = p.clauses.offset ∧ (p.operations = [] → q.operations = []) := by
  cases p with
  | mk clauses conditions operations =>
    obtain ⟨columns, projections, first, source, joins, filters, second, having, third, orders,
      fourth, combined, -, -, -, -, -, -, -, -, hcombined, rfl⟩ := clauses_of_yields h
    refine ⟨rfl, rfl, rfl, ?_⟩
    rintro rfl
    obtain ⟨rfl, -⟩ := Yields.pure_iff.mp hcombined
    rfl

-- Both statements read the same rows.
theorem readsAlike_phases {names : Naming} {p : Plan} (hp : p.Named names)
    (hregistry : s.registry.Apart) (hroot : p.root ∈ s.registry.entities)
    {cache : Option Sql.AccessorCache} (hcache : Honest names s.registry cache) {q' : Select}
    {includes' : Option Include.Plan} {after' : State}
    (hkeys : Yields (select s env { keysOnly := true } p) { cache := cache } (q, includes) after)
    (hrows : Yields (select s env { omitGroups := true } p) { cache := after.cache } (q', includes')
      after') :
    ∃ shift table bound, (table = none ∨ table = some Include.Node.rootAlias) ∧
      ReadsAlike shift table bound q q' (State.values after) (State.values after') := by
  have hafter : Honest names s.registry after.cache :=
    ((behind_select (v := { keysOnly := true }) (by simp) p hp).keeps hcache hkeys).1
  cases p with
  | mk clauses conditions operations =>
    simp only [Plan.Named, Plan.nested, List.forall_mem_cons, List.mem_append, or_imp,
      forall_and] at hp
    obtain ⟨hown, hconditions, hoperations⟩ := hp
    obtain ⟨columns, projections, first, source, joins, filters, second, having, third, orders,
      fourth, combined, hincludes, -, hprojections, hsource, hjoins, hfilters, hhaving, horders,
      hcombined, rfl⟩ := clauses_of_yields hkeys
    obtain ⟨columns', projections', first', source', joins', filters', second', having', third',
      orders', fourth', combined', hincludes', -, hprojections', hsource', -, hfilters', hhaving',
      horders', hcombined', rfl⟩ := clauses_of_yields hrows
    cases hincludes
    cases hjoins
    obtain ⟨-, rfl⟩ := yields_keyProjections hprojections
    obtain ⟨rfl, rfl⟩ := Yields.pure_iff.mp horders
    obtain ⟨rfl, rfl⟩ := Yields.pure_iff.mp hcombined
    obtain ⟨rfl, rfl⟩ := Yields.pure_iff.mp hhaving'
    -- The filters of the rows stand behind the values of the projections.
    have hbefore : Honest names s.registry ({ cache := after.cache } : State).cache := hafter
    have hfirst' := (Clauses.behind_rowProjections (c := s.compiler env clauses.root includes')
      hown.cases { omitGroups := true }).keeps hbefore hprojections'
    have hstart : Shifted names s.registry first'.bindings.length { cache := cache } first' :=
      ⟨le_rfl, by simp, hcache, hfirst'.1⟩
    have hbeside : (s.compiler env clauses.root none).Beside
        (s.compiler env clauses.root includes').rootAlias?
        (s.compiler env clauses.root includes') := beside_includes hregistry hroot hincludes'
    obtain ⟨filters'', second'', hyields, hshifted, -, hmoves⟩ :=
      behind_filters hbeside rfl conditions hown.conditions hconditions _ _ _ _ hstart
        (fun _ _ => trivial) hfilters
    obtain ⟨rfl, rfl⟩ := hyields.unique hfilters'
    -- Whatever comes after them keeps their values.
    have hgrow := (Clauses.behind_havingTerms (c := s.compiler env clauses.root none) hown.having _
      columns).keeps hshifted.honest hhaving
    have hgrow' := (Clauses.behind_orderTerms (c := s.compiler env clauses.root includes')
      hown.orders _).keeps hshifted.honest' horders'
    have hgrow'' := (behind_operands operations hoperations).keeps hgrow'.1 hcombined'
    refine ⟨first'.bindings.length, (s.compiler env clauses.root includes').rootAlias?,
      second''.bindings.length, rootAlias?_eq _, rfl, source_withAlias hsource hsource', rfl, ?_, ?_⟩
    · exact hmoves _ List.prefix_rfl
    · exact values_of_shifted hshifted hgrow.2 (hgrow'.2.trans hgrow''.2)

-- The statements of both phases read the same rows. What qualifies in the first
-- one satisfies the predicate in the second one, if that returns all its rows.
theorem qualifies_phases {names : Naming} {p : Plan} (hp : p.Named names)
    (hregistry : s.registry.Apart) (hroot : p.root ∈ s.registry.entities)
    {cache : Option Sql.AccessorCache} (hcache : Honest names s.registry cache) {q' : Select}
    {includes' : Option Include.Plan} {after' : State}
    (hkeys : Yields (select s env { keysOnly := true } p) { cache := cache } (q, includes) after)
    (hrows : Yields (select s env { omitGroups := true } p) { cache := after.cache } (q', includes')
      after') :
    (∃ shift table bound, ReadsAlike shift table bound q q' (State.values after)
      (State.values after')) ∧
    q.Unbounded ∧
    ∀ (Row Joined Key : Type) [DecidableEq Row] [DecidableEq Key] (d : Database Row Joined Key)
      (rows rows' : List Row), d.read q (State.values after) = some rows →
      d.read q' (State.values after') = some rows' →
      rows' = rows ∧
      (p.clauses.distinct = false → p.clauses.limit = none → p.clauses.offset = none →
        p.operations = [] → ∀ k, d.Qualifies q (State.values after) rows k →
          d.having q (State.values after)
            (d.group q k (d.fetched q' (State.values after') rows')) = true) := by
  obtain ⟨shift, table, bound, htable, halike⟩ :=
    readsAlike_phases hp hregistry hroot hcache hkeys hrows
  have hunbounded := unbounded_keys hkeys
  obtain ⟨hdistinct', hlimit', hoffset', hoperations'⟩ := bounds_rows hrows
  refine ⟨⟨shift, table, bound, halike⟩, hunbounded, ?_⟩
  intro Row Joined Key _ _ d rows rows' hread hread'
  have hsame : rows' = rows :=
    Database.read_eq_of_readsAlike halike htable hunbounded.joins hread hread'
  refine ⟨hsame, fun hdistinct hlimit hoffset hoperations k hk => ?_⟩
  rw [Database.fetched_eq (hdistinct'.trans hdistinct) (hlimit'.trans hlimit)
    (hoffset'.trans hoffset) (hoperations' hoperations), hsame]
  exact hk.2

-- Posts with their authors, and beside each other the comments on them.

structure PostRow where
  id : Int
  author : Int
  views : Int
  comment : Option Int := none
  deriving DecidableEq

def commentJoin : Text := "JOIN comments ON comments.post_id = posts.id"

def postRows : List PostRow := [⟨1, 1, 9, none⟩, ⟨2, 1, 7, none⟩, ⟨3, 2, 8, none⟩, ⟨4, 2, 3, none⟩]

def commentRows : List PostRow := [⟨1, 1, 9, some 1⟩, ⟨3, 2, 8, some 2⟩, ⟨3, 2, 8, some 3⟩]

-- The placeholder that the views are compared with, if there is a filter.
def viewsAbove? : List (Filter Select) → Option (Option Nat)
  | [] => some none
  | [.term (.operation (.compare .greater) (.column _ name) (.placeholder i))] =>
    if name = "views" then some (some i) else none
  | _ => none

theorem viewsAbove?_moves {shift bound : Nat} {table : Option Text}
    {filters filters' : List (Filter Select)}
    (h : List.Forall₂ (Filter.Moves shift table bound) filters filters') {found found' : Option Nat}
    (hfound : viewsAbove? filters = some found) (hfound' : viewsAbove? filters' = some found') :
    found' = found.map (· + shift) ∧ ∀ i ∈ found, i + shift < bound := by
  unfold viewsAbove? at hfound
  split at hfound
  · cases h
    cases hfound
    cases hfound'
    simp
  · next name i =>
    obtain ⟨hname, hfound⟩ := Option.ite_none_right_eq_some.mp hfound
    cases hfound
    cases h with | cons hfilter hrest =>
    cases hrest
    cases hfilter with | term ht =>
    cases ht with | frame _ hoperands =>
    cases hoperands with | cons hcolumn hoperands =>
    cases hoperands with | cons hplaceholder hnil =>
    cases hnil
    cases hplaceholder with
    | frame himpossible => exact himpossible.elim
    | placeholder i hi =>
      cases hcolumn with
      | frame himpossible => exact himpossible.elim
      | _ =>
        obtain ⟨-, hfound'⟩ := Option.ite_none_right_eq_some.mp hfound'
        cases hfound'
        exact ⟨rfl, by simpa using hi⟩
  · cases hfound

def shelf : Database PostRow Int Int where
  rows tables source rawJoins :=
    match source with
    | .raw _ => none
    | .table name _ =>
      if tables.isEmpty ∧ name = "posts" then
        if rawJoins = [] then some postRows
        else if rawJoins = [commentJoin] then some commentRows else none
      else none
  passes q values := do
    match ← viewsAbove? q.filters with
    | none => return fun _ => true
    | some i =>
      match ← values[i]? with
      | .int n => return fun r => n.toInt < r.views
      | _ => none
  key _ r := r.author
  having q values rows :=
    match q.parts.having with
    | [.operation (.compare .greater) .countRows (.placeholder i)] =>
      match values[i]? with
      | some (.int n) => n.toInt < rows.length
      | _ => false
    | _ => false
  joined _ r := [r.author]
  unique _ result := result.foldr
    (fun r kept => if kept.any (·.1.id = r.1.id) then kept else r :: kept) []
  ordered _ _ result := result
  combined _ _ result := result
  rows_withAlias := by
    intro tables source rawJoins aliasName found found' h h'
    cases source with
    | raw sql => cases h
    | table name _ => exact Option.some.inj (h'.symm.trans h)
  passes_moved := by
    intro shift table bound q q' values values' test test' halike _ _ h h'
    obtain ⟨found, hfound, h⟩ := Option.bind_eq_some_iff.mp h
    obtain ⟨found', hfound', h'⟩ := Option.bind_eq_some_iff.mp h'
    obtain ⟨rfl, hbound⟩ := viewsAbove?_moves halike.filters hfound hfound'
    cases found with
    | none => exact Option.some.inj (h'.symm.trans h)
    | some i =>
      simp only [Option.map_some, halike.values i (hbound i rfl)] at h'
      exact Option.some.inj (h'.symm.trans h)
  joined_ne_nil := by simp
  ordered_perm _ _ result := .refl result

-- Authors of several posts that have been read often. The value of the CASE
-- comes before the one of the filter when the rows are asked for.
def readByAuthor : Plan where
  clauses :=
    { root := Catalogue.postEntity
      groupKeys := [.member 1 (.parameter 0 ⟨"p", Catalogue.post, false⟩) "AuthorId"]
      having := [.binary 5 (.compare .greater)
        (.call 3 (.parameter 2 ⟨"g", Catalogue.post, true⟩) "Count" []) (.constant 4 (.int 1))]
      includes := ["Author"]
      cases := [⟨[(.raw "TRUE", .of (.constant 6 (.string "read")))], none, "state"⟩] }
  conditions :=
    [.predicate (.binary 10 (.compare .greater)
      (.member 8 (.parameter 7 ⟨"p", Catalogue.post, false⟩) "Views") (.constant 9 (.int 5)))]

def readServices : Services := { registry := Catalogue.registry, mode := .parameterized }

def readEnvironment : Environment where
  now := 0
  captures _ := .null
  hashes := HashFunctions.plain

def readNodes : List Expr :=
  (readByAuthor.clauses.groupKeys ++ readByAuthor.clauses.having ++
    readByAuthor.clauses.cases.flatMap Case.expressions ++
    readByAuthor.conditions.flatMap Condition.expressions).flatMap Expr.nodes

def readNames : Naming := fun id => readNodes.find? (·.id = id)

theorem named_readByAuthor : readByAuthor.Named readNames := by
  intro q hq
  have hq : q = readByAuthor := by simpa [readByAuthor, Plan.nested, Plan.nestedInConditions,
    Plan.nestedInCondition, Plan.nestedInOperations] using hq
  subst hq
  constructor
  all_goals
    simp [readByAuthor, Named, Expr.nodes, Expr.nodesOf, Case.expressions, Side.expressions,
      Condition.expressions]
  case groupKeys => exact ⟨rfl, rfl⟩
  case having => exact ⟨rfl, rfl, rfl, rfl⟩
  case cases => rfl
  case conditions => exact ⟨rfl, rfl, rfl, rfl⟩

theorem apart_catalogue : Catalogue.registry.Apart := ⟨by decide, by decide⟩

-- Both posts of the first author have been read more than five times, but only
-- one of the second author's.
def readRows : List PostRow := [⟨1, 1, 9, none⟩, ⟨2, 1, 7, none⟩, ⟨3, 2, 8, none⟩]

theorem qualifies_phases_readByAuthor :
    ∃ q includes after q' includes' after' rows',
      Yields (select readServices readEnvironment { keysOnly := true } readByAuthor)
        { cache := none } (q, includes) after ∧
      Yields (select readServices readEnvironment { omitGroups := true } readByAuthor)
        { cache := after.cache } (q', includes') after' ∧
      shelf.read q (State.values after) = some readRows ∧
      shelf.read q' (State.values after') = some rows' ∧
      shelf.Qualifies q (State.values after) readRows 1 ∧
      shelf.having q (State.values after)
        (shelf.group q 1 (shelf.fetched q' (State.values after') rows')) = true ∧
      ∃ shift table bound,
        ReadsAlike shift table bound q q' (State.values after) (State.values after') := by
  obtain ⟨q, includes, after, q', includes', after', rows', hkeys, hrows, hread, hread', hqualifies⟩ :
      ∃ q includes after q' includes' after' rows',
        Yields (select readServices readEnvironment { keysOnly := true } readByAuthor)
          { cache := none } (q, includes) after ∧
        Yields (select readServices readEnvironment { omitGroups := true } readByAuthor)
          { cache := after.cache } (q', includes') after' ∧
        shelf.read q (State.values after) = some readRows ∧
        shelf.read q' (State.values after') = some rows' ∧
        shelf.Qualifies q (State.values after) readRows 1 :=
    ⟨_, _, _, _, _, _, _, rfl, rfl, by decide, rfl, by decide, by decide⟩
  have hroot : readByAuthor.root ∈ readServices.registry.entities := by decide
  obtain ⟨halike, -, hsame⟩ := qualifies_phases named_readByAuthor apart_catalogue hroot
    (Sql.Compiler.honest_none readNames readServices.registry) hkeys hrows
  have hall := (hsame _ _ _ shelf _ _ hread hread').2 rfl rfl rfl rfl 1 hqualifies
  exact ⟨q, includes, after, q', includes', after', rows', hkeys, hrows, hread, hread', hqualifies,
    hall, halike⟩

-- Without the hypotheses, the phases differ: in their bounds; in the rows of a
-- group, of which DISTINCT keeps one; and in a filter, where an include has the
-- name of a field.

def groupedPosts : Plan where
  clauses :=
    { root := Catalogue.postEntity
      groupKeys := readByAuthor.clauses.groupKeys
      having := readByAuthor.clauses.having }

def limitedPosts : Plan := groupedPosts.change fun c => { c with limit := some 1 }

def distinctPosts : Plan :=
  groupedPosts.change fun c => { c with distinct := true, rawJoins := [commentJoin] }

def titleEntity : Entity where
  type := Catalogue.named "Title"
  name := "Title"
  table := "titles"
  fields := [Catalogue.key "Id" .int64 "id", Catalogue.field "Length" .string "length"]

def bookEntity : Entity where
  type := Catalogue.named "Book"
  name := "Book"
  table := "books"
  fields :=
    [Catalogue.key "Id" .int64 "id", Catalogue.field "Title" .string "title",
      Catalogue.field "TitleId" .int64 "title_id"]
  navigations := [⟨"Title", titleEntity.type, .reference "title_id"⟩]

def bookServices : Services := { registry := ⟨[bookEntity, titleEntity]⟩ }

-- Books with long titles.
def titledBooks : Plan where
  clauses :=
    { root := bookEntity
      groupKeys := [.member 1 (.parameter 0 ⟨"b", bookEntity.type, false⟩) "TitleId"]
      having := [.binary 5 (.compare .greater)
        (.call 3 (.parameter 2 ⟨"g", bookEntity.type, true⟩) "Count" []) (.constant 4 (.int 1))]
      includes := ["Title"] }
  conditions :=
    [.predicate (.binary 12 (.compare .greater)
      (.binary 10 (.arithmetic .add)
        (.member 8 (.member 7 (.parameter 6 ⟨"b", bookEntity.type, false⟩) "Title") "Length")
        (.constant 9 (.int 1)))
      (.constant 11 (.int 3)))]

theorem phases_differ :
    (∃ q includes after q' includes' after',
      Yields (select readServices readEnvironment { keysOnly := true } limitedPosts) {}
        (q, includes) after ∧
      Yields (select readServices readEnvironment { omitGroups := true } limitedPosts) {}
        (q', includes') after' ∧
      q.parts.limit = none ∧ q'.parts.limit = some 1) ∧
    (∃ q includes after q' includes' after',
      Yields (select readServices readEnvironment { keysOnly := true } distinctPosts) {}
        (q, includes) after ∧
      Yields (select readServices readEnvironment { omitGroups := true } distinctPosts) {}
        (q', includes') after' ∧
      shelf.read q (State.values after) = some commentRows ∧
      shelf.read q' (State.values after') = some commentRows ∧
      shelf.Qualifies q (State.values after) commentRows 2 ∧
      shelf.having q (State.values after)
        (shelf.group q 2 (shelf.fetched q' (State.values after') commentRows)) = false) ∧
    ∃ q includes after q' includes' after',
      Yields (select bookServices readEnvironment { keysOnly := true } titledBooks) {}
        (q, includes) after ∧
      Yields (select bookServices readEnvironment { omitGroups := true } titledBooks) {}
        (q', includes') after' ∧
      whereClause q.filters = " WHERE ((LENGTH(\"title\") + 1) > 3)" ∧
      whereClause q'.filters = " WHERE ((LENGTH(\"t0\".\"title\") || 1) > 3)" :=
  ⟨⟨_, _, _, _, _, _, rfl, rfl, rfl, rfl⟩,
    ⟨_, _, _, _, _, _, rfl, rfl, by decide, by decide, by decide, by decide⟩,
    ⟨_, _, _, _, _, _, rfl, rfl, by decide, by decide⟩⟩

end Query

end EntitySql
