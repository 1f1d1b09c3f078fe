import EntitySql.Proofs.Query.Phases
import EntitySql.Proofs.Rows.Kept
import EntitySql.Query.Session

-- What a run leaves of a session. Compiling changes nothing but the cache, and
-- a statement takes the next result that the connection has.

namespace EntitySql.Query

-- Another cache with no wrong entries.
def Session.Recached (names : Sql.Compiler.Naming) (registry : Registry) (before after : Session) :
    Prop :=
  ∃ cache, Sql.Compiler.Honest names registry cache ∧ after = { before with cache := cache }

namespace Session

open Sql.Compiler (Naming Honest)

variable {s : Services} {env : Environment} {p : Plan} {names : Naming} {r : Rendered}
variable {before after : Session}

namespace Recached

variable {registry : Registry} {middle : Session}

theorem refl (h : Honest names registry before.cache) : Recached names registry before before :=
  ⟨before.cache, h, rfl⟩

theorem trans (h : Recached names registry before middle)
    (h' : Recached names registry middle after) : Recached names registry before after := by
  obtain ⟨_, -, rfl⟩ := h
  exact h'

theorem honest (h : Recached names registry before after) : Honest names registry after.cache := by
  obtain ⟨cache, hcache, rfl⟩ := h
  exact hcache

end Recached

theorem yields_compile {α : Type} {x : Sql.Compiler.Step α} {a : α} {bindings : List Sql.Binding}
    (h : Yields (compile x) before (a, bindings) after) :
    ∃ state, Yields x { cache := before.cache } a state ∧ bindings = state.bindings ∧
      after = { before with cache := state.cache } := by
  rw [compile, Yields.get_bind_iff] at h
  cases hrun : x.run { cache := before.cache } with
  | mk result state =>
    simp only [hrun] at h
    rw [Yields.modify_bind_iff] at h
    cases result with
    | error e => exact absurd h Yields.throw_iff
    | ok a' =>
      obtain ⟨hpair, rfl⟩ := Yields.pure_iff.mp h
      cases hpair
      exact ⟨state, hrun, rfl, rfl⟩

theorem yields_compile_of {α : Type} {x : Sql.Compiler.Step α} {a : α} {state : Sql.Compiler.State}
    (h : Yields x { cache := before.cache } a state) :
    Yields (compile x) before (a, state.bindings) { before with cache := state.cache } := by
  have hrun : x.run { cache := before.cache } = (.ok a, state) := h
  rw [compile, Yields.get_bind_iff]
  simp only [hrun]
  rw [Yields.modify_bind_iff]
  exact Yields.pure_iff.mpr ⟨rfl, rfl⟩

theorem yields_rows {v : Variant} (h : Yields (rows s env v p) before r after) :
    ∃ q includes state, Yields (select s env v p) { cache := before.cache } (q, includes) state ∧
      r = ⟨q.text, state.bindings, includes⟩ ∧ after = { before with cache := state.cache } := by
  obtain ⟨⟨⟨q, includes⟩, bindings⟩, middle, hcompile, h⟩ := Yields.bind_iff.mp h
  obtain ⟨rfl, rfl⟩ := Yields.pure_iff.mp h
  obtain ⟨state, hselect, rfl, rfl⟩ := yields_compile hcompile
  exact ⟨q, includes, state, hselect, rfl, rfl⟩

theorem recached_rows (hp : p.Named names) (hcache : Honest names s.registry before.cache)
    {v : Variant} (hv : v.aggregates = []) (h : Yields (rows s env v p) before r after) :
    Recached names s.registry before after := by
  obtain ⟨q, includes, state, hselect, -, rfl⟩ := yields_rows h
  have hbehind : Behind names s.registry 0 _ _ (select s env v p) (select s env v p) :=
    behind_select (by simp [hv]) p hp
  exact ⟨state.cache, (hbehind.keeps hcache hselect).1, rfl⟩

-- The next result has been taken for the statement.
structure Took (r : Rendered) (set : ResultSet) (before after : Session) : Prop where
  results : before.connection.results = some set :: after.connection.results
  commands : after.connection.commands = before.connection.commands ++ [⟨r.sql, r.bindings⟩]

theorem yields_start {command : Command} (h : Yields (start r) before command after) :
    command = ⟨r.sql, r.bindings⟩ ∧ after.connection = before.connection ∧
      after.cache = before.cache ∧ after.store = before.store := by
  rw [start, Yields.get_bind_iff] at h
  obtain ⟨-, h⟩ := Yields.guard_iff.mp h
  obtain ⟨-, h⟩ := Yields.guard_iff.mp h
  obtain ⟨_, middle, hset, h⟩ := Yields.bind_iff.mp h
  obtain rfl := Yields.set_iff.mp hset
  obtain ⟨rfl, rfl⟩ := Yields.pure_iff.mp h
  exact ⟨rfl, rfl, rfl, rfl⟩

theorem yields_runReader {set : ResultSet} (h : Yields (runReader r) before set after) :
    Took r set before after ∧ after.cache = before.cache ∧ after.store = before.store := by
  obtain ⟨command, middle, hstart, h⟩ := Yields.bind_iff.mp h
  obtain ⟨rfl, hconnection, hcache, hstore⟩ := yields_start hstart
  rw [Yields.get_bind_iff] at h
  cases hresults : middle.connection.results with
  | nil =>
    simp only [Connection.execute, Connection.receive, hresults, changeConnection] at h
    rw [Yields.modify_bind_iff] at h
    obtain ⟨herror, -⟩ := Yields.lift_iff.mp h
    cases herror
  | cons first rest =>
    cases first with
    | none =>
      simp only [Connection.execute, Connection.receive, hresults, changeConnection] at h
      rw [Yields.modify_bind_iff] at h
      obtain ⟨herror, -⟩ := Yields.lift_iff.mp h
      cases herror
    | some found =>
      simp only [Connection.execute, Connection.receive, hresults, changeConnection] at h
      rw [Yields.modify_bind_iff] at h
      obtain ⟨hset, rfl⟩ := Yields.lift_iff.mp h
      obtain rfl : found = set := by
        cases hcheck : found.check with
        | error e =>
          rw [hcheck] at hset
          cases hset
        | ok _ =>
          rw [hcheck] at hset
          exact Except.ok.inj hset
      rw [hconnection] at hresults
      exact ⟨⟨hresults, by rw [hconnection]⟩, hcache, hstore⟩

-- The entities that have been read, and what they hold.
theorem yields_materialize {env : Environment} {root : Entity} {converter : Conversion.Converter}
    {ids : List InstanceId} (h : Yields (materialize env r root converter) before ids after) :
    after.cache = before.cache ∧ ∃ set rows, Took r set before after ∧
      rows.Sublist (Materializer.rowsFrom 0 set.rows) ∧
        List.Forall₂ ((⟨root, converter, [], Value.sameKey env.hashes⟩ : Materializer).Holds
          set.columns after.store) ids rows := by
  obtain ⟨set, middle, hreader, h⟩ := Yields.bind_iff.mp h
  obtain ⟨⟨hresults, hcommands⟩, hcache, -⟩ := yields_runReader hreader
  rw [Yields.get_bind_iff] at h
  cases hrun : (Materializer.read
      ⟨root, converter, (r.includes.map Include.Plan.trees).getD [], Value.sameKey env.hashes⟩
      set).run { store := middle.store, cancelled := middle.connection.cancelled } with
  | mk result state =>
    simp only [hrun, changeConnection] at h
    rw [Yields.modify_bind_iff, Yields.modify_bind_iff] at h
    obtain ⟨rfl, rfl⟩ := Yields.lift_iff.mp h
    obtain ⟨-, rows, hsublist, hholds⟩ := Materializer.holds_of_readRows hrun
    exact ⟨hcache, set, rows, ⟨hresults, hcommands⟩, hsublist, hholds⟩

end Session

end EntitySql.Query
