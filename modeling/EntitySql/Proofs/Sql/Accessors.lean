import EntitySql.Proofs.LruCache.Linked
import EntitySql.Proofs.Sql.Following

-- Accessors from a cache. An identity stands for one node, so a cache that has
-- been filled honestly gives the accessor of the very node that is asked for,
-- and compilers with different caches evaluate alike.

namespace EntitySql

namespace LruCache

variable {κ α ε : Type} [DecidableEq κ] {c : LruCache κ α} {key : κ}

-- What the entries have in common, the entry that is asked for has too.
theorem forall_getOrAdd (key : κ) {P : κ × α → Prop} (h : ∀ e ∈ c.entries, P e)
    {factory : Except ε α} (hfactory : ∀ a, factory = .ok a → P (key, a)) :
    (∀ e ∈ (c.getOrAdd key factory).2.entries, P e) ∧
      ∀ a, (c.getOrAdd key factory).1 = .ok a → P (key, a) := by
  unfold getOrAdd getOrMake lookUp
  cases hslot : c.table.lookup key with
  | some slot =>
    have ha := h _ (mem_entries_of_lookup hslot)
    exact ⟨h, by rintro b ⟨⟩; exact ha⟩
  | none =>
    cases factory with
    | error e => exact ⟨h, by rintro b ⟨⟩⟩
    | ok a =>
      have ha := hfactory a rfl
      simp only [store, tryAdd, hslot]
      refine ⟨fun e he => ?_, by rintro b ⟨⟩; exact ha⟩
      rcases entries_insert_subset _ key a e he with rfl | he
      · exact ha
      · exact h e he

theorem exists_getOrAdd (c : LruCache κ α) (key : κ) (a : α) :
    ∃ b, (c.getOrAdd key (.ok a : Except ε α)).1 = .ok b := by
  unfold getOrAdd getOrMake lookUp
  cases c.table.lookup key <;> exact ⟨_, rfl⟩

end LruCache

namespace Sql.Compiler

-- The node that an identity stands for.
abbrev Naming := NodeId → Option Expr

def Honest (names : Naming) (registry : Registry) (cache : Option AccessorCache) : Prop :=
  ∀ found ∈ cache, ∀ entry ∈ found.entries, ∃ e, names entry.1.2 = some e ∧
    Eval.accessor registry e = .ok entry.2

variable {c : Compiler} {names : Naming} {e : Expr} {s u : State} {a : Accessor}

theorem honest_none (names : Naming) (registry : Registry) : Honest names registry none := by
  simp [Honest]

theorem yields_accessor_none (h : s.cache = none) :
    Yields (c.accessor e) s a u ↔ Eval.accessor c.registry e = .ok a ∧ u = s := by
  unfold accessor
  rw [Yields.get_bind_iff, h]
  exact Yields.lift_iff

theorem yields_accessor_some {cache : AccessorCache} (h : s.cache = some cache) :
    Yields (c.accessor e) s a u ↔
      (cache.getOrAdd (c.rootType, e.id) (Eval.accessor c.registry e)).1 = .ok a ∧
        u = { s with
          cache := (cache.getOrAdd (c.rootType, e.id) (Eval.accessor c.registry e)).2 } := by
  unfold accessor
  rw [Yields.get_bind_iff, h]
  exact Yields.modify_bind_iff.trans Yields.lift_iff

theorem Honest.forall_getOrAdd {cache : AccessorCache} (h : Honest names c.registry (some cache))
    (he : names e.id = some e) :
    Honest names c.registry
        (some (cache.getOrAdd (c.rootType, e.id) (Eval.accessor c.registry e)).2) ∧
      ∀ a, (cache.getOrAdd (c.rootType, e.id) (Eval.accessor c.registry e)).1 = .ok a →
        Eval.accessor c.registry e = .ok a := by
  obtain ⟨hentries, hfound⟩ := LruCache.forall_getOrAdd (c.rootType, e.id)
    (h cache rfl) fun a ha => ⟨e, he, ha⟩
  refine ⟨by rintro found ⟨⟩; exact hentries, fun a ha => ?_⟩
  obtain ⟨e', he', ha'⟩ := hfound a ha
  obtain rfl : e = e' := Option.some.inj (he.symm.trans he')
  exact ha'

theorem accessor_of_yields (h : Honest names c.registry s.cache) (he : names e.id = some e)
    (hrun : Yields (c.accessor e) s a u) : Eval.accessor c.registry e = .ok a ∧
      ∃ cache, Honest names c.registry cache ∧ u = { s with cache := cache } := by
  cases hcache : s.cache with
  | none =>
    obtain ⟨ha, rfl⟩ := (yields_accessor_none hcache).mp hrun
    exact ⟨ha, u.cache, h, rfl⟩
  | some cache =>
    rw [hcache] at h
    obtain ⟨ha, rfl⟩ := (yields_accessor_some hcache).mp hrun
    obtain ⟨hentries, hfound⟩ := h.forall_getOrAdd he
    exact ⟨hfound a ha, _, hentries, rfl⟩

theorem exists_accessor (h : Honest names c.registry s.cache) (he : names e.id = some e)
    (ha : Eval.accessor c.registry e = .ok a) : ∃ u, Yields (c.accessor e) s a u := by
  cases hcache : s.cache with
  | none => exact ⟨s, (yields_accessor_none hcache).mpr ⟨ha, rfl⟩⟩
  | some cache =>
    rw [hcache] at h
    obtain ⟨b, hb⟩ := LruCache.exists_getOrAdd cache (c.rootType, e.id) (ε := Error) a
    rw [← ha] at hb
    have hb' := (h.forall_getOrAdd he).2 b hb
    obtain rfl : a = b := Except.ok.inj (ha.symm.trans hb')
    exact ⟨_, (yields_accessor_some hcache).mpr ⟨hb, rfl⟩⟩

-- Evaluating by honest caches.
theorem follows_namedExtract {c' : Compiler} {I : State → State → Prop} {P : List Binding → Prop}
    (hregistry : c'.registry = c.registry) (hcaptures : c'.captures = c.captures)
    (hhonest : ∀ {s s'}, I s s' →
      Honest names c.registry s.cache ∧ Honest names c.registry s'.cache)
    (hset : ∀ {s s' cache cache'}, I s s' → Honest names c.registry cache →
      Honest names c.registry cache' → I { s with cache := cache } { s' with cache := cache' })
    (he : names e.id = some e) :
    Follows I P (fun _ v v' => v = v') (c.extract e) (c'.extract e) := by
  have haccessor : Follows I P (fun _ a a' => a = a') (c.accessor e) (c'.accessor e) := by
    intro s s' a u hI _ hrun
    obtain ⟨hs, hs'⟩ := hhonest hI
    obtain ⟨ha, cache, hcache, rfl⟩ := accessor_of_yields hs he hrun
    rw [← hregistry] at ha hs'
    obtain ⟨u', hrun'⟩ := exists_accessor hs' he ha
    obtain ⟨-, cache', hcache', rfl⟩ := accessor_of_yields hs' he hrun'
    rw [hregistry] at hcache'
    exact ⟨a, _, hrun', hset hI hcache hcache', List.prefix_rfl, fun _ _ => rfl⟩
  have hvalue : Follows I P (fun _ v v' => v = v')
      (do
        let read ← c.accessor e
        read { captures := c.captures } : Step Value)
      (do
        let read ← c'.accessor e
        read { captures := c'.captures } : Step Value) := by
    rw [hcaptures]
    exact .bind_eq haccessor fun read _ => .lift fun v hv => ⟨v, hv, fun _ _ => rfl⟩
  cases e with
  | constant id v => exact .pure fun _ _ => rfl
  | _ => exact hvalue

end Sql.Compiler

end EntitySql
