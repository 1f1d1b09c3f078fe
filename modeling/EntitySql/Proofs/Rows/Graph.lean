import EntitySql.Proofs.Rows.History

-- The graph of instances that a materializer keeps. Visits place instances
-- and then link them below their parents, so the places may be one visit
-- ahead of the links.

namespace EntitySql.Materializer

open Include (Node Plan)
open Visit (firstAt keysAt keysBelow)

-- Keys are told apart by a test that sorts them into classes, and all keys that are
-- remembered are among those of a list.
structure Graph (keys : List Value) (same : Value → Value → Bool) (p : Plan)
    (places links : List Visit) (s : State) : Prop where
  classes : Classifies same
  known : s.memory.KeysIn keys
  absent : ∀ site key, firstAt same places site key = none →
    s.memory.instance? same site key = none
  placed : ∀ site key v, firstAt same places site key = some v → ∃ id i j,
    s.memory.instance? same site key = some id ∧ s.store.get? id = some i ∧
      v.reading = .ok j ∧ i.type = j.type ∧ i.values = j.values
  apart : ∀ site site' key key' id, s.memory.instance? same site key = some id →
    s.memory.instance? same site' key' = some id → site = site' ∧ same key key' = true
  navigable : ∀ n ∈ p.nodes, ∀ key id i, s.memory.instance? same n.parent key = some id →
    s.store.get? id = some i → i.Navigable n.navigation
  parents : ∀ v ∈ links, ∀ n ∈ p.nodes, v.site = some n.number →
    (s.memory.instance? same n.parent v.parentKey).isSome
  linked : ∀ n ∈ p.nodes, ∀ parentKey key, n.isCollection →
    s.memory.isLinked same n.number parentKey key =
      (keysBelow same links (some n.number) parentKey).any (same · key)
  targets : ∀ n ∈ p.nodes, ∀ key id i, s.memory.instance? same n.parent key = some id →
    s.store.get? id = some i → (i.linked n.navigation).map some =
      (n.held same (keysBelow same links (some n.number) key)).map
        (s.memory.instance? same (some n.number))
  roots : s.memory.roots.map (·.1) = firstKeys same (keysAt places none)

namespace Graph

variable {registry : Registry} {keys : List Value} {same : Value → Value → Bool} {p : Plan}
  {places links : List Visit} {s : State}

theorem fresh (hsame : Classifies same) (h : s.memory = {}) : Graph keys same p [] [] s where
  classes := hsame
  known := by rw [h]; exact ⟨nofun, nofun, nofun⟩
  absent := by
    intro site key _
    cases site <;> rw [h] <;> rfl
  placed := by simp [firstAt]
  apart := by
    intro site site' key key' id hid
    cases site <;> simp [h, Memory.instance?, Memory.root?, Memory.related?] at hid
  navigable := by
    intro n _ key id i hid
    cases hparent : n.parent <;>
      simp [h, hparent, Memory.instance?, Memory.root?, Memory.related?] at hid
  parents := by simp
  linked := by simp [h, Memory.isLinked, keysBelow]
  targets := by
    intro n _ key id i hid
    cases hparent : n.parent <;>
      simp [h, hparent, Memory.instance?, Memory.root?, Memory.related?] at hid
  roots := by simp [h, keysAt]

-- Every instance that is remembered is stored.
theorem stored (h : Graph keys same p places links s) {site : Option Nat} {key : Value} {id : InstanceId}
    (hid : s.memory.instance? same site key = some id) : ∃ i, s.store.get? id = some i := by
  cases hfirst : firstAt same places site key with
  | none => simp [h.absent site key hfirst] at hid
  | some v =>
    obtain ⟨id', i, j, hid', hi, -⟩ := h.placed site key v hfirst
    rw [hid] at hid'
    cases hid'
    exact ⟨i, hi⟩

theorem isSome_firstAt (h : Graph keys same p places links s) (site : Option Nat) (key : Value) :
    (firstAt same places site key).isSome = (s.memory.instance? same site key).isSome := by
  cases hfirst : firstAt same places site key with
  | none => rw [h.absent site key hfirst]; rfl
  | some v =>
    obtain ⟨id, _, _, hid, -⟩ := h.placed site key v hfirst
    rw [hid]
    rfl

-- The root is told by the keys that are remembered for it.
theorem keysAt_append_root (h : Graph keys same p places links s) {v : Visit} (hsite : v.site = none) :
    firstKeys same (keysAt (places ++ [v]) none) =
      if (s.memory.instance? same none v.key).isSome then firstKeys same (keysAt places none)
      else firstKeys same (keysAt places none) ++ [v.key] := by
  rw [Visit.keysAt_append_singleton, if_pos hsite, firstKeys_append_singleton h.classes.comm,
    any_firstKeys h.classes.comm fun _ _ _ _ => h.classes.trans, Visit.any_keysAt, h.isSome_firstAt]

theorem keysAt_append_node {v : Visit} (hsite : v.site ≠ none) :
    keysAt (places ++ [v]) none = keysAt places none := by
  rw [Visit.keysAt_append_singleton, if_neg hsite, List.append_nil]

-- A visit under a known key places nothing new.
theorem place_known (h : Graph keys same p places links s) {v : Visit}
    (hknown : (s.memory.instance? same v.site v.key).isSome) :
    Graph keys same p (places ++ [v]) links s where
  classes := h.classes
  known := h.known
  absent := by
    intro site key hfirst
    rw [Visit.firstAt_append_singleton, Option.or_eq_none_iff] at hfirst
    exact h.absent site key hfirst.1
  placed := by
    intro site key w hfirst
    rw [Visit.firstAt_append_singleton] at hfirst
    cases hold : firstAt same places site key with
    | some u =>
      rw [hold] at hfirst
      cases hfirst
      exact h.placed site key w hold
    | none =>
      rw [hold, Option.none_or] at hfirst
      split at hfirst
      · next hat =>
        rw [hat.1, Memory.instance?_congr h.classes hat.2, h.absent site key hold] at hknown
        cases hknown
      · cases hfirst
  apart := h.apart
  navigable := h.navigable
  parents := h.parents
  linked := h.linked
  targets := h.targets
  roots := by
    by_cases hsite : v.site = none
    · rw [hsite] at hknown
      rw [h.keysAt_append_root hsite, if_pos hknown]
      exact h.roots
    · rw [keysAt_append_node hsite]
      exact h.roots

-- The state after a new instance is stored and remembered.
def remembering (s : State) (site : Option Nat) (key : Value) (i : Instance) : State :=
  { s with
    memory := s.memory.remember site key s.store.size
    store := (s.store.insert i).1 }

section Remembering

variable {site site' : Option Nat} {key key' : Value} {i j : Instance} {id : InstanceId}

theorem instance?_remembering (s : State) (site : Option Nat) (key : Value) (i : Instance)
    (site' : Option Nat) (key' : Value) :
    (remembering s site key i).memory.instance? same site' key' =
      (s.memory.instance? same site' key').or
        (if site = site' ∧ same key key' then some s.store.size else none) :=
  Memory.instance?_remember s.memory site key s.store.size site' key'

-- Instances stay under their keys.
theorem instance?_remembering_of_some (hid : s.memory.instance? same site' key' = some id) :
    (remembering s site key i).memory.instance? same site' key' = some id := by
  rw [instance?_remembering, hid, Option.some_or]

theorem get?_remembering_of_lt (hlt : id < s.store.size) :
    (remembering s site key i).store.get? id = s.store.get? id :=
  Store.get?_insert_of_lt i hlt

theorem get?_remembering_size : (remembering s site key i).store.get? s.store.size = some i :=
  Store.get?_insert_size s.store i

-- An instance of the new state is the new one, or an old one of a place that differs.
theorem instance?_remembering_cases (h : Graph keys same p places links s)
    (hid : (remembering s site key i).memory.instance? same site' key' = some id) :
    (s.memory.instance? same site' key' = some id ∧ id < s.store.size) ∨
      (s.memory.instance? same site' key' = none ∧ site' = site ∧ same key key' = true ∧
        id = s.store.size) := by
  rw [instance?_remembering] at hid
  cases hold : s.memory.instance? same site' key' with
  | some id' =>
    rw [hold] at hid
    cases hid
    obtain ⟨i, hi⟩ := h.stored hold
    exact .inl ⟨rfl, Store.lt_size_of_get? hi⟩
  | none =>
    rw [hold, Option.none_or] at hid
    split at hid
    · next hat =>
      cases hid
      exact .inr ⟨rfl, hat.1.symm, hat.2, rfl⟩
    · cases hid

variable {v w : Visit}

theorem placed_remembering (h : Graph keys same p places links s) (hread : v.reading = .ok j)
    (hfirst : firstAt same (places ++ [v]) site key = some w) : ∃ id i k,
      (remembering s v.site v.key j).memory.instance? same site key = some id ∧
        (remembering s v.site v.key j).store.get? id = some i ∧ w.reading = .ok k ∧
        i.type = k.type ∧ i.values = k.values := by
  rw [Visit.firstAt_append_singleton] at hfirst
  cases hbefore : firstAt same places site key with
  | some u =>
    rw [hbefore] at hfirst
    cases hfirst
    obtain ⟨id, i, k, hid, hi, hrest⟩ := h.placed site key w hbefore
    exact ⟨id, i, k, instance?_remembering_of_some hid,
      (get?_remembering_of_lt (Store.lt_size_of_get? hi)).trans hi, hrest⟩
  | none =>
    rw [hbefore, Option.none_or] at hfirst
    split at hfirst
    · next hat =>
      cases hfirst
      refine ⟨s.store.size, j, j, ?_, get?_remembering_size, hread, rfl, rfl⟩
      rw [instance?_remembering, h.absent site key hbefore, Option.none_or, if_pos hat]
    · cases hfirst

theorem apart_remembering (h : Graph keys same p places links s)
    (hid : (remembering s v.site v.key j).memory.instance? same site key = some id)
    (hid' : (remembering s v.site v.key j).memory.instance? same site' key' = some id) :
    site = site' ∧ same key key' = true := by
  rcases h.instance?_remembering_cases hid with ⟨hold, hlt⟩ | ⟨-, hsite, hsame, rfl⟩
  · rcases h.instance?_remembering_cases hid' with ⟨hold', -⟩ | ⟨-, -, -, rfl⟩
    · exact h.apart site site' key key' id hold hold'
    · exact absurd hlt (Nat.lt_irrefl _)
  · rcases h.instance?_remembering_cases hid' with ⟨-, hlt⟩ | ⟨-, hsite', hsame', -⟩
    · exact absurd hlt (Nat.lt_irrefl _)
    · exact ⟨hsite.trans hsite'.symm, h.classes.trans (h.classes.symm hsame) hsame'⟩

-- Nothing is linked below a key that was not placed.
theorem keysBelow_eq_nil (h : Graph keys same p places links s) {n : Node} (hn : n ∈ p.nodes)
    (hnone : s.memory.instance? same n.parent key = none) :
    keysBelow same links (some n.number) key = [] := by
  simp only [keysBelow, List.map_eq_nil_iff, List.filter_eq_nil_iff, Bool.and_eq_true,
    decide_eq_true_eq, not_and]
  intro w hw hat hbelow
  have hparent := h.parents w hw n hn hat
  rw [Memory.instance?_congr h.classes hbelow, hnone] at hparent
  cases hparent

theorem held_nil (same : Value → Value → Bool) (n : Node) : n.held same [] = [] := by
  cases hcollection : n.isCollection <;> simp [Node.held, hcollection]

theorem targets_remembering (h : Graph keys same p places links s) (hempty : ∀ n : Navigation, j.linked n = [])
    {n : Node} (hn : n ∈ p.nodes)
    (hid : (remembering s v.site v.key j).memory.instance? same n.parent key = some id)
    (hi : (remembering s v.site v.key j).store.get? id = some i) :
    (i.linked n.navigation).map some =
      (n.held same (keysBelow same links (some n.number) key)).map
        ((remembering s v.site v.key j).memory.instance? same (some n.number)) := by
  rcases h.instance?_remembering_cases hid with ⟨hold, hlt⟩ | ⟨hnone, -, -, rfl⟩
  · rw [get?_remembering_of_lt hlt] at hi
    have hbefore := h.targets n hn key id i hold hi
    rw [hbefore]
    refine List.map_congr_left fun k hk => ?_
    -- What was linked before had an instance before.
    obtain ⟨id', -, hid'⟩ := List.mem_map.mp (hbefore ▸ List.mem_map_of_mem hk)
    rw [← hid', instance?_remembering_of_some hid'.symm]
  · rw [get?_remembering_size] at hi
    cases hi
    rw [hempty, h.keysBelow_eq_nil hn hnone, held_nil]
    rfl

theorem place_new (h : Graph keys same p places links s) (hkey : v.key ∈ keys)
    (hnew : s.memory.instance? same v.site v.key = none) (hread : v.reading = .ok j)
    (hnavigable : ∀ n ∈ p.nodes, n.parent = v.site → j.Navigable n.navigation)
    (hempty : ∀ n : Navigation, j.linked n = []) :
    Graph keys same p (places ++ [v]) links (remembering s v.site v.key j) where
  classes := h.classes
  known := h.known.remember hkey v.site s.store.size
  absent := by
    intro site key hfirst
    rw [Visit.firstAt_append_singleton, Option.or_eq_none_iff] at hfirst
    rw [instance?_remembering, h.absent site key hfirst.1, Option.none_or]
    split
    · next hat => simp [hat] at hfirst
    · rfl
  placed _ _ _ := h.placed_remembering hread
  apart _ _ _ _ _ := h.apart_remembering
  navigable := by
    intro n hn key id i hid hi
    rcases h.instance?_remembering_cases hid with ⟨hold, hlt⟩ | ⟨-, hsite, -, rfl⟩
    · rw [get?_remembering_of_lt hlt] at hi
      exact h.navigable n hn key id i hold hi
    · rw [get?_remembering_size] at hi
      cases hi
      exact hnavigable n hn hsite
  parents := by
    intro w hw n hn hsite
    obtain ⟨id, hid⟩ := Option.isSome_iff_exists.mp (h.parents w hw n hn hsite)
    rw [instance?_remembering_of_some hid]
    rfl
  linked := by
    intro n hn parentKey key hcollection
    simp only [remembering, Memory.isLinked_remember]
    exact h.linked n hn parentKey key hcollection
  targets _ hn _ _ _ := h.targets_remembering hempty hn
  roots := by
    cases hsite : v.site with
    | none =>
      rw [hsite] at hnew
      rw [h.keysAt_append_root hsite, hnew]
      simp [remembering, Memory.remember, h.roots]
    | some number =>
      rw [keysAt_append_node (by simp [hsite])]
      exact h.roots

end Remembering

section Linking

variable {n m : Node} {v w : Visit} {parentKey key : Value} {parent related : InstanceId}

-- Linking the visit of one node leaves the keys below other nodes and below
-- other parents as they are.
theorem keysBelow_link (hsound : p.Sound registry) (hn : n ∈ p.nodes) (hm : m ∈ p.nodes)
    (hsite : v.site = some n.number) (hother : m ≠ n ∨ same v.parentKey parentKey = false) :
    keysBelow same (links ++ [v]) (some m.number) parentKey =
      keysBelow same links (some m.number) parentKey := by
  have hno : ¬(v.site = some m.number ∧ same v.parentKey parentKey = true) := by
    rintro ⟨hat, hbelow⟩
    have hnumber : n.number = m.number := Option.some.inj (hsite.symm.trans hat)
    have heq : n = m := hsound.eq_of_number_eq hn hm hnumber
    rcases hother with hne | hnot
    · exact hne heq.symm
    · rw [hbelow] at hnot
      cases hnot
  rw [Visit.keysBelow_append_singleton, if_neg hno, List.append_nil]

theorem keysBelow_link_self (hsite : v.site = some n.number)
    (hbelow : same v.parentKey parentKey = true) :
    keysBelow same (links ++ [v]) (some n.number) parentKey =
      keysBelow same links (some n.number) parentKey ++ [v.key] := by
  rw [Visit.keysBelow_append_singleton, if_pos ⟨hsite, hbelow⟩]

theorem parents_link (h : Graph keys same p places links s) (hsound : p.Sound registry)
    (hn : n ∈ p.nodes) (hsite : v.site = some n.number)
    (hparent : (s.memory.instance? same n.parent v.parentKey).isSome) :
    ∀ w ∈ links ++ [v], ∀ m ∈ p.nodes, w.site = some m.number →
      (s.memory.instance? same m.parent w.parentKey).isSome := by
  intro w hw m hm hat
  rw [List.mem_append, List.mem_singleton] at hw
  rcases hw with hw | rfl
  · exact h.parents w hw m hm hat
  · have heq : n = m := hsound.eq_of_number_eq hn hm (Option.some.inj (hsite.symm.trans hat))
    exact heq ▸ hparent

-- A collection that holds the key already stays as it is.
theorem link_again (h : Graph keys same p places links s) (hsound : p.Sound registry)
    (hn : n ∈ p.nodes) (hsite : v.site = some n.number)
    (hparent : (s.memory.instance? same n.parent v.parentKey).isSome) (hcollection : n.isCollection)
    (hlinked : s.memory.isLinked same n.number v.parentKey v.key) :
    Graph keys same p places (links ++ [v]) s := by
  have hknown := hlinked
  rw [h.linked n hn v.parentKey v.key hcollection] at hknown
  constructor
  case classes => exact h.classes
  case known => exact h.known
  case absent => exact h.absent
  case placed => exact h.placed
  case apart => exact h.apart
  case navigable => exact h.navigable
  case parents => exact h.parents_link hsound hn hsite hparent
  case roots => exact h.roots
  case linked =>
    intro m hm parentKey key hmany
    rw [h.linked m hm parentKey key hmany]
    by_cases hself : m = n ∧ same v.parentKey parentKey = true
    · obtain ⟨rfl, hbelow⟩ := hself
      rw [keysBelow_link_self hsite hbelow, List.any_append, List.any_cons, List.any_nil,
        Bool.or_false]
      cases hkey : same v.key key with
      | false => rw [Bool.or_false]
      | true =>
        rw [Bool.or_true, ← Visit.keysBelow_congr h.classes hbelow]
        simpa only [h.classes.congr_right hkey] using hknown
    · rw [keysBelow_link hsound hn hm hsite (by
        cases hb : same v.parentKey parentKey <;> simp_all)]
  case targets =>
    intro m hm key id i hid hi
    rw [h.targets m hm key id i hid hi]
    by_cases hself : m = n ∧ same v.parentKey key = true
    · obtain ⟨rfl, hbelow⟩ := hself
      rw [keysBelow_link_self hsite hbelow, ← Visit.keysBelow_congr h.classes hbelow,
        Node.held_append_singleton h.classes, if_pos hcollection, if_pos hknown, Node.held,
        if_pos hcollection]
    · rw [keysBelow_link hsound hn hm hsite (by
        cases hb : same v.parentKey key <;> simp_all)]

-- The state after a key is noted for a collection and its instance is linked.
def linking (s : State) (n : Node) (parent : InstanceId) (v : Visit) (related : InstanceId) : State :=
  { s with
    memory :=
      if n.isCollection then
        { s.memory with linked := s.memory.linked ++ [(n.number, v.parentKey, v.key)] }
      else s.memory
    store := s.store.update parent (·.link n.navigation related) }

theorem instance?_linking (s : State) (n : Node) (parent : InstanceId) (v : Visit)
    (related : InstanceId) (site : Option Nat) (key : Value) :
    (linking s n parent v related).memory.instance? same site key =
      s.memory.instance? same site key := by
  simp only [linking]
  split
  · cases site <;> rfl
  · rfl

theorem roots_linking (s : State) (n : Node) (parent : InstanceId) (v : Visit)
    (related : InstanceId) :
    (linking s n parent v related).memory.roots = s.memory.roots := by
  simp only [linking]
  split <;> rfl

-- The parent alone has changed in the store.
theorem get?_linking (s : State) (n : Node) (parent : InstanceId) (v : Visit)
    (related id : InstanceId) :
    (linking s n parent v related).store.get? id =
      (s.store.get? id).map fun i => if parent = id then i.link n.navigation related else i := by
  simp only [linking, Store.get?_update]
  split
  · rfl
  · rw [Option.map_id']

theorem placed_linking (h : Graph keys same p places links s) {site : Option Nat}
    (hfirst : firstAt same places site key = some w) : ∃ id i j,
      (linking s n parent v related).memory.instance? same site key = some id ∧
        (linking s n parent v related).store.get? id = some i ∧ w.reading = .ok j ∧
        i.type = j.type ∧ i.values = j.values := by
  obtain ⟨id, i, j, hid, hi, hread, htype, hvalues⟩ := h.placed site key w hfirst
  refine ⟨id, if parent = id then i.link n.navigation related else i, j,
    (instance?_linking s n parent v related site key).trans hid, ?_, hread, ?_, ?_⟩
  · rw [get?_linking, hi, Option.map_some]
  · split
    · rw [Instance.type_link, htype]
    · exact htype
  · split
    · rw [Instance.values_link, hvalues]
    · exact hvalues

theorem linked_linking (h : Graph keys same p places links s) (hsound : p.Sound registry)
    (hn : n ∈ p.nodes) (hsite : v.site = some n.number) (hm : m ∈ p.nodes)
    (hmany : m.isCollection) :
    (linking s n parent v related).memory.isLinked same m.number parentKey key =
      (keysBelow same (links ++ [v]) (some m.number) parentKey).any (same · key) := by
  have hbefore := h.linked m hm parentKey key hmany
  simp only [linking]
  by_cases hcollection : n.isCollection
  · rw [if_pos hcollection, Visit.keysBelow_append_singleton, List.any_append, ← hbefore]
    simp only [Memory.isLinked, List.any_append, hsite]
    by_cases hnumber : n.number = m.number <;>
      cases hb : same v.parentKey parentKey <;> simp [hnumber, hb]
  · have hne : m ≠ n := by
      rintro rfl
      exact hcollection hmany
    rw [if_neg hcollection, keysBelow_link hsound hn hm hsite (.inl hne)]
    exact hbefore

-- At the parent of the visit, below a key of its class, one navigation changes.
theorem targets_linking_parent (h : Graph keys same p places links s) (hsound : p.Sound registry)
    (hn : n ∈ p.nodes) (hsite : v.site = some n.number)
    (hparent : s.memory.instance? same n.parent v.parentKey = some parent)
    (hrelated : s.memory.instance? same (some n.number) v.key = some related)
    (hnew : n.isCollection → s.memory.isLinked same n.number v.parentKey v.key = false)
    (hm : m ∈ p.nodes) {i : Instance} (hid : s.memory.instance? same m.parent key = some parent)
    (hi : s.store.get? parent = some i) :
    ((i.link n.navigation related).linked m.navigation).map some =
      (m.held same (keysBelow same (links ++ [v]) (some m.number) key)).map
        (s.memory.instance? same (some m.number)) := by
  have hbefore := h.targets m hm key parent i hid hi
  obtain ⟨hup, hbelow⟩ := h.apart _ _ _ _ _ hparent hid
  by_cases hnode : m = n
  · subst hnode
    rw [Instance.linked_link_self (h.navigable m hm key parent i hid hi),
      keysBelow_link_self hsite hbelow, Node.held_append_singleton h.classes]
    by_cases hcollection : m.isCollection
    · have hunknown := hnew hcollection
      rw [h.linked m hm v.parentKey v.key hcollection, Visit.keysBelow_congr h.classes hbelow]
        at hunknown
      rw [Node.held, if_pos hcollection] at hbefore
      have hmany : m.navigation.isCollection = true := hcollection
      rw [if_pos hmany, if_pos hcollection, hunknown, List.map_append, hbefore]
      simp [hrelated]
    · have hone : ¬m.navigation.isCollection = true := hcollection
      rw [if_neg hone, if_neg hcollection]
      simp [hrelated]
  · have hproperty : m.navigation.property ≠ n.navigation.property := by
      intro hsame
      exact hnode (hsound.siblings m hm n hn hup.symm hsame)
    rw [Instance.linked_link_other hproperty, keysBelow_link hsound hn hm hsite (.inl hnode)]
    exact hbefore

theorem keysIn_linking (h : s.memory.KeysIn keys) (hkeys : v.parentKey ∈ keys ∧ v.key ∈ keys)
    (n : Node) (parent related : InstanceId) :
    (linking s n parent v related).memory.KeysIn keys := by
  simp only [linking]
  split
  · exact ⟨h.roots, h.related, List.forall_mem_append.mpr ⟨h.linked, by simpa using hkeys⟩⟩
  · exact h

theorem link_new (h : Graph keys same p places links s) (hsound : p.Sound registry)
    (hkeys : v.parentKey ∈ keys ∧ v.key ∈ keys) (hn : n ∈ p.nodes) (hsite : v.site = some n.number)
    (hparent : s.memory.instance? same n.parent v.parentKey = some parent)
    (hrelated : s.memory.instance? same (some n.number) v.key = some related)
    (hnew : n.isCollection → s.memory.isLinked same n.number v.parentKey v.key = false) :
    Graph keys same p places (links ++ [v]) (linking s n parent v related) where
  classes := h.classes
  known := keysIn_linking h.known hkeys n parent related
  absent := by
    intro site key hfirst
    rw [instance?_linking]
    exact h.absent site key hfirst
  placed _ _ _ := h.placed_linking
  apart := by
    intro site site' key key' id hid hid'
    rw [instance?_linking] at hid hid'
    exact h.apart site site' key key' id hid hid'
  navigable := by
    intro m hm key id i hid hi
    rw [instance?_linking] at hid
    rw [get?_linking, Option.map_eq_some_iff] at hi
    obtain ⟨i', hi', rfl⟩ := hi
    have hbefore := h.navigable m hm key id i' hid hi'
    split
    · exact (Instance.navigable_link n.navigation related).mpr hbefore
    · exact hbefore
  parents := by
    intro w hw m hm hat
    rw [instance?_linking]
    exact h.parents_link hsound hn hsite (by rw [hparent]; rfl) w hw m hm hat
  roots := by
    rw [roots_linking]
    exact h.roots
  linked _ hm _ _ := h.linked_linking hsound hn hsite hm
  targets := by
    intro m hm key id i hid hi
    rw [instance?_linking] at hid
    rw [get?_linking, Option.map_eq_some_iff] at hi
    obtain ⟨i', hi', rfl⟩ := hi
    rw [funext (instance?_linking s n parent v related _)]
    by_cases heq : parent = id
    · subst heq
      rw [if_pos rfl]
      exact h.targets_linking_parent hsound hn hsite hparent hrelated hnew hm hid hi'
    · rw [if_neg heq]
      have hother : m ≠ n ∨ same v.parentKey key = false := by
        by_cases hnode : m = n
        · subst hnode
          right
          rw [← Bool.not_eq_true]
          intro hbelow
          rw [Memory.instance?_congr h.classes hbelow, hid] at hparent
          exact heq (Option.some.inj hparent).symm
        · exact .inl hnode
      rw [keysBelow_link hsound hn hm hsite hother]
      exact h.targets m hm key id i' hid hi'

-- A visit of the root is below nothing.
theorem link_root (h : Graph keys same p places links s) (hsite : v.site = none) :
    Graph keys same p places (links ++ [v]) s := by
  have hkeys : ∀ (n : Node) (parentKey : Value),
      keysBelow same (links ++ [v]) (some n.number) parentKey =
        keysBelow same links (some n.number) parentKey := by
    intro n parentKey
    rw [Visit.keysBelow_append_singleton, if_neg (by simp [hsite]), List.append_nil]
  constructor
  case classes => exact h.classes
  case known => exact h.known
  case absent => exact h.absent
  case placed => exact h.placed
  case apart => exact h.apart
  case navigable => exact h.navigable
  case roots => exact h.roots
  case parents =>
    intro w hw n hn hat
    rw [List.mem_append, List.mem_singleton] at hw
    rcases hw with hw | rfl
    · exact h.parents w hw n hn hat
    · rw [hsite] at hat
      cases hat
  case linked =>
    intro n hn parentKey key hmany
    rw [hkeys]
    exact h.linked n hn parentKey key hmany
  case targets =>
    intro n hn key id i hid hi
    rw [hkeys]
    exact h.targets n hn key id i hid hi

end Linking

end Graph

end EntitySql.Materializer
