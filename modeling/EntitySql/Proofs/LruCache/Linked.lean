import EntitySql.LruCache
import Mathlib.Data.List.Basic
import Mathlib.Data.List.Nodup

-- The list and the map of a cache. They hold the same keys, and the node that an
-- entry knows is the one of its own key; every operation keeps them so. What an
-- operation does to the keys is said in their order of use, the latest first.

namespace EntitySql.LruCache

variable {κ α : Type} [DecidableEq κ] {c : LruCache κ α} {key : κ} {slot : Slot α} {a : α}

-- Entries.

theorem dropOldest_sublist (capacity : Nat) (nodes : List (Node κ)) (table : List (κ × Slot α)) :
    (dropOldest capacity nodes table).2.Sublist table := by
  induction nodes generalizing table with
  | nil => exact .refl table
  | cons oldest newer ih =>
    rw [dropOldest]
    split
    · exact (ih _).trans List.filter_sublist
    · exact .refl table

theorem entries_evict_sublist (c : LruCache κ α) : c.evict.entries.Sublist c.entries :=
  (dropOldest_sublist c.capacity c.recency.reverse c.table).map _

theorem entries_setCapacity_subset (c : LruCache κ α) (capacity : Nat) :
    (c.setCapacity capacity).entries ⊆ c.entries :=
  (entries_evict_sublist { c with capacity := max capacity 1 }).subset

theorem mem_entries_of_lookup (h : c.table.lookup key = some slot) :
    (key, slot.value) ∈ c.entries := by
  obtain ⟨before, after, htable, -⟩ := List.lookup_eq_some_iff.mp h
  rw [entries, htable]
  simp

theorem mem_of_find? (h : c.find? key = some a) : (key, a) ∈ c.entries := by
  obtain ⟨slot, hslot, rfl⟩ := Option.map_eq_some_iff.mp h
  exact mem_entries_of_lookup hslot

theorem entries_insert_subset (c : LruCache κ α) (key : κ) (a : α) :
    ∀ e ∈ (c.insert key a).entries, e = (key, a) ∨ e ∈ c.entries := by
  intro e he
  exact List.mem_cons.mp ((entries_evict_sublist _).subset he)

-- The keys in order of use.

theorem filter_ne_eq_self {keys : List κ} (hkey : key ∉ keys) : keys.filter (· ≠ key) = keys :=
  List.filter_eq_self.mpr fun _ hk => decide_eq_true (ne_of_mem_of_not_mem hk hkey)

def keys (c : LruCache κ α) : List κ := c.recency.map Node.key

-- The node that an entry knows.
def nodeOf (e : κ × Slot α) : Node κ := ⟨e.2.node, e.1⟩

structure Linked (c : LruCache κ α) : Prop where
  nodes : (c.table.map nodeOf).Perm c.recency
  keys_nodup : c.keys.Nodup
  numbers_nodup : (c.recency.map Node.number).Nodup
  fresh : ∀ n ∈ c.recency, n.number < c.nextNode

namespace Linked

-- Capacity and counters play no part.
omit [DecidableEq κ] in
theorem congr {d : LruCache κ α} (h : c.Linked) (hrecency : d.recency = c.recency)
    (htable : d.table = c.table) (hnext : d.nextNode = c.nextNode) : d.Linked where
  nodes := by rw [hrecency, htable]; exact h.nodes
  keys_nodup := by rw [keys, hrecency]; exact h.keys_nodup
  numbers_nodup := by rw [hrecency]; exact h.numbers_nodup
  fresh := by rw [hrecency, hnext]; exact h.fresh

omit [DecidableEq κ] in
theorem keys_perm (h : c.Linked) : (c.table.map Prod.fst).Perm c.keys := by
  have hkeys := h.nodes.map Node.key
  rwa [List.map_map] at hkeys

omit [DecidableEq κ] in
theorem size_eq (h : c.Linked) : c.size = c.keys.length := by
  rw [size, ← h.keys_perm.length_eq, List.length_map]

variable (h : c.Linked)

include h

-- A key has one entry, and looking it up finds that one.
theorem lookup_eq_some_iff : c.table.lookup key = some slot ↔ (key, slot) ∈ c.table := by
  have hnodup : (c.table.map Prod.fst).Nodup := h.keys_perm.nodup_iff.mpr h.keys_nodup
  constructor
  · intro hlookup
    obtain ⟨before, after, htable, -⟩ := List.lookup_eq_some_iff.mp hlookup
    rw [htable]
    simp
  · intro hmem
    obtain ⟨before, after, htable⟩ := List.append_of_mem hmem
    refine List.lookup_eq_some_iff.mpr ⟨before, after, htable, fun e he => ?_⟩
    rw [htable, List.map_append, List.map_cons, List.nodup_append] at hnodup
    simpa using (hnodup.2.2 e.1 (List.mem_map_of_mem he) key (by simp)).symm

theorem find?_eq_some_iff : c.find? key = some a ↔ (key, a) ∈ c.entries := by
  rw [find?, Option.map_eq_some_iff, entries, List.mem_map]
  constructor
  · rintro ⟨slot, hslot, rfl⟩
    exact ⟨(key, slot), h.lookup_eq_some_iff.mp hslot, rfl⟩
  · rintro ⟨⟨_, slot⟩, hmem, heq⟩
    cases heq
    exact ⟨slot, h.lookup_eq_some_iff.mpr hmem, rfl⟩

theorem mem_keys_iff : key ∈ c.keys ↔ ∃ slot, c.table.lookup key = some slot := by
  rw [← h.keys_perm.mem_iff, List.mem_map]
  constructor
  · rintro ⟨⟨_, slot⟩, hmem, rfl⟩
    exact ⟨slot, h.lookup_eq_some_iff.mpr hmem⟩
  · rintro ⟨slot, hslot⟩
    exact ⟨(key, slot), h.lookup_eq_some_iff.mp hslot, rfl⟩

theorem not_mem_keys_iff : key ∉ c.keys ↔ c.table.lookup key = none := by
  rw [h.mem_keys_iff, ← Option.isSome_iff_exists, Option.not_isSome_iff_eq_none]

theorem mem_keys_iff_find? : key ∈ c.keys ↔ ∃ a, c.find? key = some a := by
  rw [h.mem_keys_iff]
  simp [find?]

-- The node of an entry stands once in the list.
theorem exists_recency_eq (hslot : c.table.lookup key = some slot) : ∃ before after,
    c.recency = before ++ ⟨slot.node, key⟩ :: after ∧
      ∀ n ∈ before ++ after, n.number ≠ slot.node ∧ n.key ≠ key := by
  have hnode : (⟨slot.node, key⟩ : Node κ) ∈ c.recency :=
    h.nodes.mem_iff.mp (List.mem_map.mpr ⟨_, h.lookup_eq_some_iff.mp hslot, rfl⟩)
  obtain ⟨before, after, hrecency⟩ := List.append_of_mem hnode
  refine ⟨before, after, hrecency, fun n hn => ?_⟩
  have hnumbers := h.numbers_nodup
  have hkeys := h.keys_nodup
  rw [hrecency, (List.perm_middle.map Node.number).nodup_iff, List.map_cons, List.nodup_cons]
    at hnumbers
  rw [keys, hrecency, (List.perm_middle.map Node.key).nodup_iff, List.map_cons, List.nodup_cons]
    at hkeys
  constructor
  · rintro heq
    exact hnumbers.1 (List.mem_map.mpr ⟨n, hn, heq⟩)
  · rintro heq
    exact hkeys.1 (List.mem_map.mpr ⟨n, hn, heq⟩)

-- Moving a node to the front.

theorem recency_touch (hslot : c.table.lookup key = some slot) :
    (c.touch slot).recency = ⟨slot.node, key⟩ :: c.recency.filter fun n => n.key ≠ key := by
  obtain ⟨before, after, hrecency, hothers⟩ := h.exists_recency_eq hslot
  obtain ⟨hbefore, hafter⟩ := List.forall_mem_append.mp hothers
  have hmoved (l : List (Node κ)) (hl : ∀ n ∈ l, n.number ≠ slot.node ∧ n.key ≠ key) :
      l.filter (fun n => n.number = slot.node) = [] :=
    List.filter_eq_nil_iff.mpr fun n hn => by simp [(hl n hn).1]
  have hnumber (l : List (Node κ)) (hl : ∀ n ∈ l, n.number ≠ slot.node ∧ n.key ≠ key) :
      l.filter (fun n => !decide (n.number = slot.node)) = l :=
    List.filter_eq_self.mpr fun n hn => by simp [(hl n hn).1]
  have hkey (l : List (Node κ)) (hl : ∀ n ∈ l, n.number ≠ slot.node ∧ n.key ≠ key) :
      l.filter (fun n => !decide (n.key = key)) = l :=
    List.filter_eq_self.mpr fun n hn => by simp [(hl n hn).2]
  rw [touch, List.partition_eq_filter_filter, hrecency]
  simp [hmoved _ hbefore, hmoved _ hafter, hnumber _ hbefore, hnumber _ hafter, hkey _ hbefore,
    hkey _ hafter, Function.comp_def]

theorem keys_touch (hslot : c.table.lookup key = some slot) :
    (c.touch slot).keys = key :: c.keys.filter (· ≠ key) := by
  rw [keys, h.recency_touch hslot, List.map_cons, keys, List.filter_map]
  rfl

omit [DecidableEq κ] in
theorem touch (slot : Slot α) : (c.touch slot).Linked := by
  have hperm : (c.touch slot).recency.Perm c.recency := by
    rw [LruCache.touch, List.partition_eq_filter_filter]
    exact List.filter_append_perm _ _
  exact
    { nodes := h.nodes.trans hperm.symm
      keys_nodup := (hperm.map Node.key).nodup_iff.mpr h.keys_nodup
      numbers_nodup := (hperm.map Node.number).nodup_iff.mpr h.numbers_nodup
      fresh := fun n hn => h.fresh n (hperm.mem_iff.mp hn) }

-- Dropping the oldest nodes.

omit h in
theorem nodes_without {oldest : Node κ} {newer : List (Node κ)} {table : List (κ × Slot α)}
    (hnodes : (table.map nodeOf).Perm (oldest :: newer))
    (hkeys : ((oldest :: newer).map Node.key).Nodup) :
    ((without oldest.key table).map nodeOf).Perm newer := by
  rw [List.map_cons, List.nodup_cons] at hkeys
  have hnewer : newer.filter (fun n => !decide (n.key = oldest.key)) = newer := by
    refine List.filter_eq_self.mpr fun n hn => ?_
    have hne : n.key ≠ oldest.key := fun heq => hkeys.1 (heq ▸ List.mem_map_of_mem hn)
    simp [hne]
  have hfilter := hnodes.filter fun n => !decide (n.key = oldest.key)
  rw [List.filter_map, List.filter_cons_of_neg (by simp), hnewer] at hfilter
  exact hfilter

-- By induction on the nodes: as long as there are too many, one goes with its entry.
omit h in
theorem dropOldest_eq (capacity : Nat) {nodes : List (Node κ)} {table : List (κ × Slot α)}
    (hnodes : (table.map nodeOf).Perm nodes) (hkeys : (nodes.map Node.key).Nodup) :
    (dropOldest capacity nodes table).1 = nodes.drop (nodes.length - capacity) ∧
      ((dropOldest capacity nodes table).2.map nodeOf).Perm
        (dropOldest capacity nodes table).1 := by
  induction nodes generalizing table with
  | nil => exact ⟨by simp [dropOldest], hnodes⟩
  | cons oldest newer ih =>
    have hlength : table.length = newer.length + 1 := by simpa using hnodes.length_eq
    rw [dropOldest]
    by_cases hfull : capacity < table.length
    · rw [if_pos hfull]
      obtain ⟨hdrop, hrest⟩ := ih (nodes_without hnodes hkeys) (List.nodup_cons.mp hkeys).2
      refine ⟨hdrop.trans ?_, hrest⟩
      have hone : (oldest :: newer).length - capacity = (newer.length - capacity) + 1 := by
        rw [List.length_cons]
        omega
      rw [hone, List.drop_succ_cons]
    · rw [if_neg hfull]
      have hzero : (oldest :: newer).length - capacity = 0 := by
        rw [List.length_cons]
        omega
      rw [hzero, List.drop_zero]
      exact ⟨rfl, hnodes⟩

theorem recency_evict : c.evict.recency = c.recency.take c.capacity ∧
    (c.evict.table.map nodeOf).Perm c.evict.recency := by
  have hnodes := h.nodes.trans (List.reverse_perm c.recency).symm
  have hkeys : (c.recency.reverse.map Node.key).Nodup := by
    rw [List.map_reverse, List.nodup_reverse]
    exact h.keys_nodup
  obtain ⟨hdrop, hrest⟩ := dropOldest_eq c.capacity hnodes hkeys
  refine ⟨?_, hrest.trans (List.reverse_perm _).symm⟩
  have hreverse : c.evict.recency = (dropOldest c.capacity c.recency.reverse c.table).1.reverse := rfl
  rw [hreverse, hdrop, List.drop_reverse, List.reverse_reverse, List.length_reverse,
    List.take_eq_take_iff]
  omega

theorem evict : c.evict.Linked := by
  obtain ⟨hrecency, hnodes⟩ := h.recency_evict
  have hsublist : c.evict.recency.Sublist c.recency := hrecency ▸ List.take_sublist _ _
  exact
    { nodes := hnodes
      keys_nodup := (hsublist.map Node.key).nodup h.keys_nodup
      numbers_nodup := (hsublist.map Node.number).nodup h.numbers_nodup
      fresh := fun n hn => h.fresh n (hsublist.subset hn) }

theorem keys_evict : c.evict.keys = c.keys.take c.capacity := by
  rw [keys, h.recency_evict.1, keys, List.map_take]

-- What is kept keeps its value.
theorem find?_evict (hkey : key ∈ c.evict.keys) : c.evict.find? key = c.find? key := by
  obtain ⟨a, ha⟩ := h.evict.mem_keys_iff_find?.mp hkey
  have hentry := (entries_evict_sublist c).subset (h.evict.find?_eq_some_iff.mp ha)
  rw [ha, h.find?_eq_some_iff.mpr hentry]

-- Adding a node in front.

omit [DecidableEq κ] in
theorem push (hkey : key ∉ c.keys) (a : α) : (c.push key a).Linked where
  nodes := h.nodes.cons _
  keys_nodup := List.nodup_cons.mpr ⟨hkey, h.keys_nodup⟩
  numbers_nodup := by
    refine List.nodup_cons.mpr ⟨fun hmem => ?_, h.numbers_nodup⟩
    obtain ⟨n, hn, hnumber⟩ := List.mem_map.mp hmem
    exact absurd hnumber (Nat.ne_of_lt (h.fresh n hn))
  fresh := by
    refine List.forall_mem_cons.mpr ⟨Nat.lt_succ_self _, fun n hn => ?_⟩
    exact Nat.lt_succ_of_lt (h.fresh n hn)

omit h in
theorem find?_push (c : LruCache κ α) (key k : κ) (a : α) :
    (c.push key a).find? k = if k = key then some a else c.find? k := by
  rw [find?, LruCache.push, List.lookup_cons]
  by_cases hk : k = key
  · simp [hk]
  · rw [if_neg hk, beq_false_of_ne hk]
    rfl

end Linked

-- A cache whose list and map agree and do not hold too many keys.
structure Sound (c : LruCache κ α) : Prop extends c.Linked where
  positive : 1 ≤ c.capacity
  bounded : c.size ≤ c.capacity

theorem Linked.sound_evict (h : c.Linked) (hpositive : 1 ≤ c.capacity) : c.evict.Sound where
  toLinked := h.evict
  positive := hpositive
  bounded := by
    rw [h.evict.size_eq, h.keys_evict, List.length_take]
    exact Nat.min_le_left _ _

omit [DecidableEq κ] in
theorem sound_new (capacity : Nat) : (new capacity : LruCache κ α).Sound where
  nodes := .nil
  keys_nodup := .nil
  numbers_nodup := .nil
  fresh := by simp [new]
  positive := Nat.le_max_right _ _
  bounded := Nat.zero_le _

end EntitySql.LruCache
