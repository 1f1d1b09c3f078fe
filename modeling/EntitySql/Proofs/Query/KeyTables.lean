import EntitySql.Proofs.Query.Groups
import EntitySql.Proofs.Value.Hash
import EntitySql.Rows.Materialize

-- The tables keyed by values: the instances of the root and of every include, the
-- keys linked below each parent, the index of the groups and the set of qualifying
-- keys. What they hold is listed by the memory and by the groups; laid out by
-- hashes, a table finds an entry for a key exactly if an equal key is listed.

namespace EntitySql

variable {f : HashFunctions} {α : Type}

namespace HashTable

-- The table has just the entries of the list.
def Lists (t : HashTable f α) (list : List (Value × α)) : Prop := ∀ e, e ∈ t.entries ↔ e ∈ list

theorem lists_empty : (empty f α).Lists [] := by
  intro e
  simp [entries, empty]

-- A key that is not found goes to the end of the list.
theorem Lists.insert {t : HashTable f α} {list : List (Value × α)} (h : t.Lists list) {key : Value}
    (hnone : t.find? key = none) (a : α) : (t.insert key a).Lists (list ++ [(key, a)]) := by
  intro e
  rw [mem_entries_insert, List.mem_append, List.mem_singleton, h e]
  simp [hnone]

end HashTable

namespace Memory

-- The instances of one include, the parents with something linked below them, and
-- the keys linked below one parent.

def relatedOf (m : Memory) (node : Nat) : List (Value × InstanceId) :=
  (m.related.filter (·.1 = node)).map (·.2)

def parentsOf (m : Memory) (node : Nat) : List Value :=
  (m.linked.filter (·.1 = node)).map (·.2.1)

def linkedBelow (m : Memory) (same : Value → Value → Bool) (node : Nat) (parentKey : Value) :
    List Value :=
  (m.linked.filter fun e => e.1 = node && same e.2.1 parentKey).map (·.2.2)

end Memory

namespace Query

namespace Group

def index (groups : List Group) : List (Value × Nat) :=
  groups.zipIdx.map fun p => (p.1.key, p.2)

variable {same : Value → Value → Bool}

theorem any_index (groups : List Group) (key : Value) :
    ((index groups).any fun e => same e.1 key) = (groups.map (·.key)).any (same · key) := by
  have hkeys : (index groups).map (·.1) = groups.map (·.key) :=
    calc (index groups).map (·.1)
      _ = (groups.zipIdx.map Prod.fst).map (·.key) := by rw [index, List.map_map, List.map_map]; rfl
      _ = groups.map (·.key) := by rw [List.zipIdx_map_fst]
  rw [← hkeys, List.any_map]
  rfl

-- No group has been made exactly if there is one of the key.
theorem length_add_beq (key : Value) (item : InstanceId) (groups : List Group) :
    ((add same key item groups).length == groups.length) =
      (groups.map (·.key)).any (same · key) := by
  have hlength := congrArg List.length (keys_add same key item groups)
  rw [List.length_map] at hlength
  cases hany : (groups.map (·.key)).any (same · key) with
  | true =>
    rw [hany, if_pos rfl, List.length_map] at hlength
    rw [hlength, beq_self_eq_true]
  | false =>
    rw [hany, if_neg Bool.false_ne_true, List.length_append, List.length_map] at hlength
    rw [hlength, beq_eq_false_iff_ne]
    exact Nat.succ_ne_self _

end Group

end Query

-- However its entries stand in buckets, a table that has them finds one for a key
-- exactly if an equal key is among them, and this is the answer that is given.
def FindsIn (f : HashFunctions) (list : List (Value × α)) (found : Value → Bool) : Prop :=
  ∀ t : HashTable f α, t.Lists list → ∀ key,
    ((t.find? key).isSome = true ↔ ∃ e ∈ list, e.1.same key = true) ∧
      found key = (t.find? key).isSome

theorem findsIn_of_any (hf : f.RespectsEquality) {list : List (Value × α)} {found : Value → Bool}
    (hfound : ∀ key, found key = list.any (·.1.sameKey f key)) : FindsIn f list found := by
  intro t ht key
  have hiff : (t.find? key).isSome = true ↔ ∃ e ∈ list, e.1.same key = true := by
    rw [HashTable.isSome_find?_iff hf]
    exact exists_congr fun e => and_congr_left fun _ => ht e
  refine ⟨hiff, ?_⟩
  rw [hfound, Bool.eq_iff_iff, hiff, List.any_eq_true]
  exact exists_congr fun e => by rw [Value.sameKey_eq_same hf]

-- Equal keys hash alike and find the same entries. A key that is put in is found
-- under every equal key from then on, and so is the key itself. Documents need care:
-- the entry that stood there already may equal the one key and not the other.
structure FindsEqualKeys (f : HashFunctions) : Prop where
  hash : ∀ a b : Value, a.same b = true → a.hash f = b.hash f
  stored : ∀ {α : Type} (t : HashTable f α) (stored key : Value) (a : α) changes,
    stored.same key = true → t.find? stored = none ∨ key.holdsDocument = false →
      (((t.insert stored a).run changes).find? key).isSome = true
  itself : ∀ {α : Type} (t : HashTable f α) (key : Value) (a : α) changes, key.holdsNan = false →
    (((t.insert key a).run changes).find? key).isSome = true
  roots : ∀ m : Memory, FindsIn f m.roots fun key => (m.root? (Value.sameKey f) key).isSome
  related : ∀ (m : Memory) node,
    FindsIn f (m.relatedOf node) fun key => (m.related? (Value.sameKey f) node key).isSome
  parents : ∀ (m : Memory) node (keysOf : Value → HashTable f Unit),
    FindsIn f ((m.parentsOf node).map fun p => (p, keysOf p)) fun key =>
      !(m.linkedBelow (Value.sameKey f) node key).isEmpty
  linked : ∀ (m : Memory) node parentKey,
    FindsIn f ((m.linkedBelow (Value.sameKey f) node parentKey).map (·, ()))
      (m.isLinked (Value.sameKey f) node parentKey)
  index : ∀ groups item, FindsIn f (Query.Group.index groups) fun key =>
    (Query.Group.add (Value.sameKey f) key item groups).length == groups.length
  qualifying : ∀ keys : List Value,
    FindsIn f (keys.map (·, ())) fun key => keys.any (·.sameKey f key)
  -- The set of them keeps one of equal keys.
  kept : ∀ (keys : List Value) key, key.holdsDocument = false →
    (firstKeys (Value.sameKey f) keys).any (·.sameKey f key) = keys.any (·.sameKey f key)

theorem finds_equal_keys (hf : f.RespectsEquality) : FindsEqualKeys f where
  hash _ _ := Value.hash_eq_of_same hf
  stored _ _ _ a changes h hproper :=
    have ⟨_, he, hsame⟩ := HashTable.exists_mem_entries_insert h hproper a
    HashTable.isSome_find?_run hf he hsame changes
  itself _ _ a changes hnan :=
    have ⟨_, he, hsame⟩ := HashTable.exists_mem_entries_insert_self hnan a
    HashTable.isSome_find?_run hf he hsame changes
  roots m := findsIn_of_any hf fun key => by
    rw [Memory.root?, Option.isSome_map, List.isSome_find?]
  related m node := findsIn_of_any hf fun key => by
    rw [Memory.related?, Option.isSome_map, List.isSome_find?, Memory.relatedOf, List.any_map,
      List.any_filter]
    rfl
  parents m node keysOf := findsIn_of_any hf fun key => by
    rw [Memory.linkedBelow, Memory.parentsOf, List.isEmpty_map, List.map_map, List.any_map,
      List.any_filter, Bool.eq_iff_iff]
    simp
  linked m node parentKey := findsIn_of_any hf fun key => by
    rw [Memory.isLinked, Memory.linkedBelow, List.map_map, List.any_map, List.any_filter]
    rfl
  index groups item := findsIn_of_any hf fun key => by
    rw [Query.Group.any_index, Query.Group.length_add_beq]
  qualifying keys := findsIn_of_any hf fun key => by
    rw [List.any_map]
    rfl
  kept keys _ hplain := any_firstKeys_of_plain f keys hplain

-- A meeting under its time in one zone is found under its time in another.

def plainHashes : HashFunctions where
  size n := n
  bool b := if b then 1 else 0
  int n := n.toUInt64
  double _ := 0
  string t := Hash.combineBytes 0 t
  json _ := 0

def meetingKey : Value := .array [.timestamp ⟨36000000000, true, 120⟩, .int 7]

def meetingKeyUtc : Value := .array [.timestamp ⟨28800000000, true, 0⟩, .int 7]

theorem finds_equal_keys_meetings :
    meetingKey ≠ meetingKeyUtc ∧ meetingKey.hash plainHashes = meetingKeyUtc.hash plainHashes ∧
      (∀ t : HashTable plainHashes InstanceId, t.Lists [(meetingKey, 0)] →
        (t.find? meetingKeyUtc).isSome = true) ∧
      (({ roots := [(meetingKey, 0)] } : Memory).root? (Value.sameKey plainHashes)
        meetingKeyUtc).isSome = true := by
  have hf : plainHashes.RespectsEquality := ⟨fun _ _ _ => rfl, fun _ _ _ => rfl⟩
  have hsame : meetingKey.same meetingKeyUtc = true := by decide
  have hroots := (finds_equal_keys hf).roots { roots := [(meetingKey, 0)] }
  have hfound (t : HashTable plainHashes InstanceId) (ht : t.Lists [(meetingKey, 0)]) :
      (t.find? meetingKeyUtc).isSome = true :=
    (hroots t ht meetingKeyUtc).1.mpr ⟨_, List.mem_singleton_self _, hsame⟩
  let t := (HashTable.empty plainHashes InstanceId).insert meetingKey 0
  have ht : t.Lists [(meetingKey, 0)] := HashTable.lists_empty.insert rfl 0
  exact ⟨nofun, (finds_equal_keys hf).hash _ _ hsame, hfound,
    (hroots t ht meetingKeyUtc).2.trans (hfound t ht)⟩

end EntitySql
