import EntitySql.Proofs.LruCache.Events
import Mathlib.Data.List.Induction

-- Runs of a cache. The calls, with those that their factories make in turn,
-- leave a log of events, and whatever the calls are, the cache holds the keys
-- that have been used last, with the values that were stored first.

namespace EntitySql.LruCache

variable {κ α ε : Type} [DecidableEq κ]

-- A factory may call the cache before it makes something or fails.
inductive Call (κ α ε : Type) where
  | getOrAdd (key : κ) (inner : List (Call κ α ε)) (made : Except ε α)
  | tryAdd (key : κ) (a : α)
  | find (key : κ)
  | setCapacity (capacity : Nat)
  | clear

mutual

def Call.run : Call κ α ε → LruCache κ α → LruCache κ α
  | .getOrAdd key inner made, c => (c.getOrMake key fun c => (made, runAll inner c)).2
  | .tryAdd key a, c => (c.tryAdd key a).1
  | .find _, c => c
  | .setCapacity capacity, c => c.setCapacity capacity
  | .clear, c => c.clear

def Call.runAll : List (Call κ α ε) → LruCache κ α → LruCache κ α
  | [], c => c
  | call :: rest, c => runAll rest (call.run c)

end

-- What a factory has made is stored, and a failure is not.
def stored (key : κ) : Except ε α → List (Event κ α)
  | .ok a => [.store key a]
  | .error _ => []

mutual

def Call.log : Call κ α ε → LruCache κ α → List (Event κ α)
  | .getOrAdd key inner made, c =>
    .lookUp key ::
      match c.lookUp key with
      | (some _, _) => []
      | (none, c) => logAll inner c ++ stored key made
  | .tryAdd key a, _ => [.tryAdd key a]
  | .find key, _ => [.find key]
  | .setCapacity capacity, _ => [.setCapacity capacity]
  | .clear, _ => [.clear]

def Call.logAll : List (Call κ α ε) → LruCache κ α → List (Event κ α)
  | [], _ => []
  | call :: rest, c => call.log c ++ logAll rest (call.run c)

end

def replay (c : LruCache κ α) (log : List (Event κ α)) : LruCache κ α := log.foldl Event.run c

-- The log of a call does what the call does, whatever its factories call in turn.

theorem replay_append (c : LruCache κ α) (log more : List (Event κ α)) :
    replay c (log ++ more) = replay (replay c log) more :=
  List.foldl_append

mutual

theorem Call.replay_log (call : Call κ α ε) (c : LruCache κ α) :
    replay c (call.log c) = call.run c := by
  cases call with
  | getOrAdd key inner made =>
    rw [Call.log, Call.run, LruCache.getOrMake]
    have hfirst (log : List (Event κ α)) :
        replay c (.lookUp key :: log) = replay (c.lookUp key).2 log := rfl
    rw [hfirst]
    cases c.lookUp key with
    | mk found d =>
      cases found with
      | some a => rfl
      | none =>
        dsimp only
        rw [replay_append, Call.replay_logAll inner d]
        cases made <;> rfl
  | tryAdd key a => rfl
  | find key => rfl
  | setCapacity capacity => rfl
  | clear => rfl

theorem Call.replay_logAll (calls : List (Call κ α ε)) (c : LruCache κ α) :
    replay c (logAll calls c) = runAll calls c := by
  cases calls with
  | nil => rfl
  | cons call rest =>
    rw [Call.logAll, Call.runAll, replay_append, Call.replay_log call c,
      Call.replay_logAll rest (call.run c)]

end

-- What can be read off a log.

-- The keys that have been used, the latest use first.
def uses (log : List (Event κ α)) : List κ := (log.filterMap Event.used?).reverse

-- Keys may be used often; what counts is the last time.
def UsedLater (log : List (Event κ α)) (k j : κ) : Prop := (uses log).idxOf k < (uses log).idxOf j

def lastCapacity (capacity : Nat) (log : List (Event κ α)) : Nat :=
  ((log.filterMap Event.capacity?).getLast?).getD capacity

def askedSinceClear (log : List (Event κ α)) : Nat := log.foldl Event.asked 0

-- The cache after the log, and what one more event does to it. A value is offered
-- where it is stored if its key is missing.
structure Kept (capacity : Nat) (log : List (Event κ α)) (c : LruCache κ α) : Prop where
  same_keys : (c.table.map Prod.fst).Perm c.keys
  once : c.keys.Nodup
  found : ∀ k, k ∈ c.keys ↔ ∃ a, c.find? k = some a
  bounded : c.size ≤ c.capacity
  capacity_eq : c.capacity = max (lastCapacity capacity log) 1
  counted : c.hits + c.misses = askedSinceClear log
  used : ∀ k ∈ c.keys, k ∈ uses log
  evicts : ∀ (e : Event κ α) key a, e.offered? = some (key, a) → key ∉ c.keys →
    c.size = c.capacity → ∃ oldest ∈ c.keys,
      (∀ k ∈ c.keys, k ≠ oldest → UsedLater log k oldest) ∧
        ∀ k, k ∈ (e.run c).keys ↔ k = key ∨ k ∈ c.keys ∧ k ≠ oldest
  admits : ∀ (e : Event κ α) key a, e.offered? = some (key, a) → key ∉ c.keys →
    c.size < c.capacity → ∀ k, k ∈ (e.run c).keys ↔ k = key ∨ k ∈ c.keys
  shrinks : ∀ n, (c.setCapacity n).size = min c.size (max n 1) ∧
    (∀ k ∈ (c.setCapacity n).keys, k ∈ c.keys) ∧
    ∀ k ∈ (c.setCapacity n).keys, ∀ j ∈ c.keys, j ∉ (c.setCapacity n).keys → UsedLater log k j
  keeps : ∀ (e : Event κ α) k a, c.find? k = some a → k ∈ (e.run c).keys →
    (e.run c).find? k = some a
  stores : ∀ (e : Event κ α) k, k ∉ c.keys → k ∈ (e.run c).keys →
    ∃ a, e.offered? = some (k, a) ∧ (e.run c).find? k = some a
  answers : ∀ key a, (c.lookUp key).1 = c.find? key ∧ (c.store key a).1 = (c.find? key).getD a ∧
    ((c.tryAdd key a).2 = true ↔ key ∉ c.keys)

omit [DecidableEq κ] in
theorem uses_concat (log : List (Event κ α)) (e : Event κ α) :
    uses (log ++ [e]) = e.used?.toList ++ uses log := by
  cases hused : e.used? <;> simp [uses, hused]

omit [DecidableEq κ] in
theorem lastCapacity_concat (capacity : Nat) (log : List (Event κ α)) (e : Event κ α) :
    lastCapacity capacity (log ++ [e]) = e.capacity?.getD (lastCapacity capacity log) := by
  cases hcapacity : e.capacity? <;> simp [lastCapacity, hcapacity]

theorem replay_concat (c : LruCache κ α) (log : List (Event κ α)) (e : Event κ α) :
    replay c (log ++ [e]) = e.run (replay c log) := by
  rw [replay_append]
  rfl

-- By induction on the log, with the last event taken off.

theorem sound_replay (capacity : Nat) (log : List (Event κ α)) :
    (replay (new capacity) log).Sound := by
  induction log using List.reverseRecOn with
  | nil => exact sound_new capacity
  | append_singleton log e ih =>
    rw [replay_concat]
    exact e.sound_run ih

theorem inOrder_replay (capacity : Nat) (log : List (Event κ α)) :
    InOrder (uses log) (replay (new capacity) log).keys := by
  induction log using List.reverseRecOn with
  | nil => exact ⟨by simp [replay, new, keys], .nil⟩
  | append_singleton log e ih =>
    rw [replay_concat, uses_concat, e.keys_run (sound_replay capacity log)]
    exact ih.order _ e

theorem capacity_replay (capacity : Nat) (log : List (Event κ α)) :
    (replay (new capacity) log).capacity = max (lastCapacity capacity log) 1 := by
  induction log using List.reverseRecOn with
  | nil => rfl
  | append_singleton log e ih =>
    rw [replay_concat, lastCapacity_concat, e.capacity_run, ih]
    cases e.capacity? <;> rfl

theorem asked_replay (capacity : Nat) (log : List (Event κ α)) :
    (replay (new capacity) log).hits + (replay (new capacity) log).misses = askedSinceClear log := by
  induction log using List.reverseRecOn with
  | nil => rfl
  | append_singleton log e ih =>
    rw [replay_concat, e.asked_run, ih, askedSinceClear, askedSinceClear, List.foldl_append]
    rfl

-- One more event.

section Next

variable {c : LruCache κ α} {key : κ} {a : α} {e : Event κ α} {log : List (Event κ α)}

theorem Event.order_of_offered {keys : List κ} (he : e.offered? = some (key, a))
    (hkey : key ∉ keys) (capacity : Nat) :
    e.order capacity keys = (key :: keys).take capacity := by
  cases e with
  | store key' a' =>
    cases he
    rw [order, filter_ne_eq_self hkey]
  | tryAdd key' a' =>
    cases he
    rw [order, filter_ne_eq_self hkey]
  | _ => cases he

variable (h : c.Sound) (horder : InOrder (uses log) c.keys)

include h horder

theorem exists_oldest (he : e.offered? = some (key, a)) (hkey : key ∉ c.keys)
    (hfull : c.size = c.capacity) :
    ∃ oldest ∈ c.keys, (∀ k ∈ c.keys, k ≠ oldest → UsedLater log k oldest) ∧
      ∀ k, k ∈ (e.run c).keys ↔ k = key ∨ k ∈ c.keys ∧ k ≠ oldest := by
  have hsize := h.size_eq
  have hpositive := h.positive
  obtain ⟨newer, oldest, hkeys⟩ : ∃ newer oldest, c.keys = newer ++ [oldest] := by
    rcases List.eq_nil_or_concat' c.keys with hnil | hkeys
    · rw [hnil, List.length_nil] at hsize
      omega
    · exact hkeys
  have hnew : (e.run c).keys = key :: newer := by
    have hlength : c.capacity = newer.length + 1 := by
      rw [← hfull, hsize, hkeys, List.length_append]
      rfl
    rw [e.keys_run h, Event.order_of_offered he hkey, hkeys, hlength, List.take_succ_cons,
      List.take_left]
  have hnodup := h.keys_nodup
  have hsorted := horder.sorted
  rw [hkeys, List.nodup_append] at hnodup
  rw [hkeys, List.pairwise_append] at hsorted
  have hne : ∀ k ∈ newer, k ≠ oldest := fun k hk => hnodup.2.2 k hk oldest (by simp)
  rw [hnew, hkeys]
  refine ⟨oldest, by simp, fun k hk hk' => ?_, fun k => ?_⟩
  · rcases List.mem_append.mp hk with hk | hk
    · exact hsorted.2.2 k hk oldest (by simp)
    · exact absurd (List.mem_singleton.mp hk) hk'
  · simp only [List.mem_cons, List.mem_append, List.not_mem_nil, or_false]
    grind

omit horder in
theorem mem_keys_of_room (he : e.offered? = some (key, a)) (hkey : key ∉ c.keys)
    (hroom : c.size < c.capacity) (k : κ) : k ∈ (e.run c).keys ↔ k = key ∨ k ∈ c.keys := by
  rw [h.size_eq] at hroom
  rw [e.keys_run h, Event.order_of_offered he hkey, List.take_of_length_le (by simpa), List.mem_cons]

theorem shrinks_to_latest (n : Nat) : (c.setCapacity n).size = min c.size (max n 1) ∧
    (∀ k ∈ (c.setCapacity n).keys, k ∈ c.keys) ∧
    ∀ k ∈ (c.setCapacity n).keys, ∀ j ∈ c.keys, j ∉ (c.setCapacity n).keys → UsedLater log k j := by
  rw [(h.setCapacity n).size_eq, h.size_eq, h.keys_setCapacity, List.length_take]
  refine ⟨Nat.min_comm _ _, fun k hk => List.mem_of_mem_take hk, fun k hk j hj hdropped => ?_⟩
  have hsorted := horder.sorted
  rw [← List.take_append_drop (max n 1) c.keys] at hj hsorted
  rcases List.mem_append.mp hj with hj | hj
  · exact absurd hj hdropped
  · exact (List.pairwise_append.mp hsorted).2.2 k hk j hj

omit horder in
theorem answers_first (key : κ) (a : α) :
    (c.lookUp key).1 = c.find? key ∧ (c.store key a).1 = (c.find? key).getD a ∧
      ((c.tryAdd key a).2 = true ↔ key ∉ c.keys) := by
  rw [h.not_mem_keys_iff]
  unfold lookUp store tryAdd find?
  cases c.table.lookup key <;> simp

end Next

theorem kept_replay (capacity : Nat) (log : List (Event κ α)) :
    Kept capacity log (replay (new capacity) log) := by
  have h := sound_replay capacity log
  have horder := inOrder_replay capacity log
  exact
    { same_keys := h.keys_perm
      once := h.keys_nodup
      found := fun _ => h.mem_keys_iff_find?
      bounded := h.bounded
      capacity_eq := capacity_replay capacity log
      counted := asked_replay capacity log
      used := horder.used
      evicts := fun _ _ _ => exists_oldest h horder
      admits := fun _ _ _ => mem_keys_of_room h
      shrinks := shrinks_to_latest h horder
      keeps := fun e _ _ => e.find?_run_of_mem h
      stores := fun e _ => e.find?_run_of_not_mem h
      answers := answers_first h }

-- As long as its key stays, a value stays.
theorem find?_replay {capacity : Nat} {log : List (Event κ α)} {k : κ} {a : α}
    (hfound : (replay (new capacity) log).find? k = some a) (more : List (Event κ α))
    (hstays : ∀ part, part <+: more → k ∈ (replay (new capacity) (log ++ part)).keys) :
    (replay (new capacity) (log ++ more)).find? k = some a := by
  induction more using List.reverseRecOn with
  | nil => rwa [List.append_nil]
  | append_singleton more e ih =>
    have hbefore := ih fun part hpart => hstays part (hpart.trans (List.prefix_append more [e]))
    have hk := hstays _ List.prefix_rfl
    rw [← List.append_assoc, replay_concat] at hk ⊢
    exact e.find?_run_of_mem (sound_replay capacity _) hbefore hk

theorem run_getOrAdd_error {c : LruCache κ α} {key : κ} (hkey : c.find? key = none)
    (inner : List (Call κ α ε)) (e : ε) :
    (Call.getOrAdd key inner (.error e)).run c =
      Call.runAll inner { c with misses := c.misses + 1 } := by
  have hnone : c.table.lookup key = none := Option.map_eq_none_iff.mp hkey
  rw [Call.run, getOrMake, lookUp, hnone]

-- Every run is the replay of its log, also where factories call the cache in
-- turn. Along every log a value stays as it was stored first until its key is the
-- one that has been used longest ago, and a factory that fails adds nothing.
theorem keeps_latest (capacity : Nat) :
    (∀ calls : List (Call κ α ε), Call.runAll calls (new capacity) =
      replay (new capacity) (Call.logAll calls (new capacity))) ∧
    ∀ log, Kept capacity log (replay (new capacity) log) ∧
      (∀ more k a, (replay (new capacity) log).find? k = some a →
        (∀ part, part <+: more → k ∈ (replay (new capacity) (log ++ part)).keys) →
          (replay (new capacity) (log ++ more)).find? k = some a) ∧
      ∀ key (inner : List (Call κ α ε)) (e : ε), (replay (new capacity) log).find? key = none →
        (Call.getOrAdd key inner (.error e)).run (replay (new capacity) log) =
          Call.runAll inner { replay (new capacity) log with
            misses := (replay (new capacity) log).misses + 1 } := by
  refine ⟨fun calls => (Call.replay_logAll calls _).symm, fun log => ?_⟩
  refine ⟨kept_replay capacity log, fun more k a hfound hstays => ?_, fun key inner e hkey => ?_⟩
  · exact find?_replay hfound more hstays
  · exact run_getOrAdd_error hkey inner e

-- Two keys fit. The second one is stored by its own factory, and the first one is
-- used again behind it.
def twoKeys : List (Call Nat Nat Unit) :=
  [.getOrAdd 1 [] (.ok 10), .getOrAdd 2 [.tryAdd 2 20] (.ok 21), .find 2, .getOrAdd 1 [] (.ok 11)]

theorem keeps_latest_twoKeys :
    (Call.runAll twoKeys (new 2)).find? 2 = some 20 ∧
      ∃ oldest ∈ [1, 2],
        (∀ k ∈ [1, 2], k ≠ oldest → UsedLater (Call.logAll twoKeys (new 2)) k oldest) ∧
          ∀ k, k ∈ ((Call.runAll twoKeys (new 2)).tryAdd 3 30).1.keys ↔
            k = 3 ∨ k ∈ [1, 2] ∧ k ≠ oldest := by
  obtain ⟨hlog, hkept⟩ := keeps_latest (κ := Nat) (α := Nat) (ε := Unit) 2
  have hkeys : (replay (new 2) (Call.logAll twoKeys (new 2))).keys = [1, 2] := rfl
  refine ⟨rfl, ?_⟩
  rw [hlog twoKeys, ← hkeys]
  exact (hkept _).1.evicts (.tryAdd 3 30) 3 30 rfl (by decide) rfl

end EntitySql.LruCache
