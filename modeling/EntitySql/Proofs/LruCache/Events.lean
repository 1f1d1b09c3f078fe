import EntitySql.Proofs.LruCache.Linked

-- What happens to a cache at once. An event changes the keys in a way that
-- depends on their order of use alone, and that order is the one of the log.

namespace EntitySql.LruCache

variable {κ α ε : Type} [DecidableEq κ]

-- A call that may use a factory looks up first, and stores once the factory has
-- made something.
inductive Event (κ α : Type) where
  | lookUp (key : κ)
  | store (key : κ) (a : α)
  | tryAdd (key : κ) (a : α)
  | find (key : κ)
  | setCapacity (capacity : Nat)
  | clear

namespace Event

def run (c : LruCache κ α) : Event κ α → LruCache κ α
  | .lookUp key => (c.lookUp key).2
  | .store key a => (c.store key a).2
  | .tryAdd key a => (c.tryAdd key a).1
  | .find _ => c
  | .setCapacity capacity => c.setCapacity capacity
  | .clear => c.clear

def used? : Event κ α → Option κ
  | .lookUp key => some key
  | .store key _ => some key
  | .tryAdd key _ => some key
  | _ => none

-- The entry that is stored if its key is missing.
def offered? : Event κ α → Option (κ × α)
  | .store key a => some (key, a)
  | .tryAdd key a => some (key, a)
  | _ => none

def capacity? : Event κ α → Option Nat
  | .setCapacity capacity => some capacity
  | _ => none

-- The number of times that an accessor has been asked for since the last clearing.
def asked (n : Nat) : Event κ α → Nat
  | .lookUp _ => n + 1
  | .clear => 0
  | _ => n

-- The keys behind an event, in order of use.
def order (capacity : Nat) (keys : List κ) : Event κ α → List κ
  | .lookUp key => if key ∈ keys then key :: keys.filter (· ≠ key) else keys
  | .store key _ => (key :: keys.filter (· ≠ key)).take capacity
  | .tryAdd key _ => (key :: keys.filter (· ≠ key)).take capacity
  | .find _ => keys
  | .setCapacity capacity => keys.take (max capacity 1)
  | .clear => []

end Event

namespace Sound

variable {c : LruCache κ α} {key k : κ} {a : α} {slot : Slot α} (h : c.Sound)

include h

omit [DecidableEq κ] in
theorem touch (slot : Slot α) : (c.touch slot).Sound where
  toLinked := h.toLinked.touch slot
  positive := h.positive
  bounded := h.bounded

theorem insert (hkey : key ∉ c.keys) (a : α) : (c.insert key a).Sound :=
  (h.push hkey a).sound_evict h.positive

omit [DecidableEq κ] in
theorem resized (capacity : Nat) : Linked { c with capacity } := h.congr rfl rfl rfl

theorem setCapacity (capacity : Nat) : (c.setCapacity capacity).Sound :=
  (h.resized (max capacity 1)).sound_evict (Nat.le_max_right _ _)

theorem keys_setCapacity (capacity : Nat) :
    (c.setCapacity capacity).keys = c.keys.take (max capacity 1) :=
  (h.resized (max capacity 1)).keys_evict

omit [DecidableEq κ] in
theorem take_keys : c.keys.take c.capacity = c.keys :=
  List.take_of_length_le (h.size_eq ▸ h.bounded)

theorem keys_insert (hkey : key ∉ c.keys) (a : α) :
    (c.insert key a).keys = (key :: c.keys).take c.capacity :=
  (h.push hkey a).keys_evict

theorem find?_insert (hkey : key ∉ c.keys) (hk : k ∈ (c.insert key a).keys) :
    (c.insert key a).find? k = if k = key then some a else c.find? k :=
  ((h.push hkey a).find?_evict hk).trans (Linked.find?_push c key k a)

end Sound

theorem store_snd (c : LruCache κ α) (key : κ) (a : α) : (c.store key a).2 = (c.tryAdd key a).1 := by
  unfold store tryAdd
  cases c.table.lookup key <;> rfl

namespace Sound

variable {c : LruCache κ α} {key k : κ} {a b : α} (h : c.Sound)

include h

theorem tryAdd (key : κ) (a : α) : (c.tryAdd key a).1.Sound := by
  unfold LruCache.tryAdd
  cases hslot : c.table.lookup key with
  | some slot => exact h.touch slot
  | none => exact h.insert (h.not_mem_keys_iff.mpr hslot) a

theorem keys_tryAdd (key : κ) (a : α) :
    (c.tryAdd key a).1.keys = (key :: c.keys.filter (· ≠ key)).take c.capacity := by
  unfold LruCache.tryAdd
  cases hslot : c.table.lookup key with
  | some slot =>
    rw [← h.keys_touch hslot]
    exact (h.touch slot).take_keys.symm
  | none =>
    have hkey := h.not_mem_keys_iff.mpr hslot
    rw [filter_ne_eq_self hkey]
    exact h.keys_insert hkey a

-- Of two values for one key, the one that was stored first is kept.
theorem find?_tryAdd_of_mem (hfound : c.find? k = some b) (hk : k ∈ (c.tryAdd key a).1.keys) :
    (c.tryAdd key a).1.find? k = some b := by
  unfold LruCache.tryAdd at hk ⊢
  cases hslot : c.table.lookup key with
  | some slot => exact hfound
  | none =>
    rw [hslot] at hk
    have hkey := h.not_mem_keys_iff.mpr hslot
    have hne : k ≠ key := ne_of_mem_of_not_mem (h.mem_keys_iff_find?.mpr ⟨b, hfound⟩) hkey
    exact (h.find?_insert hkey hk).trans ((if_neg hne).trans hfound)

theorem find?_tryAdd_of_not_mem (hfound : k ∉ c.keys) (hk : k ∈ (c.tryAdd key a).1.keys) :
    k = key ∧ (c.tryAdd key a).1.find? k = some a := by
  have hmem := hk
  rw [h.keys_tryAdd] at hmem
  have hkey : k = key := by
    rcases List.mem_cons.mp (List.mem_of_mem_take hmem) with hkey | hmem
    · exact hkey
    · exact absurd (List.mem_of_mem_filter hmem) hfound
  subst hkey
  refine ⟨rfl, ?_⟩
  unfold LruCache.tryAdd at hk ⊢
  rw [h.not_mem_keys_iff.mp hfound] at hk ⊢
  exact (h.find?_insert hfound hk).trans (if_pos rfl)

theorem lookUp (key : κ) : (c.lookUp key).2.Sound := by
  unfold LruCache.lookUp
  cases c.table.lookup key with
  | some slot => exact ⟨(h.touch slot).congr rfl rfl rfl, h.positive, h.bounded⟩
  | none => exact ⟨h.congr rfl rfl rfl, h.positive, h.bounded⟩

theorem keys_lookUp (key : κ) :
    (c.lookUp key).2.keys = if key ∈ c.keys then key :: c.keys.filter (· ≠ key) else c.keys := by
  unfold LruCache.lookUp
  cases hslot : c.table.lookup key with
  | some slot =>
    rw [if_pos (h.mem_keys_iff.mpr ⟨slot, hslot⟩), ← h.keys_touch hslot]
    rfl
  | none =>
    rw [if_neg (h.not_mem_keys_iff.mpr hslot)]
    rfl

end Sound

theorem counts_tryAdd (c : LruCache κ α) (key : κ) (a : α) :
    (c.tryAdd key a).1.hits = c.hits ∧ (c.tryAdd key a).1.misses = c.misses ∧
      (c.tryAdd key a).1.capacity = c.capacity := by
  unfold tryAdd
  cases c.table.lookup key <;> exact ⟨rfl, rfl, rfl⟩

theorem counts_lookUp (c : LruCache κ α) (key : κ) :
    (c.lookUp key).2.hits + (c.lookUp key).2.misses = c.hits + c.misses + 1 ∧
      (c.lookUp key).2.capacity = c.capacity := by
  unfold lookUp
  cases c.table.lookup key with
  | some slot => exact ⟨Nat.add_right_comm .., rfl⟩
  | none => exact ⟨rfl, rfl⟩

theorem find?_lookUp (c : LruCache κ α) (key k : κ) : (c.lookUp key).2.find? k = c.find? k := by
  unfold lookUp
  cases c.table.lookup key <;> rfl

namespace Event

variable {c : LruCache κ α} {k : κ} {a : α} (h : c.Sound) (e : Event κ α)

include h

theorem sound_run : (e.run c).Sound := by
  cases e with
  | lookUp key => exact h.lookUp key
  | store key a =>
    rw [run, store_snd]
    exact h.tryAdd key a
  | tryAdd key a => exact h.tryAdd key a
  | find key => exact h
  | setCapacity capacity => exact h.setCapacity capacity
  | clear => exact ⟨⟨.nil, .nil, .nil, by simp [run, LruCache.clear]⟩, h.positive, Nat.zero_le _⟩

theorem keys_run : (e.run c).keys = e.order c.capacity c.keys := by
  cases e with
  | lookUp key => exact h.keys_lookUp key
  | store key a =>
    rw [run, store_snd]
    exact h.keys_tryAdd key a
  | tryAdd key a => exact h.keys_tryAdd key a
  | find key => rfl
  | setCapacity capacity => exact h.keys_setCapacity capacity
  | clear => rfl

theorem find?_run_of_mem (hfound : c.find? k = some a) (hk : k ∈ (e.run c).keys) :
    (e.run c).find? k = some a := by
  cases e with
  | lookUp key => exact (find?_lookUp c key k).trans hfound
  | store key b =>
    rw [run, store_snd] at hk ⊢
    exact h.find?_tryAdd_of_mem hfound hk
  | tryAdd key b => exact h.find?_tryAdd_of_mem hfound hk
  | find key => exact hfound
  | setCapacity capacity => exact ((h.resized (max capacity 1)).find?_evict hk).trans hfound
  | clear => cases hk

theorem find?_run_of_not_mem (hfound : k ∉ c.keys) (hk : k ∈ (e.run c).keys) :
    ∃ a, e.offered? = some (k, a) ∧ (e.run c).find? k = some a := by
  have horder := hk
  rw [e.keys_run h] at horder
  cases e with
  | lookUp key =>
    rw [order] at horder
    by_cases hkey : key ∈ c.keys
    · rw [if_pos hkey] at horder
      rcases List.mem_cons.mp horder with rfl | hmem
      · exact absurd hkey hfound
      · exact absurd (List.mem_of_mem_filter hmem) hfound
    · rw [if_neg hkey] at horder
      exact absurd horder hfound
  | store key a =>
    rw [run, store_snd] at hk
    obtain ⟨rfl, hvalue⟩ := h.find?_tryAdd_of_not_mem hfound hk
    exact ⟨a, rfl, by rw [run, store_snd, hvalue]⟩
  | tryAdd key a =>
    obtain ⟨rfl, hvalue⟩ := h.find?_tryAdd_of_not_mem hfound hk
    exact ⟨a, rfl, hvalue⟩
  | find key => exact absurd horder hfound
  | setCapacity capacity => exact absurd (List.mem_of_mem_take horder) hfound
  | clear => cases horder

omit h in
theorem asked_run (c : LruCache κ α) :
    (e.run c).hits + (e.run c).misses = e.asked (c.hits + c.misses) := by
  cases e with
  | lookUp key => exact (counts_lookUp c key).1
  | store key a =>
    obtain ⟨hhits, hmisses, -⟩ := counts_tryAdd c key a
    rw [run, store_snd]
    exact congrArg₂ (· + ·) hhits hmisses
  | tryAdd key a =>
    obtain ⟨hhits, hmisses, -⟩ := counts_tryAdd c key a
    exact congrArg₂ (· + ·) hhits hmisses
  | find key => rfl
  | setCapacity capacity => rfl
  | clear => rfl

omit h in
theorem capacity_run (c : LruCache κ α) :
    (e.run c).capacity = (e.capacity?.map (max · 1)).getD c.capacity := by
  cases e with
  | lookUp key => exact (counts_lookUp c key).2
  | store key a =>
    rw [run, store_snd]
    exact (counts_tryAdd c key a).2.2
  | tryAdd key a => exact (counts_tryAdd c key a).2.2
  | find key => rfl
  | setCapacity capacity => rfl
  | clear => rfl

end Event

-- The order of use.

-- The keys are sorted by their last use. All uses are given, the latest first.
structure InOrder (uses keys : List κ) : Prop where
  used : ∀ k ∈ keys, k ∈ uses
  sorted : keys.Pairwise fun a b => uses.idxOf a < uses.idxOf b

namespace InOrder

variable {uses keys keys' : List κ} {key : κ}

theorem sublist (h : InOrder uses keys) (hkeys : keys'.Sublist keys) : InOrder uses keys' :=
  ⟨fun k hk => h.used k (hkeys.subset hk), h.sorted.sublist hkeys⟩

theorem behind (h : InOrder uses keys) (hkey : key ∉ keys) : InOrder (key :: uses) keys where
  used k hk := List.mem_cons_of_mem key (h.used k hk)
  sorted := by
    refine h.sorted.imp_of_mem fun {a b} ha hb hlt => ?_
    rw [List.idxOf_cons_ne _ (ne_of_mem_of_not_mem ha hkey).symm,
      List.idxOf_cons_ne _ (ne_of_mem_of_not_mem hb hkey).symm]
    exact Nat.succ_lt_succ hlt

theorem use (h : InOrder uses keys) (key : κ) :
    InOrder (key :: uses) (key :: keys.filter (· ≠ key)) := by
  have hkey : key ∉ keys.filter (· ≠ key) := by simp
  have hothers := (h.sublist List.filter_sublist).behind hkey
  refine ⟨List.forall_mem_cons.mpr ⟨by simp, hothers.used⟩, ?_⟩
  refine List.pairwise_cons.mpr ⟨fun b hb => ?_, hothers.sorted⟩
  rw [List.idxOf_cons_self, List.idxOf_cons_ne _ (ne_of_mem_of_not_mem hb hkey).symm]
  exact Nat.succ_pos _

theorem order (h : InOrder uses keys) (capacity : Nat) (e : Event κ α) :
    InOrder (e.used?.toList ++ uses) (e.order capacity keys) := by
  cases e with
  | lookUp key =>
    rw [Event.order]
    by_cases hkey : key ∈ keys
    · rw [if_pos hkey]
      exact h.use key
    · rw [if_neg hkey]
      exact h.behind hkey
  | store key a => exact (h.use key).sublist (List.take_sublist _ _)
  | tryAdd key a => exact (h.use key).sublist (List.take_sublist _ _)
  | find key => exact h
  | setCapacity capacity => exact h.sublist (List.take_sublist _ _)
  | clear => exact ⟨by simp [Event.order], .nil⟩

end InOrder

end EntitySql.LruCache
