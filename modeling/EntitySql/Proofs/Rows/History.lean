import EntitySql.Proofs.Include.Chain
import EntitySql.Proofs.Run
import EntitySql.Proofs.Store
import EntitySql.Proofs.Value.FirstKeys
import EntitySql.Rows.Materialize

-- What a materializer remembers and what it has stored, told by the history
-- of the visits that rows have made to the root and to the nodes of a plan.

namespace EntitySql

open Include (Node Plan)

variable {same : Value → Value → Bool}

-- A row shows an entity at the root or at a node: below the key of its
-- parent, under its own key, and with the instance that the row would give.
structure Visit where
  site : Option Nat
  parentKey : Value
  key : Value
  reading : Result Instance

namespace Visit

def firstAt (same : Value → Value → Bool) (history : List Visit) (site : Option Nat)
    (key : Value) : Option Visit :=
  history.find? fun v => v.site = site && same v.key key

def keysAt (history : List Visit) (site : Option Nat) : List Value :=
  (history.filter fun v => v.site = site).map Visit.key

def keysBelow (same : Value → Value → Bool) (history : List Visit) (site : Option Nat)
    (parentKey : Value) : List Value :=
  (history.filter fun v => v.site = site && same v.parentKey parentKey).map Visit.key

theorem firstAt_eq_find?_filter (history : List Visit) (site : Option Nat) (key : Value) :
    firstAt same history site key =
      (history.filter fun v => v.site = site).find? fun v => same v.key key := by
  rw [firstAt, List.find?_filter]
  simp

theorem keysBelow_eq_map_filter (history : List Visit) (site : Option Nat) (parentKey : Value) :
    keysBelow same history site parentKey = ((history.filter fun v => v.site = site).filter fun v =>
      same v.parentKey parentKey).map Visit.key := by
  simp only [keysBelow, List.filter_filter, Bool.and_comm]

theorem firstAt_append_singleton (history : List Visit) (v : Visit) (site : Option Nat)
    (key : Value) :
    firstAt same (history ++ [v]) site key = (firstAt same history site key).or
      (if v.site = site ∧ same v.key key then some v else none) := by
  simp only [firstAt, List.find?_append, List.find?_singleton, Bool.and_eq_true, decide_eq_true_eq]

theorem keysAt_append_singleton (history : List Visit) (v : Visit) (site : Option Nat) :
    keysAt (history ++ [v]) site =
      keysAt history site ++ if v.site = site then [v.key] else [] := by
  by_cases h : v.site = site <;> simp [keysAt, h]

theorem any_keysAt (history : List Visit) (site : Option Nat) (key : Value) :
    (keysAt history site).any (same · key) = (firstAt same history site key).isSome := by
  simp only [keysAt, firstAt, List.any_map, List.any_filter]
  rw [Bool.eq_iff_iff]
  simp

theorem keysBelow_append_singleton (history : List Visit) (v : Visit) (site : Option Nat)
    (parentKey : Value) :
    keysBelow same (history ++ [v]) site parentKey = keysBelow same history site parentKey ++
      if v.site = site ∧ same v.parentKey parentKey then [v.key] else [] := by
  by_cases h : v.site = site ∧ same v.parentKey parentKey <;> simp [keysBelow, h]

theorem keysBelow_congr (hsame : Classifies same) {parentKey parentKey' : Value}
    (h : same parentKey parentKey' = true) (history : List Visit) (site : Option Nat) :
    keysBelow same history site parentKey = keysBelow same history site parentKey' := by
  simp only [keysBelow, hsame.congr_right h]

end Visit

-- A collection holds every key once, a reference the last key.
def Include.Node.held (n : Node) (same : Value → Value → Bool) (keys : List Value) : List Value :=
  if n.isCollection then firstKeys same keys else keys.getLast?.toList

theorem Include.Node.held_append_singleton (hsame : Classifies same) (n : Node)
    (keys : List Value) (key : Value) :
    n.held same (keys ++ [key]) =
      if n.isCollection then
        if keys.any (same · key) then firstKeys same keys else firstKeys same keys ++ [key]
      else [key] := by
  simp [held, firstKeys_append_singleton hsame.comm, any_firstKeys hsame.comm fun _ _ _ _ => hsame.trans]

namespace Memory

-- The instance of the root or of a node for a key.
def instance? (m : Memory) (same : Value → Value → Bool) : Option Nat → Value → Option InstanceId
  | none, key => m.root? same key
  | some number, key => m.related? same number key

def remember (m : Memory) (site : Option Nat) (key : Value) (id : InstanceId) : Memory :=
  match site with
  | none => { m with roots := m.roots ++ [(key, id)] }
  | some number => { m with related := m.related ++ [(number, key, id)] }

theorem instance?_congr (hsame : Classifies same) {key key' : Value} (h : same key key' = true)
    (m : Memory) (site : Option Nat) : m.instance? same site key = m.instance? same site key' := by
  cases site <;> simp only [instance?, root?, related?, hsame.congr_right h]

theorem instance?_remember (m : Memory) (site : Option Nat) (key : Value) (id : InstanceId)
    (other : Option Nat) (otherKey : Value) :
    (m.remember site key id).instance? same other otherKey = (m.instance? same other otherKey).or
      (if site = other ∧ same key otherKey then some id else none) := by
  cases site with
  | none =>
    cases other with
    | none =>
      simp only [instance?, remember, root?, List.find?_append, Option.map_or]
      cases hk : same key otherKey <;> simp [hk]
    | some number => simp [instance?, remember, related?]
  | some number =>
    cases other with
    | none => simp [instance?, remember, root?]
    | some otherNumber =>
      simp only [instance?, remember, related?, List.find?_append, Option.map_or]
      by_cases hn : number = otherNumber <;> cases hk : same key otherKey <;> simp [hk, hn]

theorem isLinked_remember (m : Memory) (site : Option Nat) (key : Value) (id : InstanceId)
    (number : Nat) (parentKey otherKey : Value) :
    (m.remember site key id).isLinked same number parentKey otherKey =
      m.isLinked same number parentKey otherKey := by
  cases site <;> rfl

-- All keys that are remembered are among those of a list.
structure KeysIn (m : Memory) (keys : List Value) : Prop where
  roots : ∀ e ∈ m.roots, e.1 ∈ keys
  related : ∀ e ∈ m.related, e.2.1 ∈ keys
  linked : ∀ e ∈ m.linked, e.2.1 ∈ keys ∧ e.2.2 ∈ keys

namespace KeysIn

variable {m : Memory} {keys : List Value} {key parentKey : Value}

theorem remember (h : m.KeysIn keys) (hkey : key ∈ keys) (site : Option Nat) (id : InstanceId) :
    (m.remember site key id).KeysIn keys := by
  cases site with
  | none => exact ⟨List.forall_mem_append.mpr ⟨h.roots, by simpa using hkey⟩, h.related, h.linked⟩
  | some number =>
    exact ⟨h.roots, List.forall_mem_append.mpr ⟨h.related, by simpa using hkey⟩, h.linked⟩

variable {same' : Value → Value → Bool} (hagree : ∀ a ∈ keys, ∀ b ∈ keys, same a b = same' a b)
include hagree

-- Tests that agree on the keys find the same.
theorem instance?_eq (h : m.KeysIn keys) (hkey : key ∈ keys) (site : Option Nat) :
    m.instance? same site key = m.instance? same' site key := by
  cases site with
  | none =>
    rw [instance?, instance?, root?, root?, ← List.head?_filter, ← List.head?_filter]
    rw [List.filter_congr fun e he => hagree _ (h.roots e he) _ hkey]
  | some number =>
    rw [instance?, instance?, related?, related?, ← List.head?_filter, ← List.head?_filter]
    rw [List.filter_congr fun e he => by rw [hagree _ (h.related e he) _ hkey]]

theorem isLinked_eq (h : m.KeysIn keys) (hparent : parentKey ∈ keys) (hkey : key ∈ keys)
    (number : Nat) :
    m.isLinked same number parentKey key = m.isLinked same' number parentKey key := by
  rw [isLinked, isLinked, Bool.eq_iff_iff, List.any_eq_true, List.any_eq_true]
  refine exists_congr fun e => and_congr_right fun he => ?_
  obtain ⟨hup, hown⟩ := h.linked e he
  rw [hagree _ hup _ hparent, hagree _ hown _ hkey]

end KeysIn

-- Among keys of different roots each finds its own instance.
theorem root?_of_mem (hsame : Classifies same) {m : Memory} {e : Value × InstanceId}
    (hkeys : (m.roots.map (·.1)).Pairwise fun a b => same b a = false) (he : e ∈ m.roots)
    (hself : same e.1 e.1 = true) : m.root? same e.1 = some e.2 := by
  obtain ⟨before, after, hsplit⟩ := List.append_of_mem he
  rw [hsplit, List.map_append, List.pairwise_append] at hkeys
  have hnone : before.find? (fun b => same b.1 e.1) = none := by
    rw [List.find?_eq_none]
    intro b hb
    have hdiffer := hkeys.2.2 b.1 (List.mem_map_of_mem hb) e.1 (by simp)
    rw [hsame.comm, hdiffer]
    simp
  simp [root?, hsplit, List.find?_append, hnone, hself]

end Memory

end EntitySql
