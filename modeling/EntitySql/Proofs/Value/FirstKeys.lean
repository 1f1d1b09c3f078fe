import EntitySql.Proofs.Value.Key

-- The keys of a list without repetitions, each where it stands first. Which keys are
-- repetitions is up to a test; most is known of it if it sorts the keys into classes.

namespace EntitySql

variable {same : Value → Value → Bool} {keys : List Value} {key : Value}

@[simp] theorem firstKeys_nil : firstKeys same [] = [] := rfl

theorem firstKeys_cons (key : Value) (keys : List Value) :
    firstKeys same (key :: keys) =
      key :: firstKeys same (keys.filter fun k => same k key = false) :=
  List.eraseDupsBy_cons

-- Induction along the definition: what is known of the keys that differ
-- from the first may be used for the whole list.
theorem firstKeys_induction (same : Value → Value → Bool) {motive : List Value → Prop}
    (nil : motive [])
    (cons : ∀ first rest, motive (rest.filter fun k => same k first = false) →
      motive (first :: rest)) (keys : List Value) : motive keys :=
  match keys with
  | [] => nil
  | first :: rest => cons first rest (firstKeys_induction same nil cons _)
termination_by keys.length
decreasing_by exact Nat.lt_succ_of_le (List.length_filter_le _ rest)

theorem firstKeys_sublist (same : Value → Value → Bool) (keys : List Value) :
    (firstKeys same keys).Sublist keys := by
  induction keys using firstKeys_induction same with
  | nil => exact List.Sublist.refl _
  | cons first rest ih =>
    rw [firstKeys_cons]
    exact (ih.trans List.filter_sublist).cons_cons first

theorem mem_of_mem_firstKeys (h : key ∈ firstKeys same keys) : key ∈ keys :=
  (firstKeys_sublist same keys).subset h

-- A key that is left out is the same as one that is kept.
theorem mem_firstKeys_or (h : key ∈ keys) :
    key ∈ firstKeys same keys ∨ ∃ k ∈ firstKeys same keys, same key k = true := by
  induction keys using firstKeys_induction same with
  | nil => cases h
  | cons first rest ih =>
    rw [firstKeys_cons]
    rcases List.mem_cons.mp h with rfl | hrest
    · exact .inl (List.mem_cons_self ..)
    · cases hfirst : same key first with
      | true => exact .inr ⟨first, List.mem_cons_self .., hfirst⟩
      | false =>
        rcases ih (List.mem_filter.mpr ⟨hrest, by simp [hfirst]⟩) with hkept | ⟨k, hk, hsame⟩
        · exact .inl (List.mem_cons_of_mem first hkept)
        · exact .inr ⟨k, List.mem_cons_of_mem first hk, hsame⟩

-- Leaving out repetitions does not lose a key, if what repeats one that is the same
-- is the same as well.
theorem any_firstKeys (hcomm : ∀ a b, same a b = same b a)
    (htrans : ∀ a ∈ keys, ∀ b ∈ keys, same a b = true → same b key = true → same a key = true) :
    (firstKeys same keys).any (same · key) = keys.any (same · key) := by
  rw [Bool.eq_iff_iff, List.any_eq_true, List.any_eq_true]
  constructor
  · rintro ⟨k, hk, hsame⟩
    exact ⟨k, mem_of_mem_firstKeys hk, hsame⟩
  · rintro ⟨k, hk, hsame⟩
    rcases mem_firstKeys_or hk with hkept | ⟨first, hfirst, hrepeats⟩
    · exact ⟨k, hkept, hsame⟩
    · refine ⟨first, hfirst, htrans first (mem_of_mem_firstKeys hfirst) k hk ?_ hsame⟩
      rwa [hcomm]

theorem any_firstKeys_of_plain (f : HashFunctions) (keys : List Value)
    (hplain : key.holdsDocument = false) :
    (firstKeys (Value.sameKey f) keys).any (·.sameKey f key) = keys.any (·.sameKey f key) :=
  any_firstKeys (Value.sameKey_comm f) fun _ _ _ _ => Value.sameKey_trans hplain

theorem mem_firstKeys_iff (h : ∀ a ∈ keys, ∀ b ∈ keys, same a b = true → a = b) :
    key ∈ firstKeys same keys ↔ key ∈ keys := by
  refine ⟨mem_of_mem_firstKeys, fun hkey => ?_⟩
  rcases mem_firstKeys_or hkey with hkept | ⟨k, hk, hsame⟩
  · exact hkept
  · exact h key hkey k (mem_of_mem_firstKeys hk) hsame ▸ hk

-- Tests that agree on the keys keep the same ones.
theorem firstKeys_congr {same' : Value → Value → Bool}
    (h : ∀ a ∈ keys, ∀ b ∈ keys, same a b = same' a b) :
    firstKeys same keys = firstKeys same' keys := by
  induction keys using firstKeys_induction same with
  | nil => rfl
  | cons first rest ih =>
    have hfilter : (rest.filter fun k => same k first = false) =
        rest.filter fun k => same' k first = false :=
      List.filter_congr fun k hk => by
        rw [h k (List.mem_cons_of_mem first hk) first (List.mem_cons_self ..)]
    rw [firstKeys_cons, firstKeys_cons, ← hfilter, ih fun a ha b hb =>
      h a (List.mem_cons_of_mem first ((List.mem_filter.mp ha).1)) b
        (List.mem_cons_of_mem first ((List.mem_filter.mp hb).1))]

-- No two of the keys that are kept are the same.
theorem pairwise_firstKeys (same : Value → Value → Bool) (keys : List Value) :
    (firstKeys same keys).Pairwise fun a b => same b a = false := by
  induction keys using firstKeys_induction same with
  | nil => exact List.Pairwise.nil
  | cons first rest ih =>
    rw [firstKeys_cons, List.pairwise_cons]
    refine ⟨?_, ih⟩
    intro k hk
    simpa using (List.mem_filter.mp (mem_of_mem_firstKeys hk)).2

-- A key that comes last is kept unless it repeats one that is.
theorem firstKeys_append_singleton (hcomm : ∀ a b, same a b = same b a) (keys : List Value)
    (key : Value) :
    firstKeys same (keys ++ [key]) =
      if (firstKeys same keys).any (same · key) then firstKeys same keys
      else firstKeys same keys ++ [key] := by
  induction keys using firstKeys_induction same with
  | nil => simp [firstKeys_cons]
  | cons first rest ih =>
    rw [List.cons_append, firstKeys_cons, firstKeys_cons, List.filter_append, List.any_cons]
    cases hfirst : same first key with
    | true =>
      have hdrop : [key].filter (fun k => same k first = false) = [] := by
        simp [hcomm key first, hfirst]
      rw [hdrop, List.append_nil]
      rfl
    | false =>
      have hkeep : [key].filter (fun k => same k first = false) = [key] := by
        simp [hcomm key first, hfirst]
      rw [hkeep, ih, Bool.false_or]
      split <;> rfl

end EntitySql
