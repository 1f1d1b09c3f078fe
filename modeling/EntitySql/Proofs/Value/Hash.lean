import EntitySql.Proofs.Value.Key

-- Equal values hash alike as long as the libraries' hash functions do not tell
-- equal arguments apart. A table keyed by values then finds an entry for a key
-- exactly if it has one with an equal key, whatever has been put in since and into
-- however many buckets.

namespace EntitySql

namespace HashFunctions

-- Doubles and documents alone have equal values that differ: the two zeros, and
-- whole numbers with and without a fraction.

def RespectsDoubles (f : HashFunctions) : Prop :=
  ∀ x y : Float, (x == y) = true → f.double x = f.double y

structure RespectsEquality (f : HashFunctions) : Prop where
  double : f.RespectsDoubles
  json : ∀ a b : Json, a.same b = true → f.json a = f.json b

end HashFunctions

namespace Value

variable {f : HashFunctions}

mutual

-- How documents hash is of no matter to the values that hold none.
theorem hash_congr (hf : f.RespectsDoubles) {a b : Value}
    (hjson : a.holdsDocument = true → f.RespectsEquality) (h : a.same b = true) :
    a.hash f = b.hash f := by
  cases a <;> cases b <;> simp only [same, beq_iff_eq, Timestamp.same_iff, Bool.false_eq_true] at h
  case null.null => rfl
  case double.double x y => rw [hash, hash, hf x y h, kind, kind]
  case timestamp.timestamp s t => simp only [hash, kind, h.1, h.2]
  case array.array as bs =>
    rw [hash, hash]
    exact hashItems_congr hf hjson h _
  case json.json a b => rw [hash, hash, (hjson rfl).json a b h, kind, kind]
  all_goals rw [h]
termination_by sizeOf a

theorem hashItems_congr (hf : f.RespectsDoubles) {as bs : List Value}
    (hjson : itemsHoldDocument as = true → f.RespectsEquality) (h : sameItems as bs = true)
    (seed : UInt64) : hashItems f seed as = hashItems f seed bs := by
  match as, bs with
  | [], [] => rfl
  | a :: as, b :: bs =>
    rw [sameItems, Bool.and_eq_true] at h
    rw [itemsHoldDocument, Bool.or_eq_true] at hjson
    rw [hashItems, hashItems, hash_congr hf (fun ha => hjson (.inl ha)) h.1,
      hashItems_congr hf (fun has => hjson (.inr has)) h.2]
termination_by sizeOf as

end

theorem hash_eq_of_same (hf : f.RespectsEquality) {a b : Value} (h : a.same b = true) :
    a.hash f = b.hash f :=
  hash_congr hf.double (fun _ => hf) h

-- Tables tell keys apart as equality does, unless the keys hold documents that are
-- equal and hash apart.

theorem sameKey_eq_same (hf : f.RespectsEquality) (a b : Value) : a.sameKey f b = a.same b := by
  rw [Bool.eq_iff_iff, sameKey_iff]
  exact and_iff_right_of_imp (hash_eq_of_same hf)

theorem sameKey_eq_same_of_plain (hf : f.RespectsDoubles) {a b : Value}
    (hb : b.holdsDocument = false) : a.sameKey f b = a.same b := by
  rw [Bool.eq_iff_iff, sameKey_iff]
  refine and_iff_right_of_imp fun h => hash_congr hf (fun ha => ?_) h
  rw [holdsDocument_eq_of_same h, hb] at ha
  cases ha

end Value

namespace HashTable

variable {f : HashFunctions} {α : Type} {t : HashTable f α} {key : Value} {a : α} {e : Value × α}

theorem mem_entries : e ∈ t.entries ↔ e ∈ t.entriesOf (e.1.bucket f t.count_pos) := by
  rw [entries, List.mem_flatMap]
  constructor
  · rintro ⟨i, -, he⟩
    rwa [t.placed i e he]
  · intro he
    exact ⟨_, List.mem_finRange _, he⟩

theorem mem_of_find? (h : t.find? key = some e) : e ∈ t.entries ∧ e.1.same key = true := by
  have hmem := List.mem_of_find?_eq_some h
  have hfound := List.find?_some h
  rw [Bool.and_eq_true] at hfound
  rw [mem_entries, t.placed _ e hmem]
  exact ⟨hmem, hfound.2⟩

-- The bucket that is searched is the right one.
theorem isSome_find?_iff (hf : f.RespectsEquality) (t : HashTable f α) (key : Value) :
    (t.find? key).isSome = true ↔ ∃ e ∈ t.entries, e.1.same key = true := by
  constructor
  · intro h
    obtain ⟨e, he⟩ := Option.isSome_iff_exists.mp h
    exact ⟨e, mem_of_find? he⟩
  · rintro ⟨e, he, hsame⟩
    have hhash := Value.hash_eq_of_same hf hsame
    have hbucket : key.bucket f t.count_pos = e.1.bucket f t.count_pos := by
      rw [Value.bucket, Value.bucket, Fin.mk.injEq, hhash]
    rw [find?, List.find?_isSome]
    refine ⟨e, hbucket ▸ mem_entries.mp he, ?_⟩
    rw [hhash, hsame]
    simp

theorem mem_entries_insert : e ∈ (t.insert key a).entries ↔
    e ∈ t.entries ∨ (t.find? key = none ∧ e = (key, a)) := by
  unfold insert
  split
  · next hfound =>
    rw [Option.isSome_iff_ne_none] at hfound
    simp [hfound]
  · next hnone =>
    rw [Option.not_isSome_iff_eq_none] at hnone
    rw [mem_entries, mem_entries]
    simp only [hnone, true_and]
    split
    · next hbucket =>
      rw [List.mem_append, List.mem_singleton]
    · next hbucket =>
      refine ⟨.inl, fun h => h.resolve_right ?_⟩
      rintro rfl
      exact hbucket rfl

theorem mem_entries_rehash {count : Nat} (hcount : 0 < count) :
    e ∈ (t.rehash hcount).entries ↔ e ∈ t.entries := by
  rw [mem_entries]
  simp [rehash]

-- What may happen to a table while it is in use.
inductive Change (α : Type) where
  | insert (key : Value) (a : α)
  | rehash (count : Nat) (hcount : 0 < count)

def apply (t : HashTable f α) : Change α → HashTable f α
  | .insert key a => t.insert key a
  | .rehash _ hcount => t.rehash hcount

def run (t : HashTable f α) (changes : List (Change α)) : HashTable f α := changes.foldl apply t

theorem mem_entries_apply (h : e ∈ t.entries) (c : Change α) : e ∈ (t.apply c).entries := by
  cases c with
  | insert key a => exact mem_entries_insert.mpr (.inl h)
  | rehash count hcount => exact (mem_entries_rehash hcount).mpr h

theorem mem_entries_run (h : e ∈ t.entries) (changes : List (Change α)) :
    e ∈ (t.run changes).entries := by
  induction changes generalizing t with
  | nil => exact h
  | cons c rest ih => exact ih (mem_entries_apply h c)

-- An entry is found under every equal key from then on.
theorem isSome_find?_run (hf : f.RespectsEquality) (he : e ∈ t.entries)
    (hsame : e.1.same key = true) (changes : List (Change α)) :
    ((t.run changes).find? key).isSome = true :=
  (isSome_find?_iff hf _ key).mpr ⟨e, mem_entries_run he changes, hsame⟩

variable {stored : Value}

-- Equality is not transitive on documents, so that one that stood there already
-- may not be equal to the key.
theorem exists_mem_entries_insert (h : stored.same key = true)
    (hproper : t.find? stored = none ∨ key.holdsDocument = false) (a : α) :
    ∃ e ∈ (t.insert stored a).entries, e.1.same key = true := by
  cases hfind : t.find? stored with
  | none => exact ⟨(stored, a), mem_entries_insert.mpr (.inr ⟨hfind, rfl⟩), h⟩
  | some e =>
    obtain ⟨he, hsame⟩ := mem_of_find? hfind
    have hplain : key.holdsDocument = false := hproper.resolve_left (by rw [hfind]; nofun)
    have hstored : stored.holdsDocument = false := by rw [Value.holdsDocument_eq_of_same h, hplain]
    exact ⟨e, mem_entries_insert.mpr (.inl he), Value.same_trans hstored hsame h⟩

theorem exists_mem_entries_insert_self (hnan : key.holdsNan = false) (a : α) :
    ∃ e ∈ (t.insert key a).entries, e.1.same key = true := by
  cases hfind : t.find? key with
  | some e =>
    obtain ⟨he, hsame⟩ := mem_of_find? hfind
    exact ⟨e, mem_entries_insert.mpr (.inl he), hsame⟩
  | none =>
    have hself : key.same key = true := by rw [Value.same_self, hnan]; rfl
    exact ⟨(key, a), mem_entries_insert.mpr (.inr ⟨hfind, rfl⟩), hself⟩

end HashTable

end EntitySql
