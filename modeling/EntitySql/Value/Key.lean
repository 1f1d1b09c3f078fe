import EntitySql.Value.Printer

-- Values as keys: of instances, of groups, and wherever values are told apart.
-- Tables keyed by values are laid out by their hashes, and take keys for one if they
-- hash alike and are equal.

namespace EntitySql

-- Values hash by their kinds and by what they hold, down to the items of arrays; how
-- numbers, texts and documents hash is left to the libraries that bring these types.
structure HashFunctions where
  size : UInt64 → UInt64
  bool : Bool → UInt64
  int : Int64 → UInt64
  double : Float → UInt64
  string : Text → UInt64
  json : Json → UInt64

namespace Hash

-- A hash mixed into those before it.
def combine (seed h : UInt64) : UInt64 :=
  seed ^^^ (h + (0x9e3779b97f4a7c15 : UInt64) + (seed <<< (6 : UInt64)) + (seed >>> (2 : UInt64)))

def combineBytes (seed : UInt64) (bytes : List UInt8) : UInt64 :=
  bytes.foldl (fun seed b => combine seed b.toUInt64) seed

mutual

-- A hash of documents that tells the kinds of their numbers apart.
def document (double : Float → UInt64) : Json → UInt64
  | .null => combine 0 0
  | .object members => documentMembers double (combine 1 (.ofNat members.length)) members
  | .array items => documentItems double (combine 2 (.ofNat items.length)) items
  | .string t => combine 3 (combineBytes 0 t)
  | .bool b => combine 4 (if b then 1 else 0)
  | .int n => combine 5 n.toUInt64
  | .unsigned n => combine 6 n
  | .double x => combine 7 (double x)

def documentItems (double : Float → UInt64) (seed : UInt64) : List Json → UInt64
  | [] => seed
  | j :: rest => documentItems double (combine seed (document double j)) rest

def documentMembers (double : Float → UInt64) (seed : UInt64) : List (Text × Json) → UInt64
  | [] => seed
  | (key, j) :: rest =>
    documentMembers double (combine (combine seed (combineBytes 0 key)) (document double j)) rest

end

end Hash

-- Hash functions to run with. The two zeros hash alike.
def HashFunctions.plain : HashFunctions where
  size n := n
  bool b := if b then 1 else 0
  int n := n.toUInt64
  double x := if x == 0 then 0 else x.toBits
  string t := Hash.combineBytes 0 t
  json := Hash.document fun x => if x == 0 then 0 else x.toBits

namespace Value

open Hash (combine combineBytes)

mutual

-- Timestamps hash as instants. An address without a mask hashes like one with
-- a mask length of -1.
def hash (f : HashFunctions) (v : Value) : UInt64 :=
  let seed := f.size (.ofNat v.kind.rank)
  match v with
  | .null => seed
  | .bool b => combine seed (f.bool b)
  | .int n => combine seed (f.int n)
  | .double x => combine seed (f.double x)
  | .string t => combine seed (f.string t)
  | .uuid u => combineBytes seed u.bytes
  | .timestamp t =>
    combine (combine seed (f.int (.ofInt t.utcMicros))) (if t.zoned then 1 else 0)
  | .bytes b => combineBytes seed b
  | .array items => hashItems f seed items
  | .json j => combine seed (f.json j)
  | .inet a =>
    combine (combineBytes seed a.bytes) (.ofNat ((a.maskLength.map (· + 1)).getD 0))

def hashItems (f : HashFunctions) (seed : UInt64) : List Value → UInt64
  | [] => seed
  | v :: rest => hashItems f (combine seed (hash f v)) rest

end

-- Whether a table takes two keys for one. Keys that are equal and yet hash apart are
-- two to it.
def sameKey (f : HashFunctions) (a b : Value) : Bool := a.hash f == b.hash f && a.same b

-- The bucket of a key among a number of buckets.
def bucket (f : HashFunctions) {count : Nat} (hcount : 0 < count) (key : Value) : Fin count :=
  ⟨(key.hash f).toNat % count, Nat.mod_lt _ hcount⟩

-- The position of the first value that is the same key.
def position? (f : HashFunctions) (v : Value) (values : List Value) : Option Nat :=
  values.findIdx? (sameKey f · v)

end Value

-- The keys of a list by a test that takes keys for one, each where it stands first.
def firstKeys (same : Value → Value → Bool) (keys : List Value) : List Value := keys.eraseDupsBy same

-- A table keyed by values. Every entry stands in the bucket of its key, and no
-- other bucket is searched for a key. The hash maps of the library do not serve,
-- for equality of values is neither reflexive nor transitive.
structure HashTable (f : HashFunctions) (α : Type) where
  count : Nat
  count_pos : 0 < count
  entriesOf : Fin count → List (Value × α)
  placed : ∀ i, ∀ e ∈ entriesOf i, e.1.bucket f count_pos = i

namespace HashTable

variable {f : HashFunctions} {α : Type}

def empty (f : HashFunctions) (α : Type) : HashTable f α where
  count := 1
  count_pos := Nat.one_pos
  entriesOf _ := []
  placed := by simp

def entries (t : HashTable f α) : List (Value × α) :=
  (List.finRange t.count).flatMap t.entriesOf

-- The first entry of the key's bucket with the hash of the key and an equal key.
def find? (t : HashTable f α) (key : Value) : Option (Value × α) :=
  (t.entriesOf (key.bucket f t.count_pos)).find? fun e =>
    e.1.hash f == key.hash f && e.1.same key

-- A key that is found is not put in again.
def insert (t : HashTable f α) (key : Value) (a : α) : HashTable f α :=
  if (t.find? key).isSome then t
  else
    { t with
      entriesOf := fun i =>
        if key.bucket f t.count_pos = i then t.entriesOf i ++ [(key, a)] else t.entriesOf i
      placed := by
        intro i e he
        split at he
        · next hi =>
          rcases List.mem_append.mp he with he | he
          · exact t.placed i e he
          · rw [List.mem_singleton.mp he, hi]
        · exact t.placed i e he }

-- The same entries over another number of buckets.
def rehash (t : HashTable f α) {count : Nat} (hcount : 0 < count) : HashTable f α where
  count := count
  count_pos := hcount
  entriesOf i := t.entries.filter fun e => e.1.bucket f hcount = i
  placed i e he := by simpa using (List.mem_filter.mp he).2

end HashTable

end EntitySql
