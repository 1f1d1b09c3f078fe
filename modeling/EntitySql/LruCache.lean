-- A map of bounded size that forgets the least recently used key. A list holds
-- the keys in order of use, the latest first, and every entry of the map knows
-- the node of its key in that list.

namespace EntitySql

namespace LruCache

-- A node keeps its number wherever it is moved to.
structure Node (κ : Type) where
  number : Nat
  key : κ

structure Slot (α : Type) where
  value : α
  node : Nat

end LruCache

structure LruCache (κ α : Type) where
  capacity : Nat
  recency : List (LruCache.Node κ) := []
  table : List (κ × LruCache.Slot α) := []
  nextNode : Nat := 0
  hits : Nat := 0
  misses : Nat := 0

namespace LruCache

variable {κ α : Type} [DecidableEq κ]

-- A capacity of zero counts as one.
def new (capacity : Nat) : LruCache κ α := { capacity := max capacity 1 }

def size (c : LruCache κ α) : Nat := c.table.length

def entries (c : LruCache κ α) : List (κ × α) := c.table.map fun e => (e.1, e.2.value)

-- Looking up is no use of the entry.
def find? (c : LruCache κ α) (key : κ) : Option α := (c.table.lookup key).map Slot.value

-- Moves the node of an entry to the front.
def touch (c : LruCache κ α) (slot : Slot α) : LruCache κ α :=
  let (moved, others) := c.recency.partition fun n => n.number = slot.node
  { c with recency := moved ++ others }

def without (key : κ) (table : List (κ × Slot α)) : List (κ × Slot α) :=
  table.filter fun e => !decide (e.1 = key)

-- Drops the oldest nodes and their entries while the table is too long. The
-- nodes are passed with the oldest first.
def dropOldest (capacity : Nat) :
    List (Node κ) → List (κ × Slot α) → List (Node κ) × List (κ × Slot α)
  | [], table => ([], table)
  | oldest :: newer, table =>
    if capacity < table.length then dropOldest capacity newer (without oldest.key table)
    else (oldest :: newer, table)

def evict (c : LruCache κ α) : LruCache κ α :=
  let (nodes, table) := dropOldest c.capacity c.recency.reverse c.table
  { c with recency := nodes.reverse, table }

def push (c : LruCache κ α) (key : κ) (a : α) : LruCache κ α :=
  { c with
    recency := ⟨c.nextNode, key⟩ :: c.recency
    table := (key, ⟨a, c.nextNode⟩) :: c.table
    nextNode := c.nextNode + 1 }

-- Stores an entry that is not there yet.
def insert (c : LruCache κ α) (key : κ) (a : α) : LruCache κ α := (c.push key a).evict

-- Keeps a present entry and makes it the latest; the flag tells whether the
-- new one was stored.
def tryAdd (c : LruCache κ α) (key : κ) (a : α) : LruCache κ α × Bool :=
  match c.table.lookup key with
  | some slot => (c.touch slot, false)
  | none => (c.insert key a, true)

-- Counts a hit or a miss. On a hit the entry is the latest again.
def lookUp (c : LruCache κ α) (key : κ) : Option α × LruCache κ α :=
  match c.table.lookup key with
  | some slot => (some slot.value, { c.touch slot with hits := c.hits + 1 })
  | none => (none, { c with misses := c.misses + 1 })

-- Stores what a factory made after a miss. The factory may itself have used
-- the cache, so an entry that is there by now is kept and returned.
def store (c : LruCache κ α) (key : κ) (a : α) : α × LruCache κ α :=
  match c.table.lookup key with
  | some slot => (slot.value, c.touch slot)
  | none => (a, (c.tryAdd key a).1)

-- The entry, made by the factory if it is missing. A factory that fails
-- stores nothing.
def getOrMake {ε : Type} (c : LruCache κ α) (key : κ)
    (factory : LruCache κ α → Except ε α × LruCache κ α) : Except ε α × LruCache κ α :=
  match c.lookUp key with
  | (some a, c) => (.ok a, c)
  | (none, c) =>
    match factory c with
    | (.error e, c) => (.error e, c)
    | (.ok a, c) =>
      let (stored, c) := c.store key a
      (.ok stored, c)

-- The same for a factory that does not use the cache.
def getOrAdd {ε : Type} (c : LruCache κ α) (key : κ) (factory : Except ε α) :
    Except ε α × LruCache κ α :=
  c.getOrMake key fun c => (factory, c)

def clear (c : LruCache κ α) : LruCache κ α := { capacity := c.capacity }

def setCapacity (c : LruCache κ α) (capacity : Nat) : LruCache κ α :=
  evict { c with capacity := max capacity 1 }

end LruCache

end EntitySql
