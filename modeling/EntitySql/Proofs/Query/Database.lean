import EntitySql.Proofs.Query.Moving

-- A database, as far as the two statements of a grouped query depend on it.
-- What it does with one statement is left open; what is known is that names
-- and numbers alone make no difference to it.

namespace EntitySql.Query

open Sql (Term)

-- The source under another alias. Hand-written sources bring their own.
def Source.withAlias (aliasName : Option Text) : Source → Source
  | .raw sql => .raw sql
  | .table name _ => .table name aliasName

-- The second statement reads what the first one reads: the same source, and
-- filters that differ in the numbers of their placeholders and in the table
-- before the columns of the root, with the same values for them.
structure ReadsAlike (shift : Nat) (table : Option Text) (bound : Nat) (q q' : Select)
    (values values' : List Value) : Prop where
  tables : q'.parts.tables = q.parts.tables
  source : q'.parts.source = q.parts.source.withAlias table
  rawJoins : q'.parts.rawJoins = q.parts.rawJoins
  filters : List.Forall₂ (Filter.Moves shift table bound) q.filters q'.filters
  values : ∀ i, i + shift < bound → values'[i + shift]? = values[i]?

-- The rows of a source and what is joined to them, and the keys by which rows
-- are grouped. A statement can be refused.
structure Database (Row Joined Key : Type) where
  rows : List CommonTable → Source → List Text → Option (List Row)
  passes : Select → List Value → Option (Row → Bool)
  key : Select → Row → Key
  having : Select → List Value → List Row → Bool
  joined : Select → Row → List Joined
  unique : Select → List (Row × Joined) → List (Row × Joined)
  ordered : Select → List Value → List (Row × Joined) → List (Row × Joined)
  combined : Select → List Value → List (Row × Joined) → List (Row × Joined)
  -- A source that can be read under two aliases has the same rows under both.
  rows_withAlias : ∀ {tables source rawJoins aliasName found found'},
    rows tables source rawJoins = some found →
    rows tables (source.withAlias aliasName) rawJoins = some found' → found' = found
  -- A column that is understood without its table is the column of the root.
  passes_moved : ∀ {shift table bound q q' values values' test test'},
    ReadsAlike shift table bound q q' values values' →
    table = none ∨ table = some Include.Node.rootAlias → q.parts.joins = [] →
    passes q values = some test → passes q' values' = some test' → test' = test
  -- A LEFT JOIN keeps all rows.
  joined_ne_nil : ∀ q r, joined q r ≠ []
  ordered_perm : ∀ q values result, (ordered q values result).Perm result

namespace Database

variable {Row Joined Key : Type} (d : Database Row Joined Key)

-- The rows of the source that pass the filters.
def read (q : Select) (values : List Value) : Option (List Row) := do
  let rows ← d.rows q.parts.tables q.parts.source q.parts.rawJoins
  let passes ← d.passes q values
  return rows.filter passes

def group [DecidableEq Key] (q : Select) (k : Key) (rows : List Row) : List Row :=
  rows.filter fun r => d.key q r = k

-- Whether there is a group of the key, and the HAVING terms hold of it.
def Qualifies [DecidableEq Key] (q : Select) (values : List Value) (rows : List Row) (k : Key) :
    Prop :=
  k ∈ rows.map (d.key q) ∧ d.having q values (d.group q k rows) = true

instance [DecidableEq Key] (q : Select) (values : List Value) (rows : List Row) (k : Key) :
    Decidable (d.Qualifies q values rows k) :=
  inferInstanceAs (Decidable (_ ∧ _))

def page {α : Type} (p : SelectParts) (rows : List α) : List α :=
  let rest := rows.drop (p.offset.getD 0).toNat
  match p.limit with
  | none => rest
  | some n => rest.take n.toNat

-- The result of the statement, if it does not group its rows.
def delivered (q : Select) (values : List Value) (rows : List Row) : List (Row × Joined) :=
  let joined := rows.flatMap fun r => (d.joined q r).map (r, ·)
  let unique := if q.parts.distinct then d.unique q joined else joined
  let paged := page q.parts (d.ordered q values unique)
  if q.operations.isEmpty then paged else d.combined q values paged

-- The rows that come to be delivered.
def fetched [DecidableEq Row] (q : Select) (values : List Value) (rows : List Row) : List Row :=
  rows.filter fun r => r ∈ (d.delivered q values rows).map Prod.fst

variable {d}

theorem read_eq_of_readsAlike {shift bound : Nat} {table : Option Text} {q q' : Select}
    {values values' : List Value} {rows rows' : List Row}
    (halike : ReadsAlike shift table bound q q' values values')
    (htable : table = none ∨ table = some Include.Node.rootAlias) (hjoins : q.parts.joins = [])
    (h : d.read q values = some rows) (h' : d.read q' values' = some rows') : rows' = rows := by
  simp only [read, Option.bind_eq_bind, Option.bind_eq_some_iff, pure, Option.some.injEq] at h h'
  obtain ⟨all, hall, passes, hpasses, rfl⟩ := h
  obtain ⟨all', hall', passes', hpasses', rfl⟩ := h'
  rw [halike.tables, halike.source, halike.rawJoins] at hall'
  rw [d.rows_withAlias hall hall', d.passes_moved halike htable hjoins hpasses hpasses']

-- Without paging and the like, all rows are delivered.
theorem fetched_eq [DecidableEq Row] {q : Select} (hdistinct : q.parts.distinct = false)
    (hlimit : q.parts.limit = none) (hoffset : q.parts.offset = none)
    (hoperations : q.operations = []) (values : List Value) (rows : List Row) :
    d.fetched q values rows = rows := by
  refine List.filter_eq_self.mpr fun r hr => ?_
  obtain ⟨j, hj⟩ := List.exists_mem_of_ne_nil _ (d.joined_ne_nil q r)
  have hjoined : (r, j) ∈ rows.flatMap fun r => (d.joined q r).map (r, ·) :=
    List.mem_flatMap.mpr ⟨r, hr, List.mem_map.mpr ⟨j, hj, rfl⟩⟩
  have hmem : (r, j) ∈ d.delivered q values rows := by
    simp only [delivered, page, hdistinct, hlimit, hoffset, hoperations]
    exact (d.ordered_perm q values _).mem_iff.mpr hjoined
  simpa using ⟨j, hmem⟩

end Database

end EntitySql.Query
