import EntitySql.Include.Join
import EntitySql.Proofs.Include.Chain
import EntitySql.Proofs.Text.Numeral

-- What the JOIN clauses of a plan mean over tables that are lists of
-- records.

namespace EntitySql

-- The cells of a table under the names of their columns.
structure Record where
  cells : List (Text × Value)

-- The first column of the name, ignoring case.
def Record.cell (r : Record) (column : Text) : Value :=
  ((r.cells.find? fun c => Text.sameFolded c.1 column).map (·.2)).getD .null

-- The records of every table.
abbrev Database := Text → List Record

-- Null equals nothing, not even null.
def Value.equals (a b : Value) : Bool := !a.isNull && !b.isNull && a.same b

namespace Include

-- A joined row: the record behind every alias. Where a join finds no match
-- there is none.
abbrev Joined := Text → Option Record

namespace Joined

def value (row : Joined) (column : Text × Text) : Value :=
  ((row column.1).map (·.cell column.2)).getD .null

def bind (row : Joined) (aliasName : Text) (r : Option Record) : Joined :=
  fun a => if a = aliasName then r else row a

@[simp] theorem bind_self (row : Joined) (aliasName : Text) (r : Option Record) :
    row.bind aliasName r aliasName = r := if_pos rfl

theorem bind_other (row : Joined) {aliasName a : Text} (h : a ≠ aliasName) (r : Option Record) :
    row.bind aliasName r a = row a := if_neg h

end Joined

namespace Join

-- The condition of a join for a row and a record of the joined table.
def holds (j : Join) (row : Joined) (r : Record) : Bool :=
  let row := row.bind j.aliasName (some r)
  (row.value j.left).equals (row.value j.right)

-- A row without a match is kept.
def extend (db : Database) (j : Join) (row : Joined) : List Joined :=
  match (db j.table).filter (j.holds row) with
  | [] => [row.bind j.aliasName none]
  | found => found.map fun r => row.bind j.aliasName (some r)

theorem mem_extend {db : Database} {j : Join} {row next : Joined} :
    next ∈ j.extend db row ↔
      (∃ r ∈ db j.table, j.holds row r ∧ next = row.bind j.aliasName (some r)) ∨
        ((∀ r ∈ db j.table, j.holds row r = false) ∧ next = row.bind j.aliasName none) := by
  have hfound : ∀ r, r ∈ (db j.table).filter (j.holds row) ↔ r ∈ db j.table ∧ j.holds row r :=
    fun r => List.mem_filter
  rw [extend]
  cases hcase : (db j.table).filter (j.holds row) with
  | nil =>
    have hnone : ∀ r ∈ db j.table, j.holds row r = false := by
      intro r hr
      simpa using List.filter_eq_nil_iff.mp hcase r hr
    simp only [List.mem_singleton]
    constructor
    · intro heq
      exact .inr ⟨hnone, heq⟩
    · rintro (⟨r, hr, hholds, -⟩ | ⟨-, heq⟩)
      · rw [hnone r hr] at hholds
        cases hholds
      · exact heq
  | cons first rest =>
    rw [hcase] at hfound
    simp only [List.mem_map]
    constructor
    · rintro ⟨r, hr, rfl⟩
      obtain ⟨hmem, hholds⟩ := (hfound r).mp hr
      exact .inl ⟨r, hmem, hholds, rfl⟩
    · rintro (⟨r, hr, hholds, rfl⟩ | ⟨hnone, -⟩)
      · exact ⟨r, (hfound r).mpr ⟨hr, hholds⟩, rfl⟩
      · obtain ⟨hmem, hholds⟩ := (hfound first).mp (List.mem_cons_self ..)
        rw [hnone first hmem] at hholds
        cases hholds

theorem exists_mem_extend (db : Database) (j : Join) (row : Joined) :
    ∃ next, next ∈ j.extend db row := by
  rw [extend]
  cases (db j.table).filter (j.holds row) with
  | nil => exact ⟨_, List.mem_singleton_self _⟩
  | cons first rest => exact ⟨_, List.mem_map_of_mem (List.mem_cons_self ..)⟩

-- Where the left side of a condition stands behind another alias, and the
-- right side behind the joined one.
theorem holds_eq {j : Join} {row : Joined} {r : Record} (hleft : j.left.1 ≠ j.aliasName)
    (hright : j.right.1 = j.aliasName) :
    j.holds row r = (row.value j.left).equals (r.cell j.right.2) := by
  simp only [holds, Joined.value, Joined.bind_other row hleft, hright, Joined.bind_self, Option.map_some,
    Option.getD_some]

end Join

def leftJoin (db : Database) (rows : List Joined) (j : Join) : List Joined :=
  rows.flatMap (j.extend db)

-- All joins in turn, each over the rows of those before it.
def joinAll (db : Database) (js : List Join) (rows : List Joined) : List Joined :=
  js.foldl (leftJoin db) rows

theorem mem_joinAll {db : Database} {js : List Join} {rows : List Joined} {last : Joined} :
    last ∈ joinAll db js rows ↔ ∃ row ∈ rows, last ∈ joinAll db js [row] := by
  induction js generalizing rows with
  | nil => simp [joinAll]
  | cons j rest ih =>
    have hstep : ∀ rows, joinAll db (j :: rest) rows = joinAll db rest (leftJoin db rows j) :=
      fun _ => rfl
    simp only [hstep]
    rw [ih]
    constructor
    · rintro ⟨next, hnext, hlast⟩
      obtain ⟨row, hrow, hmem⟩ := List.mem_flatMap.mp hnext
      refine ⟨row, hrow, ih.mpr ⟨next, ?_, hlast⟩⟩
      simpa [leftJoin] using hmem
    · rintro ⟨row, hrow, hlast⟩
      obtain ⟨next, hnext, hlast⟩ := ih.mp hlast
      refine ⟨next, List.mem_flatMap.mpr ⟨row, hrow, ?_⟩, hlast⟩
      simpa [leftJoin] using hnext

theorem mem_joinAll_append {db : Database} {js more : List Join} {row last : Joined} :
    last ∈ joinAll db (js ++ more) [row] ↔
      ∃ mid, mid ∈ joinAll db js [row] ∧ last ∈ joinAll db more [mid] := by
  rw [joinAll, List.foldl_append]
  exact mem_joinAll

theorem mem_joinAll_singleton {db : Database} {j : Join} {row last : Joined} :
    last ∈ joinAll db [j] [row] ↔ last ∈ j.extend db row := by
  simp [joinAll, leftJoin]

theorem mem_joinAll_pair {db : Database} {j k : Join} {row last : Joined} :
    last ∈ joinAll db [j, k] [row] ↔ ∃ mid, mid ∈ j.extend db row ∧ last ∈ k.extend db mid := by
  simp [joinAll, leftJoin]

theorem exists_mem_joinAll (db : Database) (js : List Join) (row : Joined) :
    ∃ last, last ∈ joinAll db js [row] := by
  induction js generalizing row with
  | nil => exact ⟨row, List.mem_singleton_self row⟩
  | cons j rest ih =>
    obtain ⟨next, hnext⟩ := j.exists_mem_extend db row
    obtain ⟨last, hlast⟩ := ih next
    have hall : last ∈ joinAll db ([j] ++ rest) [row] :=
      mem_joinAll_append.mpr ⟨next, mem_joinAll_singleton.mpr hnext, hlast⟩
    exact ⟨last, hall⟩

end Include

end EntitySql
