import EntitySql.Error

-- Result sets held in memory, and reading them row by row.

namespace EntitySql

structure Column where
  name : Text
  typeName : Text := []

-- Reading may cancel the operation that reads: then during the advance with
-- the given number, counted from 0.
structure ResultSet where
  columns : List Column
  rows : List (List Value)
  cancelAt : Option Nat := none

namespace ResultSet

def checkWidths (expected : Nat) (row : Nat) : List (List Value) → Result Unit
  | [] => .ok ()
  | cells :: rest =>
    if cells.length = expected then checkWidths expected (row + 1) rest
    else .error (.contract (.rowWidth row cells.length expected))

-- Every row must have a value for each column.
def check (r : ResultSet) : Result Unit := checkWidths r.columns.length 0 r.rows

-- The advance with the given number. It is not made after a cancellation,
-- and it may itself cancel the operation.
def advance (r : ResultSet) (index : Nat) (cancelled : Bool) : Result Bool :=
  if cancelled then .error .cancelled else .ok (decide (r.cancelAt = some index))

-- The first column of the name, ignoring case.
def ordinal? (columns : List Column) (name : Text) : Option Nat :=
  columns.findIdx? fun c => Text.sameFolded c.name name

end ResultSet

-- A reader stands before the first row, on a row, or behind the last.
structure RowReader where
  set : ResultSet
  position : Option Nat := none

namespace RowReader

def new (set : ResultSet) : Result RowReader := do
  set.check
  return { set }

def advance (r : RowReader) : Bool × RowReader :=
  let next := match r.position with
    | none => 0
    | some p => if p < r.set.rows.length then p + 1 else p
  (decide (next < r.set.rows.length), { r with position := some next })

def column (r : RowReader) (ordinal : Nat) : Result Column :=
  match r.set.columns[ordinal]? with
  | some c => .ok c
  | none => .error (.contract .ordinalOutOfRange)

def cell (r : RowReader) (ordinal : Nat) : Result Value :=
  match r.position.bind (r.set.rows[·]?) with
  | none => .error (.contract .notOnRow)
  | some cells =>
    match cells[ordinal]? with
    | some v => .ok v
    | none => .error (.contract .ordinalOutOfRange)

end RowReader

end EntitySql
