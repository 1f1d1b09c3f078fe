import EntitySql.Sql.Sanitizer

-- Window functions as projections of a query.

namespace EntitySql.Query

-- The ranking functions take no column, and COUNT without one counts rows.
inductive WindowFunction where
  | rowNumber
  | rank
  | denseRank
  | lead (column : Text) (offset : Int) (default : Option Value)
  | lag (column : Text) (offset : Int) (default : Option Value)
  | firstValue (column : Text)
  | lastValue (column : Text)
  | nthValue (column : Text) (position : Int)
  | sum (column : Text)
  | average (column : Text)
  | count (column : Text)
  | min (column : Text)
  | max (column : Text)

inductive FrameUnit where
  | rows
  | range
  | groups
  deriving DecidableEq

inductive FrameBound where
  | unboundedPreceding
  | unboundedFollowing
  | currentRow
  | preceding (n : Int)
  | following (n : Int)
  deriving DecidableEq

structure Frame where
  unit : FrameUnit
  start : FrameBound
  finish : FrameBound
  deriving DecidableEq

structure WindowOrder where
  column : Text
  ascending : Bool

structure Window where
  function : WindowFunction
  aliasName : Text
  partitions : List Text := []
  orders : List WindowOrder := []
  frame : Option Frame := none

namespace WindowFunction

def name : WindowFunction → Text
  | .rowNumber => "ROW_NUMBER"
  | .rank => "RANK"
  | .denseRank => "DENSE_RANK"
  | .lead .. => "LEAD"
  | .lag .. => "LAG"
  | .firstValue _ => "FIRST_VALUE"
  | .lastValue _ => "LAST_VALUE"
  | .nthValue .. => "NTH_VALUE"
  | .sum _ => "SUM"
  | .average _ => "AVG"
  | .count _ => "COUNT"
  | .min _ => "MIN"
  | .max _ => "MAX"

-- The function of a name with those of the arguments that it takes.
def ofName? (name column : Text) (offset : Int) (default : Option Value) (position : Int) :
    Option WindowFunction :=
  [.rowNumber, .rank, .denseRank, .lead column offset default, .lag column offset default,
    .firstValue column, .lastValue column, .nthValue column position, .sum column,
    .average column, .count column, .min column, .max column].find? fun f =>
      WindowFunction.name f == name

-- The name in lower case.
def defaultAlias (f : WindowFunction) : Text := Text.lower f.name

-- The one check when a function is made: positions count from 1.
def check : WindowFunction → Result Unit
  | .nthValue _ position =>
    if position < 1 then .error (.contract .nthBelowOne) else .ok ()
  | _ => .ok ()

def requiredColumn (f : WindowFunction) (column : Text) : Result Text :=
  if column.isEmpty then .error (.contract (.windowColumn f.name)) else Sql.identifier column

def offsetArguments (column : Text) (offset : Int) (default : Option Value) : Result Text := do
  let column ← Sql.identifier column
  let arguments := column ++ ", " ++ Text.ofInt offset
  match default with
  | none => return arguments
  | some v =>
    let literal ← Sql.literal v
    return arguments ++ ", " ++ literal

def arguments (f : WindowFunction) : Result Text :=
  match f with
  | .rowNumber => .ok []
  | .rank => .ok []
  | .denseRank => .ok []
  | .lead column offset default => offsetArguments column offset default
  | .lag column offset default => offsetArguments column offset default
  | .nthValue column position => do
    let column ← Sql.identifier column
    return column ++ ", " ++ Text.ofInt position
  | .count column => if column.isEmpty then .ok [Byte.star] else Sql.identifier column
  | .firstValue column => f.requiredColumn column
  | .lastValue column => f.requiredColumn column
  | .sum column => f.requiredColumn column
  | .average column => f.requiredColumn column
  | .min column => f.requiredColumn column
  | .max column => f.requiredColumn column

end WindowFunction

def FrameUnit.text : FrameUnit → Text
  | .rows => "ROWS"
  | .range => "RANGE"
  | .groups => "GROUPS"

def FrameBound.text : FrameBound → Text
  | .unboundedPreceding => "UNBOUNDED PRECEDING"
  | .unboundedFollowing => "UNBOUNDED FOLLOWING"
  | .currentRow => "CURRENT ROW"
  | .preceding n => Text.ofInt n ++ " PRECEDING"
  | .following n => Text.ofInt n ++ " FOLLOWING"

-- A frame of the current row alone is left out.
def Frame.isDefault (f : Frame) : Bool := f.start = .currentRow && f.finish = .currentRow

def Frame.text (f : Frame) : Text :=
  f.unit.text ++ " BETWEEN " ++ f.start.text ++ " AND " ++ f.finish.text

def WindowOrder.text (o : WindowOrder) : Result Text := do
  let column ← Sql.identifier o.column
  return column ++ (if o.ascending then Text.ofString " ASC" else Text.ofString " DESC")

namespace Window

def of (f : WindowFunction) : Window := { function := f, aliasName := f.defaultAlias }

def partitionBy (w : Window) (column : Text) : Window :=
  { w with partitions := w.partitions ++ [column] }

def orderBy (w : Window) (column : Text) (ascending : Bool) : Window :=
  { w with orders := w.orders ++ [⟨column, ascending⟩] }

def between (w : Window) (unit : FrameUnit) (start finish : FrameBound) : Window :=
  { w with frame := some ⟨unit, start, finish⟩ }

-- A clause of the window: a word before a list, or nothing for no items.
def listClause (word : Text) (items : List Text) : List Text :=
  if items.isEmpty then [] else [word ++ Text.commaJoin items]

def frameClause (w : Window) : List Text :=
  match w.frame with
  | none => []
  | some f => if f.isDefault then [] else [f.text]

def text (w : Window) : Result Text := do
  let arguments ← w.function.arguments
  let partitions ← w.partitions.mapM Sql.identifier
  let orders ← w.orders.mapM WindowOrder.text
  let clauses :=
    listClause "PARTITION BY " partitions ++ listClause "ORDER BY " orders ++ w.frameClause
  let call := w.function.name ++ "(" ++ arguments ++ ") OVER (" ++ Text.join " " clauses ++ ")"
  if w.aliasName.isEmpty then return call
  let aliasName ← Sql.identifier w.aliasName
  return call ++ " AS " ++ aliasName

end Window

end EntitySql.Query
