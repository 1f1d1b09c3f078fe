import EntitySql.Query.Select

-- Numbered slots in hand-written SQL: a number between braces stands for a
-- value. All other braces are text, and the values themselves are never
-- searched for slots.

namespace EntitySql.Query

inductive RawToken where
  | byte (c : UInt8)
  | slot (digits : Text)
  deriving DecidableEq

namespace RawToken

-- A slot that has been begun and turned out to be none.
def abandoned (digits : Text) : List RawToken := (Byte.openBrace :: digits).map .byte

-- The digits since the last opening brace are passed along, while nothing
-- else has followed it.
def scan : Option Text → Text → List RawToken
  | none, [] => []
  | some digits, [] => abandoned digits
  | none, c :: rest =>
    if c = Byte.openBrace then scan (some []) rest else .byte c :: scan none rest
  | some digits, c :: rest =>
    if Byte.isDigit c then scan (some (digits ++ [c])) rest
    else if c = Byte.closeBrace && !digits.isEmpty then .slot digits :: scan none rest
    else if c = Byte.openBrace then abandoned digits ++ scan (some []) rest
    else abandoned digits ++ .byte c :: scan none rest

def ofText (sql : Text) : List RawToken := scan none sql

end RawToken

-- Slot numbers are read as words of 64 bits.
def slotValue (sql : Text) (values : List Value) (digits : Text) : Result Value :=
  let index := Text.digitsValue digits
  if Nat.pow 2 64 ≤ index then .error .placeholderOverflow
  else match values[index]? with
    | some v => .ok v
    | none => .error (.contract (.placeholderWithoutValue index sql))

def fillToken (c : Sql.Compiler) (sql : Text) (values : List Value) :
    RawToken → Sql.Compiler.Step RawPiece
  | .byte b => return .byte b
  | .slot digits => do
    let v ← slotValue sql values digits
    return .term (← c.constant v)

-- The text with a value for every slot.
def fillSlots (c : Sql.Compiler) (sql : Text) (values : List Value) :
    Sql.Compiler.Step (List RawPiece) :=
  (RawToken.ofText sql).mapM (fillToken c sql values)

end EntitySql.Query
