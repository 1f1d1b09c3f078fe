import EntitySql.Error

-- What is written into SQL in quotes: names, literals of every kind of value,
-- and LIKE patterns.

namespace EntitySql.Sql

-- A dotted name is quoted segment by segment, and a segment that is a single
-- star stays bare.

def quoteByte (c : UInt8) : Text :=
  if c = Byte.doubleQuote then [Byte.doubleQuote, Byte.doubleQuote] else [c]

def quotedSegment (segment : Text) : Text :=
  if segment = [Byte.star] then segment
  else Byte.doubleQuote :: segment.flatMap quoteByte ++ [Byte.doubleQuote]

-- The name in quotes; of use for names without a fault.
def quoted (name : Text) : Text :=
  Text.join [Byte.dot] ((Text.split Byte.dot name).map quotedSegment)

def identifierSegmentFault? (segment : Text) : Option ContractFault :=
  if segment.isEmpty then some .emptyIdentifierSegment
  else if segment.elem Byte.nul then some .nulInIdentifier
  else none

-- Why a name cannot be quoted, by its first faulty segment.
def identifierFault? (name : Text) : Option ContractFault :=
  (Text.split Byte.dot name).findSome? identifierSegmentFault?

def identifier (name : Text) : Result Text :=
  match identifierFault? name with
  | some fault => .error (.contract fault)
  | none => .ok (quoted name)

-- A column behind the alias of its table.
def qualified (aliasName column : Text) : Result Text := do
  let name ← identifier column
  let table ← identifier aliasName
  return table ++ Byte.dot :: name

-- The escape letter of a byte that plain quotes cannot hold.
def escapeLetter? (c : UInt8) : Option UInt8 :=
  if c = Byte.backslash then some Byte.backslash
  else if c = Byte.backspace then some 0x62
  else if c = Byte.formFeed then some 0x66
  else if c = Byte.lineFeed then some 0x6e
  else if c = Byte.carriageReturn then some 0x72
  else if c = Byte.tab then some 0x74
  else if c = Byte.verticalTab then some 0x76
  else none

def literalByte (c : UInt8) : Text :=
  if c = Byte.quote then [Byte.quote, Byte.quote]
  else match escapeLetter? c with
    | some letter => [Byte.backslash, letter]
    | none => [c]

-- A quote is doubled. Backslashes and control characters are escaped, and
-- one of them anywhere makes the literal an escape literal.
def stringLiteral (t : Text) : Result Text :=
  if t.elem Byte.nul then .error (.conversion .nulInLiteral)
  else
    let opening : Text := if t.any fun c => (escapeLetter? c).isSome then "E'" else "'"
    .ok (opening ++ t.flatMap literalByte ++ [Byte.quote])

def isWildcard (c : UInt8) : Bool :=
  c == Byte.backslash || c == Byte.percent || c == Byte.underscore

def likeByte (c : UInt8) : Text := if isWildcard c then [Byte.backslash, c] else [c]

-- The text as a LIKE pattern that only it matches; not yet quoted.
def likeEscape (t : Text) : Text := t.flatMap likeByte

def emptyArray : Text := "ARRAY[]::text[]"

def currentTimestamp : Text := "NOW()"

def concatenation : Text := "||"

def caseInsensitiveLike : Text := "ILIKE"

def doubleLiteral (x : Float) : Text :=
  match Binary64.ofFloat x with
  | .nan => "'NaN'::double precision"
  | .infinite negative =>
    if negative then "'-Infinity'::double precision" else "'Infinity'::double precision"
  | .finite .. => Binary64.seventeenDigits x

def timestampLiteral (t : Timestamp) : Text :=
  "'" ++ t.text ++ "'::timestamp" ++ if t.zoned then Text.ofString "tz" else []

mutual

def literal : Value → Result Text
  | .null => .ok "NULL"
  | .bool b => .ok (if b then "true" else "false")
  | .int n => .ok (Text.ofInt n.toInt)
  | .double x => .ok (doubleLiteral x)
  | .string t => stringLiteral t
  | .uuid u => .ok ("'" ++ u.text ++ "'::uuid")
  | .timestamp t => .ok (timestampLiteral t)
  | .bytes b => .ok ("'\\x" ++ Text.hexBytes b ++ "'::bytea")
  | .array items => do
    let parts ← literals items
    if parts.isEmpty then return emptyArray
    else return "ARRAY[" ++ Text.commaJoin parts ++ "]"
  | .json j => do
    let quoted ← stringLiteral j.text
    return quoted ++ "::jsonb"
  | .inet a => do
    let quoted ← stringLiteral a.text
    return quoted ++ "::inet"

def literals : List Value → Result (List Text)
  | [] => .ok []
  | v :: rest => do
    let part ← literal v
    let parts ← literals rest
    return part :: parts

end

-- The name of the parameter at a position.
def parameterName (index : Nat) : Text := "@p" ++ Text.ofNat index

end EntitySql.Sql
