import EntitySql.Value.Access

-- Array literals such as {1,"a b",{2,3},NULL}: nested braces around elements
-- that are bare words, quoted texts or arrays.

namespace EntitySql.Conversion.ArrayLiteral

def skipSpace (t : Text) : Text := t.dropWhile Byte.isSpace

-- The content behind an opening quote; a backslash takes the next byte as
-- it is.
def takeQuoted? : Text → Option (Text × Text)
  | [] => none
  | c :: rest =>
    if c = Byte.doubleQuote then some ([], rest)
    else if c = Byte.backslash then
      match rest with
      | [] => none
      | escaped :: rest => (takeQuoted? rest).map fun r => (escaped :: r.1, r.2)
    else (takeQuoted? rest).map fun r => (c :: r.1, r.2)

def endsBare (c : UInt8) : Bool := c == Byte.comma || c == Byte.closeBrace

-- A word up to the next comma or closing brace, without the space behind it.
def takeBare? (t : Text) : Option (Text × Text) :=
  let word := ((t.takeWhile fun c => !endsBare c).reverse.dropWhile Byte.isSpace).reverse
  if word.isEmpty then none else some (word, t.dropWhile fun c => !endsBare c)

-- The word null is a null in any case of letters, unless it is quoted.
def bareValue (word : Text) : Value :=
  if Text.lower word == "null" then .null else .string word

mutual

-- The fuel bounds the number of elements and nested arrays, each of which
-- takes at least one byte.
def takeArray? : Nat → Text → Option (List Value × Text)
  | 0, _ => none
  | fuel + 1, t =>
    match skipSpace t with
    | Byte.openBrace :: rest =>
      match skipSpace rest with
      | Byte.closeBrace :: rest => some ([], rest)
      | _ => takeElements? fuel rest
    | _ => none

def takeElement? : Nat → Text → Option (Value × Text)
  | 0, _ => none
  | fuel + 1, t =>
    match skipSpace t with
    | [] => none
    | Byte.openBrace :: rest =>
      (takeArray? fuel (Byte.openBrace :: rest)).map fun r => (.array r.1, r.2)
    | Byte.doubleQuote :: rest => (takeQuoted? rest).map fun r => (.string r.1, r.2)
    | t => (takeBare? t).map fun r => (bareValue r.1, r.2)

def takeElements? : Nat → Text → Option (List Value × Text)
  | 0, _ => none
  | fuel + 1, t => do
    let (element, rest) ← takeElement? fuel t
    match skipSpace rest with
    | Byte.comma :: rest =>
      let (elements, rest) ← takeElements? fuel rest
      return (element :: elements, rest)
    | Byte.closeBrace :: rest => return ([element], rest)
    | _ => none

end

def read? (t : Text) : Option (List Value) := do
  let (items, rest) ← takeArray? (3 * t.length + 3) t
  if (skipSpace rest).isEmpty then some items else none

def ofText (t : Text) : Result (List Value) :=
  match read? t with
  | some items => .ok items
  | none => .error (.conversion (.invalidArrayLiteral t))

end EntitySql.Conversion.ArrayLiteral
