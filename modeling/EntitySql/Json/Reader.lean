import EntitySql.Json
import EntitySql.Binary64.Reader
import EntitySql.Text.Numeral

-- Reading JSON documents. The text must be one document with nothing but
-- white space around it; strings must be well-formed UTF-8.

namespace EntitySql.Json

def isBlank (c : UInt8) : Bool :=
  c == Byte.space || c == Byte.tab || c == Byte.lineFeed || c == Byte.carriageReturn

def skipBlanks (t : Text) : Text := t.dropWhile isBlank

-- The UTF-8 bytes of a code point.
def codePointBytes (n : Nat) : Text :=
  if n < 0x80 then [UInt8.ofNat n]
  else if n < 0x800 then [UInt8.ofNat (0xc0 + n / 64), UInt8.ofNat (0x80 + n % 64)]
  else if n < 0x10000 then
    [UInt8.ofNat (0xe0 + n / 4096), UInt8.ofNat (0x80 + n / 64 % 64), UInt8.ofNat (0x80 + n % 64)]
  else
    [UInt8.ofNat (0xf0 + n / 262144), UInt8.ofNat (0x80 + n / 4096 % 64),
      UInt8.ofNat (0x80 + n / 64 % 64), UInt8.ofNat (0x80 + n % 64)]

def inRange (c low high : UInt8) : Bool := low ≤ c && c ≤ high

def isContinuation (c : UInt8) : Bool := inRange c 0x80 0xbf

-- The length of the well-formed multi-byte sequence at the front.
def sequenceLength? : Text → Option Nat
  | a :: b :: rest =>
    if inRange a 0xc2 0xdf && isContinuation b then some 2
    else match rest with
      | [] => none
      | c :: rest =>
        if isContinuation c &&
            ((a == 0xe0 && inRange b 0xa0 0xbf) || (inRange a 0xe1 0xec && isContinuation b) ||
              (a == 0xed && inRange b 0x80 0x9f) || (inRange a 0xee 0xef && isContinuation b)) then
          some 3
        else match rest with
          | [] => none
          | d :: _ =>
            if isContinuation c && isContinuation d &&
                ((a == 0xf0 && inRange b 0x90 0xbf) || (inRange a 0xf1 0xf3 && isContinuation b) ||
                  (a == 0xf4 && inRange b 0x80 0x8f)) then
              some 4
            else none
  | _ => none

def fourHexDigits? (t : Text) : Option (Nat × Text) :=
  let digits := t.take 4
  if digits.length = 4 && digits.all Byte.isHexDigit then
    some (Text.hexDigitsValue digits, t.drop 4)
  else none

-- The code point behind a backslash and u; a high surrogate must be followed
-- by a low one.
def escapedCodePoint? (t : Text) : Option (Nat × Text) := do
  let (n, rest) ← fourHexDigits? t
  if 0xd800 ≤ n && n ≤ 0xdbff then
    match rest with
    | Byte.backslash :: 0x75 :: rest =>
      let (m, rest) ← fourHexDigits? rest
      if 0xdc00 ≤ m && m ≤ 0xdfff then some (0x10000 + (n - 0xd800) * 0x400 + (m - 0xdc00), rest)
      else none
    | _ => none
  else if 0xdc00 ≤ n && n ≤ 0xdfff then none
  else some (n, rest)

def simpleEscape? (c : UInt8) : Option UInt8 :=
  if c = Byte.doubleQuote || c = Byte.backslash || c = Byte.slash then some c
  else if c = 0x62 then some Byte.backspace
  else if c = 0x66 then some Byte.formFeed
  else if c = 0x6e then some Byte.lineFeed
  else if c = 0x72 then some Byte.carriageReturn
  else if c = 0x74 then some Byte.tab
  else none

-- The rest of a string behind its opening quote. Every step takes at least
-- one byte, so the length of the text is fuel enough.
def takeString? : Nat → Text → Option (Text × Text)
  | 0, _ => none
  | _ + 1, [] => none
  | fuel + 1, c :: rest =>
    if c = Byte.doubleQuote then some ([], rest)
    else if c = Byte.backslash then
      match rest with
      | [] => none
      | e :: rest =>
        if e = 0x75 then do
          let (n, rest) ← escapedCodePoint? rest
          let (t, rest) ← takeString? fuel rest
          return (codePointBytes n ++ t, rest)
        else do
          let b ← simpleEscape? e
          let (t, rest) ← takeString? fuel rest
          return (b :: t, rest)
    else if c < 0x20 then none
    else if c < 0x80 then do
      let (t, rest) ← takeString? fuel rest
      return (c :: t, rest)
    else do
      let n ← sequenceLength? (c :: rest)
      let (t, rest') ← takeString? fuel ((c :: rest).drop n)
      return ((c :: rest).take n ++ t, rest')

-- A numeral without superfluous zeros in front; a point and an exponent mark
-- need digits behind them. The result tells whether it is whole.
def takeNumeral? (t : Text) : Option (Text × Bool × Text) := do
  let (sign, t) := match t with
    | Byte.minus :: rest => (([Byte.minus] : Text), rest)
    | _ => ([], t)
  let whole := t.takeWhile Byte.isDigit
  let t := t.dropWhile Byte.isDigit
  guard (!whole.isEmpty && (whole.length == 1 || whole.head? != some Byte.zero))
  let (fraction, t) ← match t with
    | Byte.dot :: rest =>
      let digits := rest.takeWhile Byte.isDigit
      if digits.isEmpty then none else some (Byte.dot :: digits, rest.dropWhile Byte.isDigit)
    | _ => some ([], t)
  let (exponent, t) ← match t with
    | c :: rest =>
      if Byte.toLower c = 0x65 then
        let (sign, rest) := match rest with
          | Byte.plus :: r => (([Byte.plus] : Text), r)
          | Byte.minus :: r => ([Byte.minus], r)
          | r => ([], r)
        let digits := rest.takeWhile Byte.isDigit
        if digits.isEmpty then none else some (c :: sign ++ digits, rest.dropWhile Byte.isDigit)
      else some ([], t)
    | [] => some ([], t)
  return (sign ++ whole ++ fraction ++ exponent, fraction.isEmpty && exponent.isEmpty, t)

-- A whole numeral with a sign must fit a signed 64-bit word, and one without an
-- unsigned word.
def whole? (t : Text) : Option Json :=
  match t with
  | Byte.minus :: _ => (Text.toIntWithin? 64 t).map fun n => .int (.ofInt n)
  | _ =>
    ((Text.toInt? t).filter fun n : Int => decide (n < Nat.pow 2 64)).map fun n =>
      .unsigned (.ofNat n.toNat)

-- Whole numerals that fit their words stay whole; all others are doubles, and must be
-- finite.
def numeral? (t : Text) (whole : Bool) : Option Json :=
  match if whole then whole? t else none with
  | some j => some j
  | none => do
    let x ← Binary64.read? t
    match Binary64.ofFloat x with
    | .finite .. => some (.double x)
    | _ => none

def takeWord? (word : Text) (value : Json) (t : Text) : Option (Json × Text) :=
  if word.isPrefixOf t then some (value, t.drop word.length) else none

mutual

-- One document at the front of the text. The fuel bounds the nesting and the
-- number of items, so the length of the text is enough.
def take? : Nat → Text → Option (Json × Text)
  | 0, _ => none
  | fuel + 1, t =>
    match skipBlanks t with
    | [] => none
    | Byte.openBracket :: rest =>
      match skipBlanks rest with
      | Byte.closeBracket :: rest => some (.array [], rest)
      | rest => (takeItems? fuel rest).map fun r => (.array r.1, r.2)
    | Byte.openBrace :: rest =>
      match skipBlanks rest with
      | Byte.closeBrace :: rest => some (.object [], rest)
      | rest => (takeMembers? fuel rest).map fun r => (ofMembers r.1, r.2)
    | Byte.doubleQuote :: rest =>
      (takeString? (rest.length + 1) rest).map fun r => (.string r.1, r.2)
    | c :: rest =>
      if c = 0x74 then takeWord? "true" (.bool true) (c :: rest)
      else if c = 0x66 then takeWord? "false" (.bool false) (c :: rest)
      else if c = 0x6e then takeWord? "null" .null (c :: rest)
      else do
        let (numeral, whole, rest) ← takeNumeral? (c :: rest)
        return (← numeral? numeral whole, rest)

def takeItems? : Nat → Text → Option (List Json × Text)
  | 0, _ => none
  | fuel + 1, t => do
    let (item, rest) ← take? fuel t
    match skipBlanks rest with
    | Byte.comma :: rest =>
      let (items, rest) ← takeItems? fuel rest
      return (item :: items, rest)
    | Byte.closeBracket :: rest => return ([item], rest)
    | _ => none

def takeMembers? : Nat → Text → Option (List (Text × Json) × Text)
  | 0, _ => none
  | fuel + 1, t =>
    match skipBlanks t with
    | Byte.doubleQuote :: rest => do
      let (key, rest) ← takeString? (rest.length + 1) rest
      match skipBlanks rest with
      | Byte.colon :: rest =>
        let (value, rest) ← take? fuel rest
        match skipBlanks rest with
        | Byte.comma :: rest =>
          let (members, rest) ← takeMembers? fuel rest
          return ((key, value) :: members, rest)
        | Byte.closeBrace :: rest => return ([(key, value)], rest)
        | _ => none
      | _ => none
    | _ => none

end

def read? (t : Text) : Option Json := do
  let (value, rest) ← take? (2 * t.length + 2) t
  if (skipBlanks rest).isEmpty then some value else none

end EntitySql.Json
