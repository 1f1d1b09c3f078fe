-- Text is a list of bytes. Nothing here decodes characters, so lengths,
-- cuts, comparisons and quoting treat every byte string alike, whether or
-- not it is well-formed UTF-8.

namespace EntitySql

abbrev Text := List UInt8

namespace Byte

@[match_pattern] abbrev nul : UInt8 := 0x00
@[match_pattern] abbrev backspace : UInt8 := 0x08
@[match_pattern] abbrev tab : UInt8 := 0x09
@[match_pattern] abbrev lineFeed : UInt8 := 0x0a
@[match_pattern] abbrev verticalTab : UInt8 := 0x0b
@[match_pattern] abbrev formFeed : UInt8 := 0x0c
@[match_pattern] abbrev carriageReturn : UInt8 := 0x0d
@[match_pattern] abbrev space : UInt8 := 0x20
@[match_pattern] abbrev doubleQuote : UInt8 := 0x22
@[match_pattern] abbrev percent : UInt8 := 0x25
@[match_pattern] abbrev quote : UInt8 := 0x27
@[match_pattern] abbrev openParenthesis : UInt8 := 0x28
@[match_pattern] abbrev closeParenthesis : UInt8 := 0x29
@[match_pattern] abbrev star : UInt8 := 0x2a
@[match_pattern] abbrev plus : UInt8 := 0x2b
@[match_pattern] abbrev comma : UInt8 := 0x2c
@[match_pattern] abbrev minus : UInt8 := 0x2d
@[match_pattern] abbrev dot : UInt8 := 0x2e
@[match_pattern] abbrev slash : UInt8 := 0x2f
@[match_pattern] abbrev zero : UInt8 := 0x30
@[match_pattern] abbrev one : UInt8 := 0x31
@[match_pattern] abbrev colon : UInt8 := 0x3a
@[match_pattern] abbrev semicolon : UInt8 := 0x3b
@[match_pattern] abbrev equals : UInt8 := 0x3d
@[match_pattern] abbrev openBracket : UInt8 := 0x5b
@[match_pattern] abbrev backslash : UInt8 := 0x5c
@[match_pattern] abbrev closeBracket : UInt8 := 0x5d
@[match_pattern] abbrev underscore : UInt8 := 0x5f
@[match_pattern] abbrev openBrace : UInt8 := 0x7b
@[match_pattern] abbrev closeBrace : UInt8 := 0x7d

-- Space, tab, line feed, vertical tab, form feed and carriage return.
def isSpace (c : UInt8) : Bool := c == space || (tab ≤ c && c ≤ carriageReturn)

def isDigit (c : UInt8) : Bool := zero ≤ c && c ≤ 0x39

def isUpper (c : UInt8) : Bool := 0x41 ≤ c && c ≤ 0x5a

def isLower (c : UInt8) : Bool := 0x61 ≤ c && c ≤ 0x7a

def isLetter (c : UInt8) : Bool := isUpper c || isLower c

def isAlphanumeric (c : UInt8) : Bool := isLetter c || isDigit c

-- Case mapping knows the 26 unaccented letters only.
def toLower (c : UInt8) : UInt8 := if isUpper c then c + 0x20 else c

def toUpper (c : UInt8) : UInt8 := if isLower c then c - 0x20 else c

-- The value of a hexadecimal digit of either case.
def hexValue? (c : UInt8) : Option Nat :=
  if isDigit c then some (c.toNat - 0x30)
  else if 0x61 ≤ c && c ≤ 0x66 then some (c.toNat - 0x57)
  else if 0x41 ≤ c && c ≤ 0x46 then some (c.toNat - 0x37)
  else none

def isHexDigit (c : UInt8) : Bool := (hexValue? c).isSome

-- The digit for a value below 16; letters are lower case.
def digit (n : Nat) : UInt8 := if n < 10 then UInt8.ofNat (0x30 + n) else UInt8.ofNat (0x57 + n)

end Byte

namespace Text

def ofString (s : String) : Text := s.toUTF8.data.toList

instance : Coe String Text := ⟨ofString⟩

def lower (t : Text) : Text := t.map Byte.toLower

def upper (t : Text) : Text := t.map Byte.toUpper

-- Equality up to the case of unaccented letters.
def sameFolded (a b : Text) : Bool := lower a == lower b

-- The parts with the separator between neighbours.
def join (separator : Text) : List Text → Text
  | [] => []
  | [part] => part
  | part :: rest => part ++ separator ++ join separator rest

def commaJoin (parts : List Text) : Text := join ", " parts

-- Cuts at every occurrence of one byte; empty pieces are kept, so the
-- result has one piece more than the text has separators.
def split (separator : UInt8) : Text → List Text
  | [] => [[]]
  | c :: rest =>
    if c = separator then [] :: split separator rest
    else match split separator rest with
      | [] => [[c]]
      | piece :: pieces => (c :: piece) :: pieces

-- Whether the pattern stands somewhere in the text.
def occurs (pattern : Text) : Text → Bool
  | [] => pattern.isEmpty
  | c :: rest => pattern.isPrefixOf (c :: rest) || occurs pattern rest

def trimBy (drop : UInt8 → Bool) (t : Text) : Text :=
  ((t.dropWhile drop).reverse.dropWhile drop).reverse

def trim (t : Text) : Text := trimBy Byte.isSpace t

-- The order of byte strings: the first difference decides, and a proper
-- beginning comes first.
def order : Text → Text → Ordering
  | [], [] => .eq
  | [], _ :: _ => .lt
  | _ :: _, [] => .gt
  | a :: as, b :: bs => if a < b then .lt else if b < a then .gt else order as bs

def less (a b : Text) : Bool := order a b == .lt

-- The text before its first NUL.
def untilNul (t : Text) : Text := t.takeWhile (· ≠ Byte.nul)

end Text

end EntitySql
