import EntitySql.Proofs.Machine
import EntitySql.Sql.Sanitizer

-- The tokens of SQL text. Blanks separate tokens, quotes are doubled inside
-- quotes, and a backslash takes the byte behind it along where the quote
-- stands behind an E. Calls without arguments are words; comments, other calls
-- and everything else that no expression needs are refused.

namespace EntitySql.Sql

-- Strings are kept as they are written, names without their quotes.
inductive Token where
  | word (text : Text)
  | number (text : Text)
  | string (text : Text)
  | name (text : Text)
  | sign (text : Text)
  | openParenthesis
  | closeParenthesis
  | openBracket
  | closeBracket
  | comma
  deriving DecidableEq

namespace Scanner

def signBytes : Text := "+-*/<>=~!@#%^&|?:."

def isSign (c : UInt8) : Bool := signBytes.elem c

def isWordByte (c : UInt8) : Bool := Byte.isAlphanumeric c || c == Byte.underscore

def punctuation? (c : UInt8) : Option Token :=
  if c = Byte.openParenthesis then some .openParenthesis
  else if c = Byte.closeParenthesis then some .closeParenthesis
  else if c = Byte.openBracket then some .openBracket
  else if c = Byte.closeBracket then some .closeBracket
  else if c = Byte.comma then some .comma
  else none

-- Between two tokens, or inside one of which the given bytes are read. A
-- quote inside quotes either ends them or is the first half of a pair.
inductive Mode where
  | blank
  | word (t : Text)
  | applied (t : Text)
  | number (t : Text)
  | sign (t : Text)
  | name (t : Text)
  | nameQuote (t : Text)
  | string (escapes : Bool) (t : Text)
  | stringEscape (t : Text)
  | stringQuote (escapes : Bool) (t : Text)
  | refused
  deriving DecidableEq

def Mode.finish : Mode → Option (List Token)
  | .blank => some []
  | .word t => some [.word t]
  | .number t => some [.number t]
  | .sign t => some [.sign t]
  | .nameQuote t => some [.name t]
  | .stringQuote _ t => some [.string t]
  | _ => none

def start (c : UInt8) : List Token × Mode :=
  if Byte.isSpace c then ([], .blank)
  else if c = Byte.quote then ([], .string false [c])
  else if c = Byte.doubleQuote then ([], .name [])
  else if Byte.isDigit c then ([], .number [c])
  else if isWordByte c then ([], .word [c])
  else if isSign c then ([], .sign [c])
  else match punctuation? c with
    | some t => ([t], .blank)
    | none => ([], .refused)

-- The byte behind a complete token.
def next (t : Token) (c : UInt8) : List Token × Mode := (t :: (start c).1, (start c).2)

def letterE : UInt8 := 0x65

-- A point, an exponent and the sign of the exponent belong to a numeral.
def continuesNumber (t : Text) (c : UInt8) : Bool :=
  Byte.isDigit c || c == Byte.dot || c == letterE ||
    ((c == Byte.plus || c == Byte.minus) && t.getLast? == some letterE)

-- Dots stand alone; no other sign ends where another one follows.
def continuesSign (t : Text) (c : UInt8) : Bool :=
  isSign c && c != Byte.dot && t.getLast? != some Byte.dot

def opensComment (t : Text) (c : UInt8) : Bool :=
  (c == Byte.minus && t.getLast? == some Byte.minus) ||
    (c == Byte.star && t.getLast? == some Byte.slash)

def step : Mode → UInt8 → List Token × Mode
  | .blank, c => start c
  | .word t, c =>
    if isWordByte c then ([], .word (t ++ [c]))
    else if c = Byte.openParenthesis then ([], .applied (t ++ [c]))
    else if c = Byte.quote && Text.sameFolded t "E" then ([], .string true (t ++ [c]))
    else next (.word t) c
  | .applied t, c =>
    if c = Byte.closeParenthesis then ([.word (t ++ [c])], .blank) else ([], .refused)
  | .number t, c =>
    if continuesNumber t c then ([], .number (t ++ [c])) else next (.number t) c
  | .sign t, c =>
    if opensComment t c then ([], .refused)
    else if continuesSign t c then ([], .sign (t ++ [c]))
    else next (.sign t) c
  | .name t, c => if c = Byte.doubleQuote then ([], .nameQuote t) else ([], .name (t ++ [c]))
  | .nameQuote t, c => if c = Byte.doubleQuote then ([], .name (t ++ [c])) else next (.name t) c
  | .string escapes t, c =>
    if c = Byte.quote then ([], .stringQuote escapes (t ++ [c]))
    else if escapes && c = Byte.backslash then ([], .stringEscape (t ++ [c]))
    else ([], .string escapes (t ++ [c]))
  | .stringEscape t, c => ([], .string true (t ++ [c]))
  | .stringQuote escapes t, c =>
    if c = Byte.quote then ([], .string escapes (t ++ [c])) else next (.string t) c
  | .refused, _ => ([], .refused)

end Scanner

def scanner : Machine UInt8 Token Scanner.Mode := ⟨Scanner.step, Scanner.Mode.finish⟩

def tokens? (t : Text) : Option (List Token) := scanner.read? .blank t

namespace Scanner

-- The bytes that stand right behind an operand.
def delimiters : Text :=
  [Byte.space, Byte.closeParenthesis, Byte.comma, Byte.closeBracket]

theorem finishes_delimiter {c : UInt8} (h : c ∈ delimiters) : scanner.Finishes c .blank := by
  have hcases : c = Byte.space ∨ c = Byte.closeParenthesis ∨ c = Byte.comma ∨
      c = Byte.closeBracket := by
    simpa [delimiters] using h
  intro m out hfinish
  rcases hcases with rfl | rfl | rfl | rfl <;> cases m <;> cases hfinish <;> rfl

end Scanner

-- Behind an operand the scanner starts anew at a delimiter.
theorem tokens?_append {a b : Text} {c : UInt8} {out : List Token} (ha : tokens? a = some out)
    (hc : c ∈ Scanner.delimiters) :
    tokens? (a ++ c :: b) = (tokens? (c :: b)).map (out ++ ·) :=
  Machine.read?_append_of_finishes ha (Scanner.finishes_delimiter hc)

theorem tokens?_of_feed {a b : Text} {out : List Token} (ha : scanner.feed .blank a = (out, .blank)) :
    tokens? (a ++ b) = (tokens? b).map (out ++ ·) :=
  Machine.read?_append_of_feed ha

end EntitySql.Sql
