import EntitySql.Json
import EntitySql.Binary64.Decimal

-- The compact text of a JSON document.

namespace EntitySql.Json

-- Quotes, backslashes and control characters are escaped; other bytes stand
-- for themselves.
def escapeByte (c : UInt8) : Text :=
  if c = Byte.doubleQuote then "\\\""
  else if c = Byte.backslash then "\\\\"
  else if c = Byte.backspace then "\\b"
  else if c = Byte.formFeed then "\\f"
  else if c = Byte.lineFeed then "\\n"
  else if c = Byte.carriageReturn then "\\r"
  else if c = Byte.tab then "\\t"
  else if c < 0x20 then "\\u00" ++ Text.hexByte c
  else [c]

def stringText (t : Text) : Text := Byte.doubleQuote :: t.flatMap escapeByte ++ [Byte.doubleQuote]

mutual

-- Numbers without a finite value have no JSON form and become null.
def text : Json → Text
  | .null => "null"
  | .bool b => if b then "true" else "false"
  | .int n => Text.ofInt n.toInt
  | .unsigned n => Text.ofNat n.toNat
  | .double x => (Binary64.shortestText x).getD "null"
  | .string t => stringText t
  | .array items => Byte.openBracket :: Text.join "," (itemTexts items) ++ [Byte.closeBracket]
  | .object members => Byte.openBrace :: Text.join "," (memberTexts members) ++ [Byte.closeBrace]

def itemTexts : List Json → List Text
  | [] => []
  | j :: rest => text j :: itemTexts rest

def memberTexts : List (Text × Json) → List Text
  | [] => []
  | (key, value) :: rest => (stringText key ++ ":" ++ text value) :: memberTexts rest

end

end EntitySql.Json
