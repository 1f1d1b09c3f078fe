import EntitySql.Json.Printer
import EntitySql.Value

-- The plain text of a value, for messages, and its JSON form.

namespace EntitySql.Value

def bytesText (bytes : List UInt8) : Text := "\\x" ++ Text.hexBytes bytes

mutual

def text : Value → Text
  | .null => "null"
  | .bool b => if b then "true" else "false"
  | .int n => Text.ofInt n.toInt
  | .double x => Binary64.seventeenDigits x
  | .string t => t
  | .uuid u => u.text
  | .timestamp t => t.text
  | .bytes b => bytesText b
  | .array items => Byte.openBracket :: Text.commaJoin (itemTexts items) ++ [Byte.closeBracket]
  | .json j => j.text
  | .inet a => a.text

def itemTexts : List Value → List Text
  | [] => []
  | v :: rest => text v :: itemTexts rest

end

mutual

-- Kinds without a JSON counterpart become strings.
def toJson : Value → Json
  | .null => .null
  | .bool b => .bool b
  | .int n => .int n
  | .double x => .double x
  | .json j => j
  | .array items => .array (toJsonItems items)
  | .string t => .string t
  | .uuid u => .string u.text
  | .timestamp t => .string t.text
  | .bytes b => .string (bytesText b)
  | .inet a => .string a.text

def toJsonItems : List Value → List Json
  | [] => []
  | v :: rest => toJson v :: toJsonItems rest

end

end EntitySql.Value
