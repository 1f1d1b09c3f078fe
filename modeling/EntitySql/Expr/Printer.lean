import EntitySql.Expr

-- The text of an expression, as messages show it, and its JSON form.

namespace EntitySql.Expr

def constantText : Value → Text
  | .string t => Byte.doubleQuote :: t ++ [Byte.doubleQuote]
  | v => v.text

mutual

def text : Expr → Text
  | .parameter _ p => p.name
  | .member _ owner name => text owner ++ Byte.dot :: name
  | .constant _ v => constantText v
  | .captured _ name _ => "value(" ++ name ++ ")"
  | .call _ target method args =>
    text target ++ Byte.dot :: method ++ "(" ++ Text.commaJoin (texts args) ++ ")"
  | .staticCall _ method args => method ++ "(" ++ Text.commaJoin (texts args) ++ ")"
  | .binary _ op l r => "(" ++ text l ++ " " ++ op.symbol ++ " " ++ text r ++ ")"
  | .not _ e => "!" ++ text e
  | .negate _ e => "-" ++ text e
  | .convert _ e type =>
    "Convert(" ++ text e ++ ", " ++ ((type.map FieldType.name).getD "?") ++ ")"
  | .conditional _ t a b => "IIF(" ++ text t ++ ", " ++ text a ++ ", " ++ text b ++ ")"
  | .array _ elements => "new [] \x7b" ++ Text.commaJoin (texts elements) ++ "\x7d"
  | .initializer _ _ bindings =>
    if bindings.isEmpty then Text.ofString "new \x7b \x7d"
    else "new \x7b " ++ Text.commaJoin (bindingTexts bindings) ++ " \x7d"
  | .lambda _ p b => p.name ++ " => " ++ text b

def texts : List Expr → List Text
  | [] => []
  | e :: rest => text e :: texts rest

def bindingTexts : List (Text × Expr) → List Text
  | [] => []
  | (name, e) :: rest => (name ++ " = " ++ text e) :: bindingTexts rest

end

def entry (key : String) (value : Json) : Text × Json := (key, value)

def typed (type : String) (members : List (Text × Json)) : Json :=
  Json.ofMembers (entry "type" (.string type) :: members)

def parameterJson (p : Parameter) : Json :=
  typed "parameter" [entry "name" (.string p.name), entry "group" (.bool p.group)]

def unaryJson (op : String) (operand : Json) (type : Option FieldType) : Json :=
  typed "unary"
    ([entry "op" (.string op), entry "operand" operand] ++
      (type.map fun t => entry "to" (.string t.name)).toList)

mutual

def toJson : Expr → Json
  | .parameter _ p => parameterJson p
  | .member _ owner name =>
    typed "member" [entry "object" (toJson owner), entry "member" (.string name)]
  | .constant _ v =>
    typed "constant" [entry "kind" (.string v.kind.name), entry "value" v.toJson]
  | .captured _ name _ => typed "captured" [entry "name" (.string name)]
  | .call _ target method args =>
    typed "method_call"
      [entry "target" (toJson target), entry "method" (.string method),
        entry "arguments" (.array (toJsons args))]
  | .staticCall _ method args =>
    typed "method_call"
      [entry "target" .null, entry "method" (.string method),
        entry "arguments" (.array (toJsons args))]
  | .binary _ op l r =>
    typed "binary"
      [entry "op" (.string op.symbol), entry "left" (toJson l), entry "right" (toJson r)]
  | .not _ e => unaryJson "not" (toJson e) none
  | .negate _ e => unaryJson "negate" (toJson e) none
  | .convert _ e type => unaryJson "convert" (toJson e) type
  | .conditional _ t a b =>
    typed "conditional"
      [entry "test" (toJson t), entry "if_true" (toJson a), entry "if_false" (toJson b)]
  | .array _ elements => typed "new_array" [entry "elements" (.array (toJsons elements))]
  | .initializer _ _ bindings =>
    typed "member_init" [entry "bindings" (.array (bindingJsons bindings))]
  | .lambda _ p b =>
    typed "lambda" [entry "parameter" (parameterJson p), entry "body" (toJson b)]

def toJsons : List Expr → List Json
  | [] => []
  | e :: rest => toJson e :: toJsons rest

def bindingJsons : List (Text × Expr) → List Json
  | [] => []
  | (name, e) :: rest =>
    Json.ofMembers [entry "member" (.string name), entry "value" (toJson e)] :: bindingJsons rest

end

end EntitySql.Expr
