import EntitySql.Eval.Operators
import EntitySql.Sql.Sanitizer

-- SQL expressions as terms, and their text. Values occur as literals or as
-- numbered placeholders; all names are quoted when they are printed.

namespace EntitySql.Sql

open Eval (DatePart Interval)

inductive Operator where
  | equal
  | notEqual
  | compare (c : Comparison)
  | and
  | or
  | arithmetic (a : Arithmetic)
  | concatenate
  deriving DecidableEq

def Operator.text : Operator → Text
  | .equal => "="
  | .notEqual => "<>"
  | .compare .less => "<"
  | .compare .lessOrEqual => "<="
  | .compare .greater => ">"
  | .compare .greaterOrEqual => ">="
  | .and => "AND"
  | .or => "OR"
  | .arithmetic .add => "+"
  | .arithmetic .subtract => "-"
  | .arithmetic .multiply => "*"
  | .arithmetic .divide => "/"
  | .arithmetic .modulo => "%"
  | .concatenate => concatenation

-- Functions of one argument.
inductive Function where
  | upper
  | lower
  | trim
  | length
  | abs
  | floor
  | ceiling
  | sqrt
  | sin
  | cos
  | tan
  deriving DecidableEq

def Function.text : Function → Text
  | .upper => "UPPER"
  | .lower => "LOWER"
  | .trim => "TRIM"
  | .length => "LENGTH"
  | .abs => "ABS"
  | .floor => "FLOOR"
  | .ceiling => "CEILING"
  | .sqrt => "SQRT"
  | .sin => "SIN"
  | .cos => "COS"
  | .tan => "TAN"

inductive Aggregate where
  | sum
  | average
  | min
  | max
  deriving DecidableEq

def Aggregate.text : Aggregate → Text
  | .sum => "SUM"
  | .average => "AVG"
  | .min => "MIN"
  | .max => "MAX"

inductive CastType where
  | doublePrecision
  | characters
  deriving DecidableEq

def CastType.text : CastType → Text
  | .doublePrecision => "double precision"
  | .characters => "text"

def partText : DatePart → Text
  | .year => "YEAR"
  | .month => "MONTH"
  | .day => "DAY"
  | .hour => "HOUR"
  | .minute => "MINUTE"
  | .second => "SECOND"

def unitText : Interval → Text
  | .days => "days"
  | .hours => "hours"
  | .minutes => "minutes"
  | .seconds => "seconds"
  | .months => "months"
  | .years => "years"

-- The column of a group's key is kept as the text that it was given in. A
-- pattern is a term with wildcards around it.
inductive Term where
  | null
  | value (literal : Text)
  | placeholder (index : Nat)
  | currentTimestamp
  | column (table : Option Text) (name : Text)
  | groupKey (sql : Text)
  | array (items : List Term)
  | falsity
  | operation (op : Operator) (left right : Term)
  | isNull (operand : Term) (negated : Bool)
  | coalesce (left right : Term)
  | not (operand : Term)
  | negate (operand : Term)
  | cast (operand : Term) (type : CastType)
  | conditional (test ifTrue ifFalse : Term)
  | apply (function : Function) (operand : Term)
  | substring (operand start : Term)
  | substringFor (operand start count : Term)
  | extract (part : DatePart) (operand : Term)
  | addInterval (operand : Term) (amount : Text) (unit : Interval)
  | addIntervals (operand amount : Term) (unit : Interval)
  | round (operand : Term)
  | roundTo (operand digits : Term)
  | countRows
  | countWhere (condition : Term)
  | aggregate (function : Aggregate) (operand : Term)
  | isIn (item : Term) (items : List Term)
  | isElement (item array : Term)
  | like (ignoreCase : Bool) (target pattern : Term)
  | pattern (leading trailing : Bool) (operand : Term)

namespace Term

-- Whether the term prints as the word NULL.
def isNullWord : Term → Bool
  | .null => true
  | .groupKey sql => sql == "NULL"
  | _ => false

def columnText (table : Option Text) (name : Text) : Text :=
  match table with
  | none => quoted name
  | some aliasName => quoted aliasName ++ Byte.dot :: quoted name

def nullTest (negated : Bool) : Text := if negated then " IS NOT NULL" else " IS NULL"

def likeWord (ignoreCase : Bool) : Text := if ignoreCase then caseInsensitiveLike else "LIKE"

def beside : Text := " " ++ concatenation ++ " "

def patternText (leading trailing : Bool) (operand : Text) : Text :=
  (if leading then "'%'" ++ beside else []) ++ operand ++
    if trailing then beside ++ "'%'" else []

mutual

def text : Term → Text
  | .null => "NULL"
  | .value literal => literal
  | .placeholder index => parameterName index
  | .currentTimestamp => Sql.currentTimestamp
  | .column table name => columnText table name
  | .groupKey sql => sql
  | .array items =>
    if items.isEmpty then emptyArray else "ARRAY[" ++ Text.commaJoin (texts items) ++ "]"
  | .falsity => "FALSE"
  | .operation op l r => "(" ++ text l ++ " " ++ op.text ++ " " ++ text r ++ ")"
  | .isNull t negated => text t ++ nullTest negated
  | .coalesce l r => "COALESCE(" ++ text l ++ ", " ++ text r ++ ")"
  | .not t => "NOT (" ++ text t ++ ")"
  | .negate t => "-" ++ text t
  | .cast t type => "CAST(" ++ text t ++ " AS " ++ type.text ++ ")"
  | .conditional test a b =>
    "CASE WHEN " ++ text test ++ " THEN " ++ text a ++ " ELSE " ++ text b ++ " END"
  | .apply f t => f.text ++ "(" ++ text t ++ ")"
  | .substring t start => "SUBSTRING(" ++ text t ++ " FROM (" ++ text start ++ " + 1))"
  | .substringFor t start count =>
    "SUBSTRING(" ++ text t ++ " FROM (" ++ text start ++ " + 1) FOR " ++ text count ++ ")"
  | .extract part t => "EXTRACT(" ++ partText part ++ " FROM " ++ text t ++ ")"
  | .addInterval t amount unit =>
    "(" ++ text t ++ " + INTERVAL '" ++ amount ++ " " ++ unitText unit ++ "')"
  | .addIntervals t amount unit =>
    "(" ++ text t ++ " + (" ++ text amount ++ ") * INTERVAL '1 " ++ unitText unit ++ "')"
  | .round t => "ROUND(" ++ text t ++ ")"
  | .roundTo t digits => "ROUND((" ++ text t ++ ")::numeric, " ++ text digits ++ ")"
  | .countRows => "COUNT(*)"
  | .countWhere t => "COUNT(*) FILTER (WHERE " ++ text t ++ ")"
  | .aggregate f t => f.text ++ "(" ++ text t ++ ")"
  | .isIn item items => text item ++ " IN (" ++ Text.commaJoin (texts items) ++ ")"
  | .isElement item items => text item ++ " = ANY(" ++ text items ++ ")"
  | .like ignoreCase l r => text l ++ " " ++ likeWord ignoreCase ++ " " ++ text r
  | .pattern leading trailing t => patternText leading trailing (text t)

def texts : List Term → List Text
  | [] => []
  | t :: rest => text t :: texts rest

end

end Term

end EntitySql.Sql
