import EntitySql.Rows
import EntitySql.Sql.Compiler

-- A connection with prepared answers, the commands that it has been given,
-- and the record of the last one. Its scalar answers are read as numbers.

namespace EntitySql.Query

structure Command where
  sql : Text
  bindings : List Sql.Binding

-- Readers are answered from a queue; an empty place in it stands for a
-- connection that returns no reader. Cancelling is for all operations on the
-- connection.
structure Connection where
  results : List (Option ResultSet) := []
  scalar : Value := .null
  affected : Int := 0
  refuses : Bool := false
  cancelled : Bool := false
  commands : List Command := []

namespace Connection

def receive (c : Connection) (command : Command) : Connection :=
  { c with commands := c.commands ++ [command] }

-- Takes the next prepared result for the command.
def execute (c : Connection) (command : Command) : Result ResultSet × Connection :=
  let c := c.receive command
  match c.results with
  | [] => (.error (.engine (.noPreparedResult command.sql)), c)
  | none :: rest => (.error (.engine (.noReader command.sql)), { c with results := rest })
  | some set :: rest => (set.check.map fun _ => set, { c with results := rest })

end Connection

-- The scalar results of a database as numbers and truth values.

-- Doubles are cut toward zero, truth values count as 0 and 1, and null as 0.
def scalarToInt : Value → Result Int
  | .null => .ok 0
  | .double x => .ok ((Binary64.ofFloat x).truncated?.getD (-Text.wordLimit 64))
  | .bool b => .ok (if b then 1 else 0)
  | v => v.asInt.map Int64.toInt

def scalarToBool : Value → Result Bool
  | .null => .ok false
  | .bool b => .ok b
  | v => do return (← scalarToInt v) != 0

-- The last command, unless recording is off.
structure StatementLog where
  enabled : Bool := false
  sql : Text := []
  bindings : List Sql.Binding := []

namespace StatementLog

def record (l : StatementLog) (command : Command) : StatementLog :=
  if l.enabled then { l with sql := command.sql, bindings := command.bindings } else l

def clear (l : StatementLog) : StatementLog := { enabled := l.enabled }

def valueText : Value → Text
  | .string t => Byte.quote :: t ++ [Byte.quote]
  | v => v.text

def bindingText (b : Sql.Binding) : Text := b.name ++ " = " ++ valueText b.value

-- The statement with its parameters in a comment line.
def text (l : StatementLog) : Text :=
  if l.bindings.isEmpty then l.sql
  else l.sql ++ "\n-- Parameters: " ++ Text.commaJoin (l.bindings.map bindingText)

end StatementLog

end EntitySql.Query
