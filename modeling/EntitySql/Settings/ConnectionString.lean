import EntitySql.Settings
import EntitySql.Text.Numeral

-- Connection strings: pairs of a key and a value, separated by semicolons. A
-- value may stand in double quotes, within which a quote is written twice.

namespace EntitySql.ConnectionString

def isBlank (c : UInt8) : Bool :=
  c == Byte.space || c == Byte.tab || c == Byte.carriageReturn || c == Byte.lineFeed

def trimmed (t : Text) : Text := Text.trimBy isBlank t

def fail {α : Type} (fault : ConfigurationFault) : Result α := .error (.configuration fault)

-- Where a text that is split stands: in a key, before a value, in a bare
-- value, in a quoted one, on a quote in it, or behind it. The bytes since the
-- last boundary are kept along with what has been found of the pair.
inductive Position where
  | key (text : Text)
  | gap (key : Text)
  | bare (key text : Text)
  | quoted (key text : Text)
  | onQuote (key text : Text)
  | behind (key value text : Text)
  deriving DecidableEq

-- A segment without an equals sign must be blank.
def endSegment (text : Text) : Result Unit :=
  if (trimmed text).isEmpty then .ok () else fail (.malformedSegment (trimmed text))

def endKey (text : Text) : Result Text :=
  if (trimmed text).isEmpty then fail .emptyKey else .ok (trimmed text)

def endQuoted (key text : Text) : Result Unit :=
  if (trimmed text).isEmpty then .ok () else fail (.textAfterQuote key)

def split : Position → Text → Result (List (Text × Text))
  | .key text, [] => do
    endSegment text
    return []
  | .key text, c :: rest => do
    if c = Byte.semicolon then
      endSegment text
      split (.key []) rest
    else if c = Byte.equals then
      let key ← endKey text
      split (.gap key) rest
    else split (.key (text ++ [c])) rest
  | .gap key, [] => return [(key, [])]
  | .gap key, c :: rest => do
    if c = Byte.space ∨ c = Byte.tab then split (.gap key) rest
    else if c = Byte.doubleQuote then split (.quoted key []) rest
    else if c = Byte.semicolon then
      let others ← split (.key []) rest
      return (key, []) :: others
    else split (.bare key [c]) rest
  | .bare key text, [] => return [(key, trimmed text)]
  | .bare key text, c :: rest => do
    if c = Byte.semicolon then
      let others ← split (.key []) rest
      return (key, trimmed text) :: others
    else split (.bare key (text ++ [c])) rest
  | .quoted key _, [] => fail (.unterminatedQuote key)
  | .quoted key text, c :: rest =>
    if c = Byte.doubleQuote then split (.onQuote key text) rest
    else split (.quoted key (text ++ [c])) rest
  | .onQuote key text, [] => return [(key, text)]
  | .onQuote key text, c :: rest => do
    if c = Byte.doubleQuote then split (.quoted key (text ++ [c])) rest
    else if c = Byte.semicolon then
      let others ← split (.key []) rest
      return (key, text) :: others
    else split (.behind key text [c]) rest
  | .behind key value text, [] => do
    endQuoted key text
    return [(key, value)]
  | .behind key value text, c :: rest => do
    if c = Byte.semicolon then
      endQuoted key text
      let others ← split (.key []) rest
      return (key, value) :: others
    else split (.behind key value (text ++ [c])) rest

def pairs (t : Text) : Result (List (Text × Text)) := split (.key []) t

-- Integers have 32 bits.
def readInteger (key value : Text) : Result Int :=
  match Text.toIntWithin? 32 value with
  | some n => .ok n
  | none => fail (.invalidInteger key value)

def readBoolean (key value : Text) : Result Bool :=
  let v := Text.lower value
  if v == "true" || v == "yes" || v == "1" then .ok true
  else if v == "false" || v == "no" || v == "0" then .ok false
  else fail (.invalidBoolean key value)

def readSslMode (value : Text) : Result SslMode :=
  match SslMode.ofName? value with
  | some mode => .ok mode
  | none => fail (.unknownSslMode value)

def hasName (names : List Text) (key : Text) : Bool := names.elem (Text.lower key)

-- Known keys ignore case; other keys are kept as they are.
def setPair (c : ConnectionSettings) (pair : Text × Text) : Result ConnectionSettings := do
  let (key, value) := pair
  if hasName ["host", "server"] key then return { c with hostname := value }
  else if hasName ["port"] key then return { c with port := some (← readInteger key value) }
  else if hasName ["username", "user id", "userid", "user"] key then
    return { c with username := value }
  else if hasName ["password", "pwd"] key then return { c with password := value }
  else if hasName ["database", "db"] key then return { c with database := value }
  else if hasName ["timeout", "connection timeout"] key then
    return { c with connectionTimeout := some (← readInteger key value) }
  else if hasName ["commandtimeout", "command timeout"] key then
    return { c with commandTimeout := some (← readInteger key value) }
  else if hasName ["minpoolsize", "minimum pool size"] key then
    return { c with minPoolSize := some (← readInteger key value) }
  else if hasName ["maxpoolsize", "maximum pool size"] key then
    return { c with maxPoolSize := some (← readInteger key value) }
  else if hasName ["pooling"] key then
    return { c with pooling := some (← readBoolean key value) }
  else if hasName ["sslmode", "ssl mode"] key then
    return { c with sslMode := some (← readSslMode value) }
  else return c.setProperty key value

-- The settings of a connection string; a key that is repeated counts last.
def parse (t : Text) : Result Settings := do
  if (trimmed t).isEmpty then fail .blankConnectionString
  else
    let found ← pairs t
    let connection ← found.foldlM setPair {}
    let settings : Settings := { connection }
    settings.validate
    return settings

def isSpecial (c : UInt8) : Bool :=
  c == Byte.semicolon || c == Byte.equals || c == Byte.doubleQuote || c == Byte.quote

def startsBlank (t : Text) : Bool := (t.head?.map Byte.isSpace).getD false

-- Whether the value would be read differently without quotes around it.
def needsQuotes (value : Text) : Bool :=
  value.any isSpecial || startsBlank value || startsBlank value.reverse

def quoteByte (c : UInt8) : Text :=
  if c = Byte.doubleQuote then [Byte.doubleQuote, Byte.doubleQuote] else [c]

def quoteValue (value : Text) : Text :=
  if needsQuotes value then Byte.doubleQuote :: value.flatMap quoteByte ++ [Byte.doubleQuote]
  else value

def pairText (pair : Text × Text) : Text := pair.1 ++ Byte.equals :: quoteValue pair.2

def join (pairs : List (Text × Text)) : Text :=
  Text.join [Byte.semicolon] (pairs.map pairText)

def entry (key : String) (value : Text) : Text × Text := (key, value)

def optional {α : Type} (key : String) (toText : α → Text) : Option α → List (Text × Text)
  | none => []
  | some a => [(Text.ofString key, toText a)]

def unlessBlank (key : String) (value : Text) : List (Text × Text) :=
  if (trimmed value).isEmpty then [] else [entry key value]

def booleanText (b : Bool) : Text := if b then "true" else "false"

def pairsOf (c : ConnectionSettings) : List (Text × Text) :=
  [entry "Host" c.hostname] ++ optional "Port" Text.ofInt c.port ++
    unlessBlank "Username" c.username ++ unlessBlank "Password" c.password ++
    [entry "Database" c.database] ++ optional "Timeout" Text.ofInt c.connectionTimeout ++
    optional "Command Timeout" Text.ofInt c.commandTimeout ++
    optional "Minimum Pool Size" Text.ofInt c.minPoolSize ++
    optional "Maximum Pool Size" Text.ofInt c.maxPoolSize ++
    optional "Pooling" booleanText c.pooling ++ optional "SSL Mode" SslMode.name c.sslMode ++
    c.additional

-- The connection settings as a connection string. It needs a host and a
-- database.
def build (s : Settings) : Result Text :=
  if (trimmed s.connection.hostname).isEmpty then fail .noHostname
  else if (trimmed s.connection.database).isEmpty then fail .noDatabase
  else .ok (join (pairsOf s.connection))

end EntitySql.ConnectionString
