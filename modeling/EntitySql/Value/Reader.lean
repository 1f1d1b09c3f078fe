import EntitySql.Error
import EntitySql.Inet.Reader
import EntitySql.Json.Reader
import EntitySql.Timestamp.Reader

-- Texts read as scalar values, with the error that names the text.

namespace EntitySql

def Uuid.ofText (t : Text) : Result Uuid :=
  match Uuid.read? t with
  | some u => .ok u
  | none => .error (.conversion (.invalidUuid t))

def Timestamp.ofText (t : Text) : Result Timestamp :=
  match Timestamp.read? t with
  | some s => .ok s
  | none => .error (.conversion (.invalidTimestamp t))

def Inet.ofText (t : Text) : Result Inet :=
  match Inet.read? t with
  | some a => .ok a
  | none => .error (.conversion (.invalidInet t))

def Json.ofText (t : Text) : Result Json :=
  match Json.read? t with
  | some j => .ok j
  | none => .error (.conversion .invalidJson)

end EntitySql
