import EntitySql.Timestamp

-- Reading timestamps: a date, optionally followed by a time of day, a
-- fraction of a second and a zone.

namespace EntitySql.Timestamp

def takeByte? (c : UInt8) : Text → Option Text
  | [] => none
  | b :: rest => if b = c then some rest else none

def takeDate? (t : Text) : Option (Date × Text) := do
  let (year, t) ← Text.takeDigits? 4 t
  let t ← takeByte? Byte.minus t
  let (month, t) ← Text.takeDigits? 2 t
  let t ← takeByte? Byte.minus t
  let (day, t) ← Text.takeDigits? 2 t
  let date : Date := ⟨year, month, day⟩
  if 1 ≤ month && month ≤ 12 && 1 ≤ day && day ≤ Date.daysInMonth year month then some (date, t)
  else none

-- Seconds may be left out, and a leap second is accepted.
def takeTime? (t : Text) : Option ((Nat × Nat × Nat) × Text) := do
  let (hour, t) ← Text.takeDigits? 2 t
  let t ← takeByte? Byte.colon t
  let (minute, t) ← Text.takeDigits? 2 t
  let (second, t) ← match t with
    | Byte.colon :: rest => Text.takeDigits? 2 rest
    | _ => some (0, t)
  if hour ≤ 23 && minute ≤ 59 && second ≤ 60 then some ((hour, minute, second), t) else none

-- At least one digit after the point; digits beyond the sixth are dropped.
def takeFraction? : Text → Option (Nat × Text)
  | Byte.dot :: rest =>
    let digits := rest.takeWhile Byte.isDigit
    if digits.isEmpty then none
    else
      let six := digits.take 6
      some (Text.digitsValue six * Nat.pow 10 (6 - six.length), rest.dropWhile Byte.isDigit)
  | t => some (0, t)

-- Nothing, a Z, or a signed offset in hours with optional minutes, up to the
-- end of the text.
def zone? : Text → Option (Bool × Int)
  | [] => some (false, 0)
  | c :: rest =>
    if c = 0x5a || c = 0x7a then if rest.isEmpty then some (true, 0) else none
    else if c = Byte.plus || c = Byte.minus then do
      let (hours, rest) ← Text.takeDigits? 2 rest
      let rest := match rest with
        | Byte.colon :: r => r
        | r => r
      let (minutes, rest) ← if rest.isEmpty then some (0, rest) else Text.takeDigits? 2 rest
      if rest.isEmpty then
        let offset : Int := hours * 60 + minutes
        some (true, if c = Byte.minus then -offset else offset)
      else none
    else none

def isDateEnd (c : UInt8) : Bool := c == 0x54 || c == 0x74 || c == Byte.space

def read? (t : Text) : Option Timestamp := do
  let (date, t) ← takeDate? t
  match t with
  | [] => some (ofCivil { year := date.year, month := date.month, day := date.day } false 0)
  | c :: t =>
    if isDateEnd c then
      let ((hour, minute, second), t) ← takeTime? t
      let (micro, t) ← takeFraction? t
      let (zoned, offset) ← zone? t
      some (ofCivil ⟨date.year, date.month, date.day, hour, minute, second, micro⟩ zoned offset)
    else none

end EntitySql.Timestamp
