import EntitySql.Error

-- Dotted include paths such as Author.Company, and which of them are
-- accepted.

namespace EntitySql.Include

def maxPathLength : Nat := 500

def maxSegmentLength : Nat := 64

-- Words that no segment may be, in any case of letters.
def reserved : List Text :=
  ["select", "insert", "update", "delete", "drop", "create", "alter", "exec", "execute", "union",
    "truncate", "grant"]

-- Empty segments are kept.
def segments (path : Text) : List Text := Text.split Byte.dot path

def isWordByte (c : UInt8) : Bool := Byte.isAlphanumeric c || c == Byte.underscore

def segmentFault? (segment : Text) : Option PathFault :=
  match segment with
  | [] => some .emptySegment
  | first :: _ =>
    if maxSegmentLength < segment.length then some (.segmentTooLong segment)
    else if !Byte.isLetter first && first != Byte.underscore then some (.badStart segment)
    else match segment.find? fun c => !isWordByte c with
      | some c => some (.badByte c segment)
      | none => if reserved.elem (Text.lower segment) then some (.reserved segment) else none

-- The first segment that stands for the third time, ignoring case. The
-- earlier segments are passed along.
def repetition? (earlier : List Text) : List Text → Option Text
  | [] => none
  | segment :: rest =>
    if 2 ≤ earlier.countP (Text.sameFolded segment) then some segment
    else repetition? (segment :: earlier) rest

-- The first fault of a path. Only paths of more than three segments are
-- searched for repetitions.
def fault? (maxDepth : Int) (path : Text) : Option PathFault :=
  if path.all Byte.isSpace then some .blank
  else if maxPathLength < path.length then some (.tooLong path)
  else if Text.occurs ".." path || Text.occurs "//" path then some (.invalidSequence path)
  else
    let segments := segments path
    match segments.findSome? segmentFault? with
    | some fault => some fault
    | none =>
      if maxDepth < segments.length then some (.tooDeep segments.length maxDepth path)
      else if 3 < segments.length then
        (repetition? [] segments).map fun segment => .repetition segment path
      else none

-- A validator remembers the paths that it has accepted.
structure Validator where
  maxDepth : Int
  accepted : List Text := []

namespace Validator

def new (maxDepth : Int) : Result Validator :=
  if maxDepth < 1 then .error (.configuration .includeDepth) else .ok { maxDepth }

def check (v : Validator) (path : Text) : Option PathFault := fault? v.maxDepth path

def validate (v : Validator) (path : Text) : Result Validator :=
  if v.accepted.elem path then .ok v
  else match v.check path with
    | some fault => .error (.contract (.path fault))
    | none => .ok { v with accepted := path :: v.accepted }

-- Stops at the first path that is refused; what was accepted before it stays
-- accepted.
def validateAll (v : Validator) : List Text → Option Error × Validator
  | [] => (none, v)
  | path :: rest =>
    match v.validate path with
    | .error e => (some e, v)
    | .ok v => v.validateAll rest

def clear (v : Validator) : Validator := { v with accepted := [] }

end Validator

end EntitySql.Include
