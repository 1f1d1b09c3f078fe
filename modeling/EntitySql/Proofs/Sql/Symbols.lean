import EntitySql.Proofs.Sql.Scanner
import EntitySql.Sql.Term

-- Tokens grouped to what the precedence of operators is about: operands,
-- operators and parentheses. Casts, signs, qualified names and array literals
-- bind tighter than every operator here, so everything between two operators
-- is one operand.

namespace EntitySql.Sql

inductive Connective where
  | or
  | and
  | equal
  | notEqual
  | compare (c : Comparison)
  | like (ignoreCase : Bool)
  | concatenate
  deriving DecidableEq

namespace Connective

def token : Connective → Token
  | .or => .word "OR"
  | .and => .word "AND"
  | .equal => .sign "="
  | .notEqual => .sign "<>"
  | .compare .less => .sign "<"
  | .compare .lessOrEqual => .sign "<="
  | .compare .greater => .sign ">"
  | .compare .greaterOrEqual => .sign ">="
  | .like false => .word "LIKE"
  | .like true => .word "ILIKE"
  | .concatenate => .sign "||"

def all : List Connective :=
  [.or, .and, .equal, .notEqual, .compare .less, .compare .lessOrEqual, .compare .greater,
    .compare .greaterOrEqual, .like false, .like true, .concatenate]

end Connective

namespace Token

-- Keywords are words of either case.
def folded : Token → Token
  | .word w => .word w.upper
  | t => t

def connective? (t : Token) : Option Connective := Connective.all.find? (·.token == t.folded)

def keywords : List Token := [.word "NOT", .word "IS", .word "IN"]

-- Whether the token ends an operand that stands outside brackets.
def separates (t : Token) : Bool :=
  t = .openParenthesis || t = .closeParenthesis || t = .comma || t = .closeBracket ||
    keywords.elem t.folded || t.connective?.isSome

-- The depth of brackets behind a token of an operand, if it is one.
def depthBehind? (depth : Nat) (t : Token) : Option Nat :=
  if depth = 0 && t.separates then none
  else if t = .openBracket then some (depth + 1)
  else if t = .closeBracket then some (depth - 1)
  else some depth

end Token

-- An operator of one operand stands before it or behind it; a list behind IN
-- is part of its operator.
inductive Symbol where
  | operand (tokens : List Token)
  | connective (op : Connective)
  | not
  | isNull (negated : Bool)
  | isIn (items : List (List Token))
  | openGroup
  | closeGroup
  deriving DecidableEq

namespace Grouper

-- Inside an operand of which the given tokens are read, behind a keyword that
-- needs another one, or inside an item of a list.
inductive Mode where
  | operand (run : List Token) (depth : Nat)
  | is
  | isNot
  | isIn
  | item (items : List (List Token)) (run : List Token) (depth : Nat)
  | refused

def between : Mode := .operand [] 0

def flush (run : List Token) : List Symbol := if run.isEmpty then [] else [.operand run]

def Mode.finish : Mode → Option (List Symbol)
  | .operand run 0 => some (flush run)
  | _ => none

-- A token outside of operands and lists.
def start (t : Token) : List Symbol × Mode :=
  if t = .openParenthesis then ([.openGroup], between)
  else if t = .closeParenthesis then ([.closeGroup], between)
  else if t.folded = .word "NOT" then ([.not], between)
  else if t.folded = .word "IS" then ([], .is)
  else if t.folded = .word "IN" then ([], .isIn)
  else match t.connective? with
    | some op => ([.connective op], between)
    | none => ([], .refused)

def step : Mode → Token → List Symbol × Mode
  | .operand run depth, t =>
    match t.depthBehind? depth with
    | some depth => ([], .operand (run ++ [t]) depth)
    | none => (flush run ++ (start t).1, (start t).2)
  | .is, t =>
    if t.folded = .word "NULL" then ([.isNull false], between)
    else if t.folded = .word "NOT" then ([], .isNot)
    else ([], .refused)
  | .isNot, t => if t.folded = .word "NULL" then ([.isNull true], between) else ([], .refused)
  | .isIn, t => if t = .openParenthesis then ([], .item [] [] 0) else ([], .refused)
  | .item items run depth, t =>
    match t.depthBehind? depth with
    | some depth => ([], .item items (run ++ [t]) depth)
    | none =>
      if run.isEmpty then ([], .refused)
      else if t = .comma then ([], .item (items ++ [run]) [] 0)
      else if t = .closeParenthesis then ([.isIn (items ++ [run])], between)
      else ([], .refused)
  | .refused, _ => ([], .refused)

end Grouper

def grouper : Machine Token Symbol Grouper.Mode := ⟨Grouper.step, Grouper.Mode.finish⟩

def symbols? (tokens : List Token) : Option (List Symbol) :=
  grouper.read? Grouper.between tokens

namespace Grouper

theorem finishes_of_separates {t : Token} (h : t.separates = true) :
    grouper.Finishes t between := by
  have hdepth : t.depthBehind? 0 = none := by simp [Token.depthBehind?, h]
  intro m out hfinish
  cases m with
  | operand run depth =>
    cases depth with
    | zero =>
      cases hfinish
      simp [grouper, step, between, hdepth, flush]
    | succ depth => cases hfinish
  | _ => cases hfinish

end Grouper

-- Tokens that are one operand wherever they stand.
structure IsOperand (tokens : List Token) : Prop where
  ne_nil : tokens ≠ []
  balanced : ∀ depth, tokens.foldlM Token.depthBehind? depth = some depth

namespace IsOperand

variable {tokens : List Token}

-- A mode that gathers a run of tokens gathers all that leads to another depth.
theorem feed_run {mode : List Token → Nat → Grouper.Mode} {depth depth' : Nat} (run : List Token)
    (hstep : ∀ {run depth depth' t}, t.depthBehind? depth = some depth' →
      grouper.step (mode run depth) t = ([], mode (run ++ [t]) depth'))
    (h : tokens.foldlM Token.depthBehind? depth = some depth') :
    grouper.feed (mode run depth) tokens = ([], mode (run ++ tokens) depth') := by
  induction tokens generalizing run depth with
  | nil =>
    cases h
    simp [Machine.feed]
  | cons t rest ih =>
    rw [List.foldlM_cons, Option.bind_eq_bind, Option.bind_eq_some_iff] at h
    obtain ⟨d, hd, hrest⟩ := h
    simp [Machine.feed, hstep hd, ih _ hrest]

theorem feed_operand {depth depth' : Nat} (run : List Token)
    (h : tokens.foldlM Token.depthBehind? depth = some depth') :
    grouper.feed (.operand run depth) tokens = ([], .operand (run ++ tokens) depth') :=
  feed_run run (fun hd => by simp [grouper, Grouper.step, hd]) h

theorem feed_item {depth depth' : Nat} (items : List (List Token)) (run : List Token)
    (h : tokens.foldlM Token.depthBehind? depth = some depth') :
    grouper.feed (.item items run depth) tokens = ([], .item items (run ++ tokens) depth') :=
  feed_run run (fun hd => by simp [grouper, Grouper.step, hd]) h

theorem symbols? (h : IsOperand tokens) : Sql.symbols? tokens = some [.operand tokens] := by
  rw [Sql.symbols?, Machine.read?, Grouper.between, feed_operand [] (h.balanced 0)]
  simp [grouper, Grouper.Mode.finish, Grouper.flush, h.ne_nil]

end IsOperand

end EntitySql.Sql
