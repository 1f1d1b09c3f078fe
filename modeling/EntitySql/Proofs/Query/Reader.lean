import EntitySql.Proofs.Query.Combination
import EntitySql.Proofs.Sql.Fitting

-- How SQL reads a statement with set operations. Behind its WITH clause, the
-- words of the operators cut it into operands wherever they stand outside of
-- parentheses. An operand is a SELECT without clauses for the whole result, or
-- any statement in parentheses.

namespace EntitySql.Query

open Sql (Lexeme lexemes? outline)
open Sql.Outline

namespace Reader

def isWord (w : Text) : Lexeme → Bool
  | .word t => t.upper == w
  | _ => false

-- Common tables.

-- In front of the word AS, in front of the query of a table, within it, and
-- behind its parenthesis.
inductive TableMode where
  | heading (depth : Nat)
  | body
  | inside (depth : Nat)
  | behind

def behindTables? : TableMode → List Lexeme → Option (List Lexeme)
  | .heading depth, l :: rest =>
    if depth = 0 && isWord "AS" l then behindTables? .body rest
    else do
      let depth ← depth? [] depth l
      behindTables? (.heading depth) rest
  | .body, l :: rest => if l = .opening then behindTables? (.inside 0) rest else none
  | .inside depth, l :: rest =>
    if depth = 0 && l = .closing then behindTables? .behind rest
    else do
      let depth ← depth? [] depth l
      behindTables? (.inside depth) rest
  | .behind, l :: rest =>
    if l = .sign Byte.comma then behindTables? (.heading 0) rest else some (l :: rest)
  | _, [] => none

def behindWith? : List Lexeme → Option (List Lexeme)
  | [] => none
  | l :: rest => if isWord "WITH" l then behindTables? (.heading 0) rest else some (l :: rest)

-- Operands and operators.

def operator? (l : Lexeme) : Option SetOperator :=
  [.union, .intersect, .except].find? fun op => isWord op.text l

def cut? : Nat → List Lexeme → Option (List Lexeme × List (SetOperator × List Lexeme))
  | depth, [] => if depth = 0 then some ([], []) else none
  | depth, l :: rest =>
    match if depth = 0 then operator? l else none with
    | some op => do
      let (first, others) ← cut? 0 rest
      some ([], (op, first) :: others)
    | none => do
      let depth ← depth? [] depth l
      let (first, others) ← cut? depth rest
      some (l :: first, others)

-- The word behind an operator. Only UNION is known with ALL.
def quantified? : SetOperator × List Lexeme → Option (SetOperator × List Lexeme)
  | (op, []) => some (op, [])
  | (op, l :: rest) =>
    if isWord "ALL" l then if op = .union then some (.unionAll, rest) else none
    else if isWord "DISTINCT" l then some (op, rest)
    else some (op, l :: rest)

-- What stands up to the parenthesis that closes, if it is the last lexeme.
def enclosed? : Nat → List Lexeme → Option (List Lexeme)
  | _, [] => none
  | depth, l :: rest =>
    if depth = 0 && l = .closing then if rest.isEmpty then some [] else none
    else do
      let depth ← depth? [] depth l
      let inner ← enclosed? depth rest
      some (l :: inner)

def operand? (banned : List Text) : List Lexeme → Option (List Lexeme)
  | [] => none
  | l :: rest =>
    if l = .opening then enclosed? 0 rest
    else if isWord "SELECT" l && (depthBehind? banned 0 (l :: rest)).isSome then some (l :: rest)
    else none

def operation? (r : SetOperator × List Lexeme) : Option (SetOperator × List Lexeme) := do
  let (op, ls) ← quantified? r
  let inner ← operand? tailWords ls
  some (op, inner)

-- A statement without set operations may have all clauses.
def statement? (ls : List Lexeme) : Option (Combination (List Lexeme)) := do
  let ls ← behindWith? ls
  let (first, others) ← cut? 0 ls
  let first ← operand? (if others.isEmpty then [] else tailWords) first
  let others ← others.mapM operation?
  some (.nest first others)

end Reader

-- The operands of a statement as SQL combines them.
def combination? (t : Text) : Option (Combination (List Lexeme)) :=
  (lexemes? t).bind Reader.statement?

namespace Reader

variable {ls rest inner : List Lexeme} {i j : Nat} {op : SetOperator}

-- Lexemes that lead from one depth to another are passed over.

theorem depthBehind?_cons {banned : List Text} {l : Lexeme}
    (h : depthBehind? banned i (l :: ls) = some j) :
    ∃ d, depth? banned i l = some d ∧ depth? [] i l = some d ∧
      depthBehind? banned d ls = some j := by
  obtain ⟨d, hl, hls⟩ := Option.bind_eq_some_iff.mp h
  exact ⟨d, hl, depth?_of_subset (List.nil_subset _) _ _ _ hl, hls⟩

theorem not_banned {banned : List Text} {l : Lexeme} {d : Nat} (h : depth? banned 0 l = some d)
    {w : Text} (hw : w ∈ banned) : isWord w l = false := by
  cases l with
  | word t =>
    simp only [depth?, Option.ite_none_left_eq_some, Bool.and_eq_true, List.elem_iff] at h
    simp only [isWord, beq_eq_false_iff_ne]
    rintro rfl
    exact h.1 ⟨rfl, hw⟩
  | _ => rfl

theorem not_heading {l : Lexeme} {d : Nat} (h : depth? ["AS"] i l = some d) :
    (i = 0 && isWord "AS" l) = false := by
  by_cases hi : i = 0
  · subst hi
    simp [not_banned h (List.mem_singleton_self _)]
  · simp [hi]

theorem not_closing {l : Lexeme} {d : Nat} (h : depth? [] i l = some d) :
    (i = 0 && l = .closing) = false := by
  by_contra hboth
  simp only [Bool.not_eq_false, Bool.and_eq_true, decide_eq_true_eq] at hboth
  obtain ⟨rfl, rfl⟩ := hboth
  cases h

theorem operator?_eq_none {l : Lexeme} {d : Nat} (h : depth? setWords 0 l = some d) :
    operator? l = none := by
  refine List.find?_eq_none.mpr fun op hop => ?_
  have hmem : op.text ∈ setWords := by
    simp only [List.mem_cons, List.not_mem_nil, or_false] at hop
    rcases hop with rfl | rfl | rfl <;> decide
  simp [not_banned h hmem]

theorem cut?_append (h : depthBehind? setWords i ls = some j) :
    cut? i (ls ++ rest) = (cut? j rest).map fun r => (ls ++ r.1, r.2) := by
  induction ls generalizing i with
  | nil =>
    cases h
    simp
  | cons l ls ih =>
    obtain ⟨d, hbanned, hl, hls⟩ := depthBehind?_cons h
    have hoperator : (if i = 0 then operator? l else none) = none := by
      by_cases hi : i = 0
      · subst hi
        rw [if_pos rfl, operator?_eq_none hbanned]
      · rw [if_neg hi]
    rw [List.cons_append, cut?, hoperator]
    simp only [hl, Option.bind_eq_bind, Option.bind_some, ih hls]
    cases cut? j rest <;> rfl

theorem enclosed?_append (h : depthBehind? [] i ls = some j) :
    enclosed? i (ls ++ rest) = (enclosed? j rest).map (ls ++ ·) := by
  induction ls generalizing i with
  | nil =>
    cases h
    simp
  | cons l ls ih =>
    obtain ⟨d, hl, -, hls⟩ := depthBehind?_cons h
    rw [List.cons_append, enclosed?, not_closing hl, hl, Option.bind_eq_bind, Option.bind_some,
      ih hls]
    cases enclosed? j rest <;> rfl

theorem enclosed?_closing (h : depthBehind? [] 0 inner = some 0) :
    enclosed? 0 (inner ++ [.closing]) = some inner := by
  rw [enclosed?_append h]
  simp [enclosed?]

theorem behindTables?_heading (h : depthBehind? ["AS"] i ls = some j) :
    behindTables? (.heading i) (ls ++ rest) = behindTables? (.heading j) rest := by
  induction ls generalizing i with
  | nil =>
    cases h
    rfl
  | cons l ls ih =>
    obtain ⟨d, hbanned, hl, hls⟩ := depthBehind?_cons h
    rw [List.cons_append, behindTables?, not_heading hbanned]
    simp [hl, ih hls]

theorem behindTables?_inside (h : depthBehind? [] i ls = some j) :
    behindTables? (.inside i) (ls ++ rest) = behindTables? (.inside j) rest := by
  induction ls generalizing i with
  | nil =>
    cases h
    rfl
  | cons l ls ih =>
    obtain ⟨d, hl, -, hls⟩ := depthBehind?_cons h
    rw [List.cons_append, behindTables?, not_closing hl]
    simp [hl, ih hls]

-- What the renderer writes for an operation is one operator with its operand.

def base : SetOperator → SetOperator
  | .unionAll => .union
  | op => op

def quantifier : SetOperator → List Lexeme
  | .unionAll => [.word "ALL"]
  | _ => []

def segment (r : SetOperator × List Lexeme) : List Lexeme :=
  quantifier r.1 ++ .opening :: r.2 ++ [.closing]

def operationLexemes (r : SetOperator × List Lexeme) : List Lexeme :=
  .word (base r.1).text :: segment r

theorem operator?_base (op : SetOperator) : operator? (.word (base op).text) = some (base op) := by
  cases op <;> decide

theorem depthBehind?_enclosed {banned : List Text} (h : depthBehind? [] 0 inner = some 0) :
    depthBehind? banned 0 (.opening :: inner ++ [.closing]) = some 0 := by
  have hinner : depthBehind? banned 0 (.opening :: inner) = some 1 :=
    depthBehind?_of_depth? (f := (· + 1)) depth?_succ h
  have hclosing : depthBehind? banned 1 [.closing] = some 0 := rfl
  exact depthBehind?_append hinner hclosing

theorem depthBehind?_segment {r : SetOperator × List Lexeme} (h : depthBehind? [] 0 r.2 = some 0) :
    depthBehind? setWords 0 (segment r) = some 0 := by
  have hquantifier : depthBehind? setWords 0 (quantifier r.1) = some 0 := by
    cases r.1 <;> decide
  rw [segment, List.append_assoc]
  exact depthBehind?_append hquantifier (depthBehind?_enclosed h)

theorem cut?_operations {operations : List (SetOperator × List Lexeme)}
    (h : ∀ r ∈ operations, depthBehind? [] 0 r.2 = some 0) :
    cut? 0 (operations.flatMap operationLexemes) =
      some ([], operations.map fun r => (base r.1, segment r)) := by
  induction operations with
  | nil => rfl
  | cons r operations ih =>
    obtain ⟨hr, hrest⟩ := List.forall_mem_cons.mp h
    have hsegment : cut? 0 (segment r ++ operations.flatMap operationLexemes) =
        some (segment r, operations.map fun r => (base r.1, segment r)) := by
      rw [cut?_append (depthBehind?_segment hr), ih hrest, Option.map_some, List.append_nil]
    rw [List.flatMap_cons, operationLexemes, List.cons_append, cut?, if_pos rfl, operator?_base]
    simp [hsegment]

theorem operand?_enclosed {banned : List Text} (h : depthBehind? [] 0 inner = some 0) :
    operand? banned (.opening :: inner ++ [.closing]) = some inner := by
  rw [List.cons_append, operand?, if_pos rfl, enclosed?_closing h]

theorem operation?_segment {r : SetOperator × List Lexeme} (h : depthBehind? [] 0 r.2 = some 0) :
    operation? (base r.1, segment r) = some r := by
  have hquantified : quantified? (base r.1, segment r) =
      some (r.1, .opening :: r.2 ++ [.closing]) := by
    obtain ⟨op, inner⟩ := r
    cases op <;> rfl
  simp only [operation?, hquantified, Option.bind_eq_bind, Option.bind_some, operand?_enclosed h]

theorem mapM_operation? {operations : List (SetOperator × List Lexeme)}
    (h : ∀ r ∈ operations, depthBehind? [] 0 r.2 = some 0) :
    (operations.map fun r => (base r.1, segment r)).mapM operation? = some operations := by
  induction operations with
  | nil => rfl
  | cons r operations ih =>
    obtain ⟨hr, hrest⟩ := List.forall_mem_cons.mp h
    rw [List.map_cons, List.mapM_cons, operation?_segment hr, ih hrest]
    rfl

-- The lexemes with which an operand begins.
def Begins (l : Lexeme) : Prop := l = .opening ∨ l = .word "SELECT"

theorem statement?_append {tables own first : List Lexeme}
    {operations : List (SetOperator × List Lexeme)}
    (htables : ∀ l more, Begins l → behindWith? (tables ++ l :: more) = some (l :: more))
    (hbegins : ∀ l ∈ own.head?, Begins l) (hown : depthBehind? setWords 0 own = some 0)
    (hfirst : operand? (if operations.isEmpty then [] else tailWords) own = some first)
    (h : ∀ r ∈ operations, depthBehind? [] 0 r.2 = some 0) :
    statement? (tables ++ own ++ operations.flatMap operationLexemes) =
      some (.nest first operations) := by
  cases own with
  | nil => cases hfirst
  | cons l more =>
    have hbehind : behindWith? (tables ++ (l :: more ++ operations.flatMap operationLexemes)) =
        some (l :: more ++ operations.flatMap operationLexemes) :=
      htables l _ (hbegins l rfl)
    have hcut : cut? 0 (l :: more ++ operations.flatMap operationLexemes) =
        some (l :: more, operations.map fun r => (base r.1, segment r)) := by
      rw [cut?_append hown, cut?_operations h, Option.map_some, List.append_nil]
    rw [statement?, List.append_assoc]
    simp only [Option.bind_eq_bind, hbehind, Option.bind_some, hcut, List.isEmpty_map, hfirst,
      mapM_operation? h]

end Reader

end EntitySql.Query
