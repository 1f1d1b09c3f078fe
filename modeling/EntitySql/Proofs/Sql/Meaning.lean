import EntitySql.Proofs.Run
import EntitySql.Proofs.Sql.Columns
import EntitySql.Proofs.Sql.Literals
import EntitySql.Proofs.Sql.Spelling
import EntitySql.Sql.Compiler.Expression

-- The operator tree that a condition over rows means, with terms as operands:
-- columns, and values for what depends on no row. A comparison with null is a
-- null test of the other side. A term prints the symbols of a tree if its
-- parts do.

namespace EntitySql.Sql

-- A pattern is the text between wildcards.
def Tree.around {α : Type} (wildcard : α) (leading trailing : Bool) (t : Tree α) : Tree α :=
  let t := if leading then .binary .concatenate (.operand wildcard) t else t
  if trailing then .binary .concatenate t (.operand wildcard) else t

-- The text of the term spells the tree with the parentheses that are written.
structure Prints (t : Term) (u : ParseTree) : Prop where
  spells : Spells t.text u.printed.flatten
  bare : u.bare = u

namespace Prints

variable {t l r : Term} {u lu ru : ParseTree}

theorem operand (h : Scans t.text) : Prints t (.operand (operandTokens t.text)) :=
  ⟨h.spells, rfl⟩

theorem operation {op : Operator} {k : Connective} (htext : k.text = op.text)
    (hgrouped : k.isGrouped = true) (hl : Prints l lu) (hr : Prints r ru) :
    Prints (.operation op l r) (.binary k lu ru) := by
  refine ⟨?_, by rw [Tree.bare, hl.bare, hr.bare]⟩
  have hinside := (hl.spells.append (.connective k hr.spells)).append follows_closing
  have hspells := leads_opening.append hinside
  simp only [Connective.between, htext, List.append_assoc] at hspells
  simpa [Term.text, Tree.printed, hgrouped, Tree.flatten, List.append_assoc] using hspells

theorem not (h : Prints t u) : Prints (.not t) (.not u) := by
  refine ⟨?_, by rw [Tree.bare, h.bare]⟩
  have hspells := leads_not.append (h.spells.append follows_closing)
  simpa [Term.text, Tree.printed, Tree.flatten] using hspells

theorem isNull (h : Prints t u) (negated : Bool) : Prints (.isNull t negated) (.isNull negated u) := by
  refine ⟨?_, by rw [Tree.bare, h.bare]⟩
  simpa [Term.text, Tree.printed, Tree.flatten] using h.spells.append (follows_nullTest negated)

theorem isIn (h : Prints t u) {items : List Term} {tokens : List (List Token)}
    (hitems : ScanAs (Term.texts items) tokens) (hne : items ≠ []) :
    Prints (.isIn t items) (.isIn u tokens) := by
  refine ⟨?_, by rw [Tree.bare, h.bare]⟩
  have hparts : Term.texts items ≠ [] := by
    cases items with
    | nil => exact absurd rfl hne
    | cons item rest => simp [Term.texts]
  have hspells := h.spells.append (follows_isIn hitems hparts)
  simpa [Term.text, Tree.printed, Tree.flatten] using hspells

theorem like (ignoreCase : Bool) (hl : Prints l lu) (hr : Prints r ru) :
    Prints (.like ignoreCase l r) (.binary (.like ignoreCase) lu ru) := by
  refine ⟨?_, by rw [Tree.bare, hl.bare, hr.bare]⟩
  have hspells := hl.spells.append (.connective (.like ignoreCase) hr.spells)
  have hword : Connective.text (.like ignoreCase) = Term.likeWord ignoreCase := by
    cases ignoreCase <;> rfl
  simp only [Connective.between, hword, List.append_assoc] at hspells
  simpa [Term.text, Tree.printed, Connective.isGrouped, Tree.flatten] using hspells

theorem pattern (leading trailing : Bool) (h : Prints t u) :
    Prints (.pattern leading trailing t)
      (u.around (operandTokens wildcard) leading trailing) := by
  have hwildcard := scans_wildcard.spells
  have hbehind {a : Text} {symbols : List Symbol} (ha : Spells a symbols) :=
    ha.append (.connective .concatenate hwildcard)
  have hfront := hwildcard.append (.connective .concatenate h.spells)
  have hbeside : Term.beside = Connective.between .concatenate := rfl
  have hquoted : Text.ofString "'%'" = wildcard := rfl
  refine ⟨?_, ?_⟩
  · cases leading with
    | false =>
      cases trailing with
      | false => simpa [Term.text, Term.patternText, Tree.around] using h.spells
      | true =>
        simpa [Term.text, Term.patternText, hbeside, hquoted, Tree.around, Tree.printed,
          Connective.isGrouped, Tree.flatten] using hbehind h.spells
    | true =>
      cases trailing with
      | false =>
        simpa [Term.text, Term.patternText, hbeside, hquoted, Tree.around, Tree.printed,
          Connective.isGrouped, Tree.flatten] using hfront
      | true =>
        simpa [Term.text, Term.patternText, hbeside, hquoted, Tree.around, Tree.printed,
          Connective.isGrouped, Tree.flatten] using hbehind hfront
  · cases leading <;> cases trailing <;> simp [Tree.around, Tree.bare, h.bare]

end Prints

end EntitySql.Sql

namespace EntitySql

def BinaryOp.connective? : BinaryOp → Option Sql.Connective
  | .equal => some .equal
  | .notEqual => some .notEqual
  | .compare c => some (.compare c)
  | .and => some .and
  | .or => some .or
  | _ => none

-- Whether the expression is replaced by its value. Arrays are compiled element
-- by element, and initializers have no value.
def Expr.isFolded : Expr → Bool
  | .array _ _ => false
  | .initializer _ _ _ => false
  | e => !e.referencesParameter

namespace Sql

-- Whether the operator tests for null when one side is null, and how.
def Connective.nullTest? : Connective → Option Bool
  | .equal => some false
  | .notEqual => some true
  | _ => none

def Term.tokens (t : Term) : List Token := operandTokens t.text

namespace Tree

def map {α β : Type} (f : α → β) : Tree α → Tree β
  | .operand a => .operand (f a)
  | .group t => .group (t.map f)
  | .not t => .not (t.map f)
  | .isNull negated t => .isNull negated (t.map f)
  | .isIn t items => .isIn (t.map f) (items.map f)
  | .binary op l r => .binary op (l.map f) (r.map f)

def isNullWord : Tree Term → Bool
  | .operand t => t.isNullWord
  | _ => false

def joined (op : Connective) (l r : Tree Term) : Tree Term :=
  match op.nullTest? with
  | none => .binary op l r
  | some negated =>
    if r.isNullWord then .isNull negated l
    else if l.isNullWord then .isNull negated r
    else .binary op l r

-- Nothing is among no items.
def member (t : Tree Term) (items : List Term) : Tree Term :=
  if items.isEmpty then .operand .falsity else .isIn t items

end Tree

namespace Compiler

def operand (t : Step Term) : Step (Tree Term) := do return .operand (← t)

def placement? (method : Text) : Option Placement :=
  if method == "StartsWith" then some .start
  else if method == "EndsWith" then some .finish
  else none

-- A known pattern is one operand; any other is put between wildcards.
def patternTree (c : Compiler) (source : Expr) (pattern : Step (Tree Term)) (place : Placement) :
    Step (Tree Term) :=
  if source.referencesParameter then do
    return (← pattern).around (.value wildcard) place.leading place.trailing
  else operand (c.searchPattern ⟨source, c.term none source, []⟩ place)

def searchTree (c : Compiler) (target : Step (Tree Term)) (source : Expr)
    (pattern : Step (Tree Term)) (place : Placement) : Step (Tree Term) := do
  let t ← target
  let p ← c.patternTree source pattern place
  return .binary (.like c.options.ignoreCase) t p

def knownContainsTree (c : Compiler) (collection item : Expr)
    (collectionTree itemTree : Step (Tree Term)) : Step (Tree Term) := do
  match ← c.extract collection with
  | .string _ => c.searchTree collectionTree item itemTree .anywhere
  | .array values => do
    let t ← itemTree
    let items ← values.mapM c.constant
    return t.member items
  | v => throw (.unsupported (.containsTarget v.kind) collection.text)

def containsTree (c : Compiler) (collection item : Expr)
    (collectionTree itemTree : Step (Tree Term)) : Step (Tree Term) :=
  if collection.referencesParameter then c.searchTree collectionTree item itemTree .anywhere
  else match collection with
    | .array _ items => do
      let t ← itemTree
      let items ← compileAll (c.terms none items)
      return t.member items
    | _ => c.knownContainsTree collection item collectionTree itemTree

def tree (c : Compiler) : Expr → Step (Tree Term)
  | .binary id op l r =>
    if (Expr.binary id op l r).referencesParameter then
      match op.connective? with
      | none => operand (c.term none (.binary id op l r))
      | some k => do
        let l ← tree c l
        let r ← tree c r
        return .joined k l r
    else operand (c.term none (.binary id op l r))
  | .not id e =>
    if e.referencesParameter then do return .not (← tree c e)
    else operand (c.term none (.not id e))
  | .call id target method [arg] =>
    if (Expr.call id target method [arg]).referencesParameter then
      if method == "Contains" then c.containsTree target arg (tree c target) (tree c arg)
      else match placement? method with
        | some place => c.searchTree (tree c target) arg (tree c arg) place
        | none => operand (c.term none (.call id target method [arg]))
    else operand (c.term none (.call id target method [arg]))
  | .staticCall id method [collection, item] =>
    if (Expr.staticCall id method [collection, item]).referencesParameter && method == "Contains"
    then c.containsTree collection item (tree c collection) (tree c item)
    else operand (c.term none (.staticCall id method [collection, item]))
  | e => operand (c.term none e)

end Compiler

end Sql

end EntitySql
