import EntitySql.Proofs.Sql.Precedence
import Mathlib.Order.MinMax

-- Trees up to their parentheses. The symbols of a tree and its shape fix where
-- its parentheses stand, so a printed tree is read back with its shape exactly
-- if it keeps to the levels.

namespace EntitySql.Sql

def Symbol.isParenthesis : Symbol → Bool
  | .openGroup => true
  | .closeGroup => true
  | _ => false

namespace Tree

def bare : ParseTree → ParseTree
  | .operand tokens => .operand tokens
  | .group t => t.bare
  | .not t => .not t.bare
  | .isNull negated t => .isNull negated t.bare
  | .isIn t items => .isIn t.bare items
  | .binary op l r => .binary op l.bare r.bare

def groups : Nat → ParseTree → ParseTree
  | 0, t => t
  | n + 1, t => .group (groups n t)

def isGroup : ParseTree → Bool
  | .group _ => true
  | _ => false

-- The symbols that are not parentheses.
def weight (t : ParseTree) : Nat := t.flatten.countP (!·.isParenthesis)

theorem exists_groups (t : ParseTree) : ∃ n core, t = groups n core ∧ core.isGroup = false := by
  induction t with
  | group t ih =>
    obtain ⟨n, core, rfl, hcore⟩ := ih
    exact ⟨n + 1, core, rfl, hcore⟩
  | _ => exact ⟨0, _, rfl, rfl⟩

theorem bare_groups (n : Nat) (t : ParseTree) : (groups n t).bare = t.bare := by
  induction n with
  | zero => rfl
  | succ n ih => exact ih

theorem flatten_groups (n : Nat) (t : ParseTree) :
    (groups n t).flatten =
      List.replicate n .openGroup ++ t.flatten ++ List.replicate n .closeGroup := by
  induction n with
  | zero => simp [groups]
  | succ n ih =>
    rw [groups, flatten, ih, List.replicate_succ, List.replicate_succ' (n := n) (a := Symbol.closeGroup)]
    simp

theorem weight_bare (t : ParseTree) : t.weight = t.bare.weight := by
  induction t with
  | operand tokens => rfl
  | group t ih => simpa [weight, flatten, bare, Symbol.isParenthesis] using ih
  | not t ih => simpa [weight, flatten, bare, Symbol.isParenthesis] using ih
  | isNull negated t ih => simpa [weight, flatten, bare, Symbol.isParenthesis] using ih
  | isIn t items ih => simpa [weight, flatten, bare, Symbol.isParenthesis] using ih
  | binary op l r ihl ihr =>
    simp only [weight] at ihl ihr
    simp only [weight, flatten, bare, List.countP_append, List.countP_cons, ihl, ihr]

-- Every parenthesis that a tree opens it closes.
theorem count_flatten (t : ParseTree) : t.flatten.count .openGroup = t.flatten.count .closeGroup := by
  induction t with
  | operand tokens => simp [flatten]
  | group t ih => simp [flatten, ih]
  | not t ih => simp [flatten, ih]
  | isNull negated t ih => simp [flatten, ih]
  | isIn t items ih => simp [flatten, ih]
  | binary op l r ihl ihr => simp [flatten, ihl, ihr]

end Tree

-- A symbol that is no parenthesis is found by the number of those before it.
theorem append_cons_inj {a a' b b' : List Symbol} {x x' : Symbol}
    (hx : x.isParenthesis = false) (hx' : x'.isParenthesis = false)
    (hcount : a.countP (!·.isParenthesis) = a'.countP (!·.isParenthesis))
    (h : a ++ x :: b = a' ++ x' :: b') : a = a' ∧ x = x' ∧ b = b' := by
  induction a generalizing a' with
  | nil =>
    cases a' with
    | nil =>
      obtain ⟨hhead, htail⟩ := List.cons.inj h
      exact ⟨rfl, hhead, htail⟩
    | cons y a' =>
      obtain ⟨rfl, -⟩ := List.cons.inj h
      simp [hx] at hcount
  | cons y a ih =>
    cases a' with
    | nil =>
      obtain ⟨rfl, -⟩ := List.cons.inj h
      simp [hx'] at hcount
    | cons z a' =>
      obtain ⟨rfl, htail⟩ := List.cons.inj h
      simp only [List.countP_cons, Nat.add_right_cancel_iff] at hcount
      obtain ⟨rfl, hsame⟩ := ih hcount htail
      exact ⟨rfl, hsame⟩

namespace Tree

-- As many parentheses are opened before an operator as are closed behind it,
-- so balanced operands fix their number.
theorem groups_left_inj {n m : Nat} {t u : ParseTree}
    (h : List.replicate n .openGroup ++ t.flatten = List.replicate m .openGroup ++ u.flatten) :
    n = m ∧ t.flatten = u.flatten := by
  have hopen := congrArg (List.count Symbol.openGroup) h
  have hclose := congrArg (List.count Symbol.closeGroup) h
  simp [List.count_replicate, count_flatten] at hopen hclose
  obtain rfl : n = m := by omega
  exact ⟨rfl, List.append_cancel_left h⟩

theorem groups_right_inj {n m : Nat} {t u : ParseTree}
    (h : t.flatten ++ List.replicate n .closeGroup = u.flatten ++ List.replicate m .closeGroup) :
    n = m ∧ t.flatten = u.flatten := by
  have hopen := congrArg (List.count Symbol.openGroup) h
  have hclose := congrArg (List.count Symbol.closeGroup) h
  simp [List.count_replicate, count_flatten] at hopen hclose
  obtain rfl : n = m := by omega
  exact ⟨rfl, List.append_cancel_right h⟩

-- The symbols up to the operator of a tree are found by its shape.
theorem countP_opening (n : Nat) (t : ParseTree) :
    (List.replicate n Symbol.openGroup ++ t.flatten).countP (!·.isParenthesis) = t.bare.weight := by
  rw [List.countP_append, ← weight_bare]
  simp [weight, Symbol.isParenthesis, List.countP_replicate]

theorem exists_of_bare_not {u t : ParseTree} (h : u.bare = .not t) :
    ∃ n u', u = groups n (.not u') ∧ u'.bare = t := by
  obtain ⟨n, core, rfl, hcore⟩ := exists_groups u
  rw [bare_groups] at h
  cases core with
  | not u' => exact ⟨n, u', rfl, by cases h; rfl⟩
  | group _ => cases hcore
  | _ => cases h

theorem exists_of_bare_isNull {negated : Bool} {u t : ParseTree} (h : u.bare = .isNull negated t) :
    ∃ n u', u = groups n (.isNull negated u') ∧ u'.bare = t := by
  obtain ⟨n, core, rfl, hcore⟩ := exists_groups u
  rw [bare_groups] at h
  cases core with
  | isNull _ u' =>
    cases h
    exact ⟨n, u', rfl, rfl⟩
  | group _ => cases hcore
  | _ => cases h

theorem exists_of_bare_isIn {items : List (List Token)} {u t : ParseTree} (h : u.bare = .isIn t items) :
    ∃ n u', u = groups n (.isIn u' items) ∧ u'.bare = t := by
  obtain ⟨n, core, rfl, hcore⟩ := exists_groups u
  rw [bare_groups] at h
  cases core with
  | isIn u' _ =>
    cases h
    exact ⟨n, u', rfl, rfl⟩
  | group _ => cases hcore
  | _ => cases h

theorem exists_of_bare_binary {op : Connective} {u l r : ParseTree} (h : u.bare = .binary op l r) :
    ∃ n lu ru, u = groups n (.binary op lu ru) ∧ lu.bare = l ∧ ru.bare = r := by
  obtain ⟨n, core, rfl, hcore⟩ := exists_groups u
  rw [bare_groups] at h
  cases core with
  | binary _ lu ru =>
    cases h
    exact ⟨n, lu, ru, rfl, rfl, rfl⟩
  | group _ => cases hcore
  | _ => cases h

theorem exists_of_bare_operand {tokens : List Token} {u : ParseTree} (h : u.bare = .operand tokens) :
    ∃ n, u = groups n (.operand tokens) := by
  obtain ⟨n, core, rfl, hcore⟩ := exists_groups u
  rw [bare_groups] at h
  cases core with
  | operand _ =>
    cases h
    exact ⟨n, rfl⟩
  | group _ => cases hcore
  | _ => cases h

-- Symbols and shape together are the tree: the operator stands at the same
-- place of both flat trees, and what is left of it and right of it is balanced.
theorem eq_of_flatten_of_bare {u v : ParseTree} (hflatten : u.flatten = v.flatten)
    (hbare : u.bare = v.bare) : u = v := by
  generalize ht : u.bare = t at hbare
  induction t generalizing u v with
  | operand tokens =>
    obtain ⟨n, rfl⟩ := exists_of_bare_operand ht
    obtain ⟨m, rfl⟩ := exists_of_bare_operand hbare.symm
    have hlength := congrArg List.length hflatten
    simp [flatten_groups, flatten] at hlength
    obtain rfl : n = m := by omega
    rfl
  | group t ih =>
    obtain ⟨n, core, rfl, hcore⟩ := exists_groups u
    rw [bare_groups] at ht
    cases core with
    | group _ => cases hcore
    | _ => cases ht
  | not t ih =>
    obtain ⟨n, u', rfl, hu⟩ := exists_of_bare_not ht
    obtain ⟨m, v', rfl, hv⟩ := exists_of_bare_not hbare.symm
    simp only [flatten_groups, flatten, List.append_assoc, List.cons_append] at hflatten
    obtain ⟨-, -, hbehind⟩ := append_cons_inj rfl rfl
      (by simp [List.countP_replicate, Symbol.isParenthesis]) hflatten
    obtain ⟨rfl, hsame⟩ := groups_right_inj hbehind
    rw [ih hsame hu hv.symm]
  | isNull negated t ih =>
    obtain ⟨n, u', rfl, hu⟩ := exists_of_bare_isNull ht
    obtain ⟨m, v', rfl, hv⟩ := exists_of_bare_isNull hbare.symm
    simp only [flatten_groups, flatten, ← List.append_assoc] at hflatten
    rw [List.append_assoc, List.append_assoc _ [_]] at hflatten
    obtain ⟨hbefore, -, -⟩ := append_cons_inj rfl rfl
      (by rw [countP_opening, countP_opening, hu, hv]) hflatten
    obtain ⟨rfl, hsame⟩ := groups_left_inj hbefore
    rw [ih hsame hu hv.symm]
  | isIn t items ih =>
    obtain ⟨n, u', rfl, hu⟩ := exists_of_bare_isIn ht
    obtain ⟨m, v', rfl, hv⟩ := exists_of_bare_isIn hbare.symm
    simp only [flatten_groups, flatten, ← List.append_assoc] at hflatten
    rw [List.append_assoc, List.append_assoc _ [_]] at hflatten
    obtain ⟨hbefore, -, -⟩ := append_cons_inj rfl rfl
      (by rw [countP_opening, countP_opening, hu, hv]) hflatten
    obtain ⟨rfl, hsame⟩ := groups_left_inj hbefore
    rw [ih hsame hu hv.symm]
  | binary op l r ihl ihr =>
    obtain ⟨n, lu, ru, rfl, hlu, hru⟩ := exists_of_bare_binary ht
    obtain ⟨m, lv, rv, rfl, hlv, hrv⟩ := exists_of_bare_binary hbare.symm
    simp only [flatten_groups, flatten, ← List.append_assoc] at hflatten
    rw [List.append_assoc _ (_ :: _), List.append_assoc _ (_ :: _)] at hflatten
    obtain ⟨hbefore, -, hbehind⟩ := append_cons_inj rfl rfl
      (by rw [countP_opening, countP_opening, hlu, hlv]) hflatten
    obtain ⟨rfl, hleft⟩ := groups_left_inj hbefore
    obtain ⟨-, hright⟩ := groups_right_inj hbehind
    rw [ihl hleft hlu hlv.symm, ihr hright hru hrv.symm]

end Tree

-- Comparisons and the operators between conditions are written into
-- parentheses; LIKE and || are not, and neither are tests behind an operand.
def Connective.isGrouped : Connective → Bool
  | .like _ => false
  | .concatenate => false
  | _ => true

namespace Tree

def printed : ParseTree → ParseTree
  | .operand tokens => .operand tokens
  | .group t => .group t.printed
  | .not t => .not (.group t.printed)
  | .isNull negated t => .isNull negated t.printed
  | .isIn t items => .isIn t.printed items
  | .binary op l r =>
    if op.isGrouped then .group (.binary op l.printed r.printed)
    else .binary op l.printed r.printed

theorem bare_printed (t : ParseTree) : t.printed.bare = t.bare := by
  induction t with
  | binary op l r ihl ihr =>
    by_cases h : op.isGrouped <;> simp [printed, bare, h, ihl, ihr]
  | _ => simp [printed, bare, *]

-- A tree that prints as a unit, or begins in NOT.
def isPrimary : ParseTree → Bool
  | .isNull _ _ => false
  | .isIn _ _ => false
  | .binary op _ _ => op.isGrouped
  | _ => true

def isPattern : ParseTree → Bool
  | .binary .concatenate l _ => l.isPattern
  | t => t.isPrimary

def isLike : ParseTree → Bool
  | .binary (.like _) _ _ => true
  | _ => false

-- Whether a NOT is the last operator in the text, so that it takes in what
-- follows.
def endsInNot : ParseTree → Bool
  | .not _ => true
  | .binary op _ r => !op.isGrouped && r.endsInNot
  | _ => false

-- Whether a null test stands in the text before every looser operator, so that
-- it takes in what is in front.
def beginsInNullTest : ParseTree → Bool
  | .isNull _ _ => true
  | .isIn t _ => t.beginsInNullTest
  | .binary op l _ => !op.isGrouped && l.beginsInNullTest
  | _ => false

-- The left operand of a comparison must not end in NOT and the right one not
-- begin in a null test; LIKE does not follow LIKE. AND and OR take everything.
def fits (l r : ParseTree) : Connective → Bool
  | .or => true
  | .and => true
  | .like _ => !l.endsInNot && !l.isLike && r.isPattern
  | .concatenate => !l.endsInNot && !l.isLike && r.isPrimary
  | _ => !l.endsInNot && !r.beginsInNullTest

-- Whether the text groups as the tree does: a test behind an operand must not
-- follow a NOT, nor IN a LIKE, and the operands of each operator must fit it.
def isGrouped : ParseTree → Bool
  | .operand _ => true
  | .group t => t.isGrouped
  | .not t => t.isGrouped
  | .isNull _ t => t.isGrouped && !t.endsInNot
  | .isIn t _ => t.isGrouped && !t.endsInNot && !t.isLike
  | .binary op l r => l.isGrouped && r.isGrouped && fits l r op

theorem beginsInNullTest_iff (t : ParseTree) :
    t.beginsInNullTest = false ↔ Connective.equal.level < t.printed.leftEdge := by
  induction t with
  | isNull negated t ih =>
    simp [printed, leftEdge, beginsInNullTest, isNullLevel, Connective.level]
  | isIn t items ih =>
    simp only [printed, leftEdge, beginsInNullTest, ih, lt_min_iff]
    exact (and_iff_right (by decide)).symm
  | binary op l r ihl ihr =>
    cases op <;> simp [printed, leftEdge, beginsInNullTest, Connective.isGrouped,
      Connective.level, tight, ihl]
  | _ => simp [printed, leftEdge, beginsInNullTest, tight, Connective.level]

-- Printed trees end in NOT, in LIKE, in || or in a unit.
theorem endsInNot_iff {level : Nat} (hlo : notLevel ≤ level) (hhi : level < isInLevel) (t : ParseTree) :
    t.endsInNot = false ↔ level < t.printed.rightEdge := by
  unfold notLevel isInLevel at *
  induction t with
  | binary op l r ihl ihr =>
    cases op <;>
      simp [printed, rightEdge, endsInNot, Connective.isGrouped, Connective.level, tight, ihr] <;>
      omega
  | not t ih =>
    simp [printed, rightEdge, endsInNot, tight, notLevel]
    omega
  | _ =>
    simp [printed, rightEdge, endsInNot, tight]
    omega

theorem isPrimary_iff (t : ParseTree) :
    t.isPrimary = true ↔ Connective.concatenate.level < t.printed.leftEdge := by
  cases t with
  | binary op l r =>
    cases op <;>
      simp [isPrimary, printed, leftEdge, Connective.isGrouped, Connective.level, tight]
  | _ => simp [isPrimary, printed, leftEdge, tight, Connective.level, isNullLevel, isInLevel]

theorem isPattern_iff (t : ParseTree) : t.isPattern = true ↔ isInLevel < t.printed.leftEdge := by
  induction t with
  | binary op l r ihl _ =>
    cases op <;> simp [isPattern, isPrimary, printed, leftEdge, Connective.isGrouped,
      Connective.level, tight, isInLevel, ihl]
  | _ => simp [isPattern, isPrimary, printed, leftEdge, tight, isNullLevel, isInLevel]

theorem isLike_eq_false {t : ParseTree} (h : t.isPrimary = true) : t.isLike = false := by
  cases t with
  | binary op l r => cases op <;> first | rfl | cases h
  | _ => rfl

-- The right operand of || is a unit or a NOT, so only the tree itself can end
-- in LIKE.
theorem endsInNot_isLike_iff {t : ParseTree} (h : t.isGrouped = true) :
    (t.endsInNot = false ∧ t.isLike = false) ↔ isInLevel < t.printed.rightEdge := by
  induction t with
  | binary op l r ihl ihr =>
    cases op with
    | concatenate =>
      simp only [isGrouped, fits, Bool.and_eq_true] at h
      obtain ⟨⟨-, hr⟩, -, hprimary⟩ := h
      have hright := ihr hr
      simp [isLike_eq_false hprimary] at hright
      simp [printed, rightEdge, endsInNot, isLike, Connective.isGrouped,
        Connective.level, isInLevel, hright]
    | like ignoreCase =>
      simp [printed, rightEdge, isLike, Connective.isGrouped, Connective.level, isInLevel]
    | _ => simp [printed, rightEdge, endsInNot, isLike, Connective.isGrouped, tight, isInLevel]
  | _ => simp [printed, rightEdge, endsInNot, isLike, tight, isInLevel, notLevel]

theorem notLevel_le_rightEdge (t : ParseTree) : notLevel ≤ t.printed.rightEdge := by
  unfold notLevel
  induction t with
  | binary op l r _ ihr =>
    cases op <;>
      simp [printed, rightEdge, Connective.isGrouped, Connective.level, tight, ihr]
  | _ => simp [printed, rightEdge, tight, notLevel]

theorem isNullLevel_le_leftEdge (t : ParseTree) : isNullLevel ≤ t.printed.leftEdge := by
  unfold isNullLevel
  induction t with
  | binary op l r ihl _ =>
    cases op <;>
      simp [printed, leftEdge, Connective.isGrouped, Connective.level, tight, ihl]
  | isNull negated t ih => simp [printed, leftEdge, isNullLevel, ih]
  | isIn t items ih => simp [printed, leftEdge, isInLevel, ih]
  | _ => simp [printed, leftEdge, tight]

theorem fits_iff {l r : ParseTree} (hl : l.isGrouped = true) (op : Connective) :
    fits l r op = true ↔
      op.threshold ≤ l.printed.rightEdge ∧ op.level < r.printed.leftEdge := by
  have hleft := notLevel_le_rightEdge l
  have hright := isNullLevel_le_leftEdge r
  have hcompare : l.endsInNot = false ↔ Connective.equal.level < l.printed.rightEdge :=
    endsInNot_iff (by decide) (by decide) l
  cases op with
  | or =>
    have hor : 1 ≤ l.printed.rightEdge ∧ 1 < r.printed.leftEdge :=
      ⟨Nat.le_trans (by decide) hleft, Nat.lt_of_lt_of_le (by decide) hright⟩
    exact iff_of_true rfl hor
  | and =>
    have hand : 2 ≤ l.printed.rightEdge ∧ 2 < r.printed.leftEdge :=
      ⟨Nat.le_trans (by decide) hleft, Nat.lt_of_lt_of_le (by decide) hright⟩
    exact iff_of_true rfl hand
  | like ignoreCase =>
    simp only [fits, Bool.and_eq_true, Bool.not_eq_true', endsInNot_isLike_iff hl, isPattern_iff]
    exact Iff.rfl
  | concatenate =>
    simp only [fits, Bool.and_eq_true, Bool.not_eq_true', endsInNot_isLike_iff hl, isPrimary_iff]
    exact Iff.rfl
  | _ =>
    simp only [fits, Bool.and_eq_true, Bool.not_eq_true', hcompare, beginsInNullTest_iff]
    exact Iff.rfl

theorem isGrouped_iff (t : ParseTree) : t.isGrouped = true ↔ t.printed.Levelled := by
  induction t with
  | operand tokens => simp [isGrouped, printed, Levelled]
  | group t ih => exact ih
  | not t ih => simp [isGrouped, printed, Levelled, ih, leftEdge, tight, notLevel]
  | isNull negated t ih =>
    simp only [isGrouped, printed, Levelled, Bool.and_eq_true, Bool.not_eq_true', ih]
    have hends : t.endsInNot = false ↔ isNullLevel < t.printed.rightEdge :=
      endsInNot_iff (by decide) (by decide) t
    rw [hends]
  | isIn t items ih =>
    simp only [isGrouped, printed, Levelled, Bool.and_eq_true, Bool.not_eq_true', and_assoc]
    rw [ih]
    exact and_congr_right fun h => endsInNot_isLike_iff (ih.mpr h)
  | binary op l r ihl ihr =>
    have hprinted : (binary op l r).printed.Levelled ↔
        (binary op l.printed r.printed).Levelled := by
      by_cases h : op.isGrouped <;> simp [printed, h, Levelled]
    rw [hprinted]
    simp only [isGrouped, Levelled, Bool.and_eq_true, and_assoc]
    rw [ihl, ihr]
    exact and_congr_right fun h => and_congr_right fun _ => fits_iff (ihl.mpr h) op

end Tree

-- The symbols of a printed tree are read back with its shape exactly if the
-- tree is grouped.
theorem tree?_printed_iff {t : ParseTree} (h : t.bare = t) :
    (tree? t.printed.flatten).map Tree.bare = some t ↔ t.isGrouped = true := by
  rw [Tree.isGrouped_iff]
  constructor
  · intro hread
    rw [Option.map_eq_some_iff] at hread
    obtain ⟨u, hu, hbare⟩ := hread
    obtain ⟨hlevelled, hflatten⟩ := tree?_eq_some_iff.mp hu
    have hsame : u.bare = t.printed.bare := by rw [Tree.bare_printed, hbare, h]
    rwa [← Tree.eq_of_flatten_of_bare hflatten hsame]
  · intro hlevelled
    rw [tree?_eq_some_iff.mpr ⟨hlevelled, rfl⟩]
    simp [Tree.bare_printed, h]

end EntitySql.Sql
