import EntitySql.Proofs.Sql.Symbols

-- The operators of SQL read by their precedence: from the tightest ||, then IN
-- and LIKE, the comparisons, IS NULL, NOT, AND and OR. Comparisons and LIKE
-- do not chain, the other operators of two operands associate to the left.

namespace EntitySql.Sql

-- A group is a pair of parentheses.
inductive Tree (α : Type) where
  | operand (a : α)
  | group (t : Tree α)
  | not (t : Tree α)
  | isNull (negated : Bool) (t : Tree α)
  | isIn (t : Tree α) (items : List α)
  | binary (op : Connective) (l r : Tree α)
  deriving DecidableEq

abbrev ParseTree := Tree (List Token)

def Connective.level : Connective → Nat
  | .or => 1
  | .and => 2
  | .equal => 5
  | .notEqual => 5
  | .compare _ => 5
  | .like _ => 6
  | .concatenate => 7

def Connective.chains : Connective → Bool
  | .or => true
  | .and => true
  | .concatenate => true
  | _ => false

-- The least level of the operators that the left operand may end in.
def Connective.threshold (op : Connective) : Nat :=
  if op.chains then op.level else op.level + 1

def notLevel : Nat := 3
def isNullLevel : Nat := 4
def isInLevel : Nat := 6

-- Above every operator.
def tight : Nat := 8

namespace Tree

def flatten : ParseTree → List Symbol
  | .operand tokens => [.operand tokens]
  | .group t => .openGroup :: t.flatten ++ [.closeGroup]
  | .not t => .not :: t.flatten
  | .isNull negated t => t.flatten ++ [.isNull negated]
  | .isIn t items => t.flatten ++ [.isIn items]
  | .binary op l r => l.flatten ++ .connective op :: r.flatten

-- The loosest operator whose left operand begins the tree.
def leftEdge : ParseTree → Nat
  | .isNull _ t => min isNullLevel t.leftEdge
  | .isIn t _ => min isInLevel t.leftEdge
  | .binary op l _ => min op.level l.leftEdge
  | _ => tight

-- The loosest operator whose right operand ends the tree.
def rightEdge : ParseTree → Nat
  | .not t => min notLevel t.rightEdge
  | .binary op _ r => min op.level r.rightEdge
  | _ => tight

-- No operand outside parentheses ends or begins in an operator that is too
-- loose to stand there.
def Levelled : ParseTree → Prop
  | .operand _ => True
  | .group t => t.Levelled
  | .not t => t.Levelled ∧ notLevel < t.leftEdge
  | .isNull _ t => t.Levelled ∧ isNullLevel < t.rightEdge
  | .isIn t _ => t.Levelled ∧ isInLevel < t.rightEdge
  | .binary op l r =>
    l.Levelled ∧ r.Levelled ∧ op.threshold ≤ l.rightEdge ∧ op.level < r.leftEdge

end Tree

namespace Precedence

-- What waits for its right operand, or for the end of its group.
inductive Frame where
  | group
  | not
  | left (op : Connective) (l : ParseTree)

namespace Frame

def level : Frame → Nat
  | .group => 0
  | .not => notLevel
  | .left op _ => op.level

def close : Frame → ParseTree → ParseTree
  | .group, t => .group t
  | .not, t => .not t
  | .left op l, t => .binary op l t

end Frame

-- The level of the operator that would take the next operand.
def top : List Frame → Nat
  | [] => 0
  | f :: _ => f.level

-- The tree becomes the operand of everything that waits and is tight enough.
def reduce (threshold : Nat) : List Frame → ParseTree → List Frame × ParseTree
  | [], t => ([], t)
  | f :: rest, t =>
    if threshold ≤ f.level then reduce threshold rest (f.close t) else (f :: rest, t)

structure Reading where
  stack : List Frame := []
  focus : Option ParseTree := none

-- An operator behind its left operand, unless one that it does not chain with
-- waits for the same operand.
def behind (level threshold : Nat) (stack : List Frame) (t : ParseTree)
    (go : List Frame → ParseTree → Reading) : Option Reading :=
  let (stack, t) := reduce threshold stack t
  if top stack < level then some (go stack t) else none

def step : Reading → Symbol → Option Reading
  | ⟨stack, none⟩, .operand tokens => some ⟨stack, some (.operand tokens)⟩
  | ⟨stack, none⟩, .not => some ⟨.not :: stack, none⟩
  | ⟨stack, none⟩, .openGroup => some ⟨.group :: stack, none⟩
  | ⟨stack, some t⟩, .isNull negated =>
    behind isNullLevel (isNullLevel + 1) stack t fun stack t => ⟨stack, some (.isNull negated t)⟩
  | ⟨stack, some t⟩, .isIn items =>
    behind isInLevel (isInLevel + 1) stack t fun stack t => ⟨stack, some (.isIn t items)⟩
  | ⟨stack, some t⟩, .connective op =>
    behind op.level op.threshold stack t fun stack t => ⟨.left op t :: stack, none⟩
  | ⟨stack, some t⟩, .closeGroup =>
    match reduce 1 stack t with
    | (.group :: rest, t) => some ⟨rest, some (.group t)⟩
    | _ => none
  | _, _ => none

def finish : Reading → Option ParseTree
  | ⟨stack, some t⟩ =>
    match reduce 1 stack t with
    | ([], t) => some t
    | _ => none
  | _ => none

end Precedence

def tree? (symbols : List Symbol) : Option ParseTree := do
  Precedence.finish (← symbols.foldlM Precedence.step {})

def parse? (t : Text) : Option ParseTree := do tree? (← symbols? (← tokens? t))

namespace Connective

variable (op : Connective)

theorem level_pos : 0 < op.level := by cases op <;> simp [level]

theorem level_lt_tight : op.level < tight := by cases op <;> simp [level, tight]

theorem level_le_threshold : op.level ≤ op.threshold := by
  unfold threshold
  by_cases h : op.chains <;> simp [h]

theorem threshold_le_tight : op.threshold ≤ tight := by
  unfold threshold
  have hlevel := op.level_lt_tight
  by_cases h : op.chains
  · rw [if_pos h]
    omega
  · rw [if_neg h]
    omega

theorem threshold_pos : 1 ≤ op.threshold := Nat.le_trans op.level_pos op.level_le_threshold

end Connective

namespace Tree

theorem tight_pos : 0 < tight := by decide

theorem leftEdge_pos (t : ParseTree) : 0 < t.leftEdge := by
  induction t with
  | isNull _ t ih => exact Nat.lt_min.mpr ⟨by decide, ih⟩
  | isIn t _ ih => exact Nat.lt_min.mpr ⟨by decide, ih⟩
  | binary op l _ ih _ => exact Nat.lt_min.mpr ⟨op.level_pos, ih⟩
  | _ => exact tight_pos

theorem rightEdge_pos (t : ParseTree) : 0 < t.rightEdge := by
  induction t with
  | not t ih => exact Nat.lt_min.mpr ⟨by decide, ih⟩
  | binary op _ r _ ih => exact Nat.lt_min.mpr ⟨op.level_pos, ih⟩
  | _ => exact tight_pos

end Tree

namespace Precedence

theorem reduce_eq_self {threshold : Nat} {stack : List Frame} {t : ParseTree}
    (h : top stack < threshold) : reduce threshold stack t = (stack, t) := by
  cases stack with
  | nil => rfl
  | cons f rest => exact if_neg (Nat.not_le.mpr h)

-- A tree is read up to its last operand; the operators on its right edge are
-- still open then.
def openFrames : ParseTree → List Frame
  | .not t => openFrames t ++ [.not]
  | .binary op l r => openFrames r ++ [.left op l]
  | _ => []

def lastOperand : ParseTree → ParseTree
  | .not t => lastOperand t
  | .binary _ _ r => lastOperand r
  | t => t

theorem reduce_openFrames {threshold : Nat} {t : ParseTree} (h : threshold ≤ t.rightEdge)
    (stack : List Frame) :
    reduce threshold (openFrames t ++ stack) (lastOperand t) = reduce threshold stack t := by
  induction t generalizing stack with
  | not t ih =>
    obtain ⟨hnot, ht⟩ := Nat.le_min.mp h
    simp only [openFrames, lastOperand, List.append_assoc, List.singleton_append, ih ht]
    exact if_pos hnot
  | binary op l r _ ih =>
    obtain ⟨hop, hr⟩ := Nat.le_min.mp h
    simp only [openFrames, lastOperand, List.append_assoc, List.singleton_append, ih hr]
    exact if_pos hop
  | _ => rfl

-- An operator that a complete tree may be the left operand of takes exactly
-- this tree.
theorem behind_openFrames {level threshold : Nat} {t : ParseTree} {stack : List Frame}
    (hle : level ≤ threshold) (hright : threshold ≤ t.rightEdge) (htop : top stack < level)
    (go : List Frame → ParseTree → Reading) :
    behind level threshold (openFrames t ++ stack) (lastOperand t) go = some (go stack t) := by
  unfold behind
  rw [reduce_openFrames hright, reduce_eq_self (Nat.lt_of_lt_of_le htop hle)]
  exact if_pos htop

theorem foldlM_flatten {t : ParseTree} (h : t.Levelled) (stack : List Frame)
    (htop : top stack < t.leftEdge) :
    t.flatten.foldlM step ⟨stack, none⟩ =
      some ⟨openFrames t ++ stack, some (lastOperand t)⟩ := by
  induction t generalizing stack with
  | operand tokens => rfl
  | group t ih =>
    have hinside := ih h (.group :: stack) t.leftEdge_pos
    have hright : 1 ≤ t.rightEdge := t.rightEdge_pos
    have hreduce := reduce_openFrames hright (.group :: stack)
    rw [reduce_eq_self (t := t) Nat.zero_lt_one] at hreduce
    simp [Tree.flatten, step, hinside, hreduce, openFrames, lastOperand]
  | not t ih =>
    obtain ⟨ht, hlevel⟩ := h
    have hoperand := ih ht (.not :: stack) hlevel
    simp [Tree.flatten, step, hoperand, openFrames, lastOperand]
  | isNull negated t ih =>
    obtain ⟨ht, hlevel⟩ := h
    obtain ⟨hnull, htop⟩ := Nat.lt_min.mp htop
    simp [Tree.flatten, step, ih ht stack htop, behind_openFrames (Nat.le_succ _) hlevel hnull,
      openFrames, lastOperand]
  | isIn t items ih =>
    obtain ⟨ht, hlevel⟩ := h
    obtain ⟨hin, htop⟩ := Nat.lt_min.mp htop
    simp [Tree.flatten, step, ih ht stack htop, behind_openFrames (Nat.le_succ _) hlevel hin,
      openFrames, lastOperand]
  | binary op l r ihl ihr =>
    obtain ⟨hl, hr, hleft, hright⟩ := h
    obtain ⟨hop, htop⟩ := Nat.lt_min.mp htop
    have hoperand := ihr hr (.left op l :: stack) hright
    simp [Tree.flatten, step, ihl hl stack htop,
      behind_openFrames op.level_le_threshold hleft hop, hoperand, openFrames, lastOperand]

theorem tree?_flatten {t : ParseTree} (h : t.Levelled) : tree? t.flatten = some t := by
  have hread := foldlM_flatten h [] t.leftEdge_pos
  have hright : 1 ≤ t.rightEdge := t.rightEdge_pos
  have hreduce := reduce_openFrames hright []
  rw [List.append_nil] at hread hreduce
  simp [tree?, hread, finish, hreduce, reduce]

-- What has been read into frames.
def Frame.symbols : Frame → List Symbol
  | .group => [.openGroup]
  | .not => [.not]
  | .left op l => l.flatten ++ [.connective op]

def symbols : List Frame → List Symbol
  | [] => []
  | f :: rest => symbols rest ++ f.symbols

-- A left operand is finished and tight enough for its operator, and the two
-- together are tight enough for the frame below.
def Frame.Fits (below : Nat) : Frame → Prop
  | .left op l => l.Levelled ∧ op.threshold ≤ l.rightEdge ∧ below < min op.level l.leftEdge
  | _ => True

def Stacked : List Frame → Prop
  | [] => True
  | f :: rest => f.Fits (top rest) ∧ Stacked rest

-- A tree above frames that may become the left operand of an operator with
-- the threshold.
structure Focused (threshold : Nat) (stack : List Frame) (t : ParseTree) : Prop where
  stacked : Stacked stack
  levelled : t.Levelled
  left : top stack < t.leftEdge
  right : threshold ≤ t.rightEdge

theorem top_lt_tight (stack : List Frame) : top stack < tight := by
  cases stack with
  | nil => exact Tree.tight_pos
  | cons f rest =>
    cases f with
    | group => exact Tree.tight_pos
    | not => exact show notLevel < tight by decide
    | left op l => exact op.level_lt_tight

-- Closing a frame keeps the focus fit and loses no symbol.
theorem Focused.close {threshold : Nat} {f : Frame} {rest : List Frame} {t : ParseTree}
    (h : Focused threshold (f :: rest) t) (hpos : 1 ≤ threshold) (hlevel : threshold ≤ f.level) :
    Focused threshold rest (f.close t) ∧
      symbols rest ++ (f.close t).flatten = symbols (f :: rest) ++ t.flatten := by
  obtain ⟨⟨hfits, hstacked⟩, hlevelled, hleft, hright⟩ := h
  cases f with
  | group => exact absurd (Nat.le_trans hpos hlevel) (by decide)
  | not =>
    refine ⟨⟨hstacked, ⟨hlevelled, hleft⟩, top_lt_tight rest, ?_⟩, ?_⟩
    · exact Nat.le_min.mpr ⟨hlevel, hright⟩
    · simp [symbols, Frame.symbols, Frame.close, Tree.flatten]
  | left op l =>
    obtain ⟨hl, hthreshold, hbelow⟩ := hfits
    refine ⟨⟨hstacked, ⟨hl, hlevelled, hthreshold, hleft⟩, hbelow, ?_⟩, ?_⟩
    · exact Nat.le_min.mpr ⟨hlevel, hright⟩
    · simp [symbols, Frame.symbols, Frame.close, Tree.flatten]

theorem Focused.reduce {threshold : Nat} {stack stack' : List Frame} {t t' : ParseTree}
    (h : Focused threshold stack t) (hpos : 1 ≤ threshold)
    (hreduce : Precedence.reduce threshold stack t = (stack', t')) :
    Focused threshold stack' t' ∧ symbols stack' ++ t'.flatten = symbols stack ++ t.flatten := by
  induction stack generalizing t with
  | nil =>
    cases hreduce
    exact ⟨h, rfl⟩
  | cons f rest ih =>
    unfold Precedence.reduce at hreduce
    by_cases hlevel : threshold ≤ f.level
    · rw [if_pos hlevel] at hreduce
      obtain ⟨hclosed, hsymbols⟩ := h.close hpos hlevel
      obtain ⟨hfocused, hrest⟩ := ih hclosed hreduce
      exact ⟨hfocused, hrest.trans hsymbols⟩
    · rw [if_neg hlevel] at hreduce
      cases hreduce
      exact ⟨h, rfl⟩

-- What the symbols that are read so far have become. A tree between two steps
-- ends in an operand, a parenthesis or an operator behind its operand.
structure Reading.Holds (read : List Symbol) (s : Reading) : Prop where
  stacked : Stacked s.stack
  focused : ∀ t, s.focus = some t → Focused tight s.stack t
  eq : read = symbols s.stack ++ ((s.focus.map Tree.flatten).getD [])

theorem behind_eq_some {level threshold : Nat} {stack : List Frame} {t : ParseTree}
    {go : List Frame → ParseTree → Reading} {s : Reading} (h : Focused tight stack t)
    (hpos : 1 ≤ threshold) (hthreshold : threshold ≤ tight)
    (hbehind : behind level threshold stack t go = some s) :
    ∃ stack' t', s = go stack' t' ∧ Focused threshold stack' t' ∧ top stack' < level ∧
      symbols stack' ++ t'.flatten = symbols stack ++ t.flatten := by
  have hfocused : Focused threshold stack t :=
    ⟨h.stacked, h.levelled, h.left, Nat.le_trans hthreshold h.right⟩
  unfold behind at hbehind
  cases hreduce : reduce threshold stack t with
  | mk stack' t' =>
    simp only [hreduce] at hbehind
    by_cases htop : top stack' < level
    · rw [if_pos htop] at hbehind
      cases hbehind
      obtain ⟨hreduced, hsymbols⟩ := hfocused.reduce hpos hreduce
      exact ⟨stack', t', rfl, hreduced, htop, hsymbols⟩
    · rw [if_neg htop] at hbehind
      cases hbehind

-- The right edge of a tree is tight behind an operand, a parenthesis and an
-- operator that stands behind its operand.
theorem Focused.done {stack : List Frame} {t : ParseTree} (hstacked : Stacked stack)
    (hlevelled : t.Levelled) (hleft : top stack < t.leftEdge) (hright : t.rightEdge = tight) :
    ∀ u, some t = some u → Focused tight stack u := by
  rintro u ⟨⟩
  exact ⟨hstacked, hlevelled, hleft, Nat.le_of_eq hright.symm⟩

theorem Reading.Holds.begin {read : List Symbol} {stack : List Frame}
    (h : Reading.Holds read ⟨stack, none⟩) {a : Symbol} {s' : Reading}
    (hstep : step ⟨stack, none⟩ a = some s') : Reading.Holds (read ++ [a]) s' := by
  obtain ⟨hstacked, -, rfl⟩ := h
  cases a with
  | operand tokens =>
    cases hstep
    exact ⟨hstacked, Focused.done hstacked trivial (top_lt_tight stack) rfl,
      by simp [Tree.flatten]⟩
  | not =>
    cases hstep
    exact ⟨⟨trivial, hstacked⟩, fun _ => nofun, by simp [symbols, Frame.symbols]⟩
  | openGroup =>
    cases hstep
    exact ⟨⟨trivial, hstacked⟩, fun _ => nofun, by simp [symbols, Frame.symbols]⟩
  | _ => cases hstep

theorem Reading.Holds.continue {read : List Symbol} {stack : List Frame} {t : ParseTree}
    (h : Reading.Holds read ⟨stack, some t⟩) {a : Symbol} {s' : Reading}
    (hstep : step ⟨stack, some t⟩ a = some s') : Reading.Holds (read ++ [a]) s' := by
  obtain ⟨hstacked, hfocused, rfl⟩ := h
  have hfocus : Focused tight stack t := hfocused t rfl
  cases a with
  | isNull negated =>
    simp only [step] at hstep
    obtain ⟨stack', t', rfl, hreduced, htop, hsymbols⟩ :=
      behind_eq_some hfocus (by decide) (by decide) hstep
    refine ⟨hreduced.stacked, Focused.done hreduced.stacked
      ⟨hreduced.levelled, hreduced.right⟩ (Nat.lt_min.mpr ⟨htop, hreduced.left⟩) rfl, ?_⟩
    simp [Tree.flatten, ← hsymbols]
  | isIn items =>
    simp only [step] at hstep
    obtain ⟨stack', t', rfl, hreduced, htop, hsymbols⟩ :=
      behind_eq_some hfocus (by decide) (by decide) hstep
    refine ⟨hreduced.stacked, Focused.done hreduced.stacked
      ⟨hreduced.levelled, hreduced.right⟩ (Nat.lt_min.mpr ⟨htop, hreduced.left⟩) rfl, ?_⟩
    simp [Tree.flatten, ← hsymbols]
  | connective op =>
    simp only [step] at hstep
    obtain ⟨stack', t', rfl, hreduced, htop, hsymbols⟩ :=
      behind_eq_some hfocus op.threshold_pos op.threshold_le_tight hstep
    refine ⟨⟨⟨hreduced.levelled, hreduced.right, Nat.lt_min.mpr ⟨htop, hreduced.left⟩⟩,
      hreduced.stacked⟩, fun _ => nofun, ?_⟩
    simp [symbols, Frame.symbols, ← hsymbols]
  | closeGroup =>
    have hfocus' : Focused 1 stack t := ⟨hstacked, hfocus.levelled, hfocus.left,
      Nat.le_trans (by decide) hfocus.right⟩
    cases hreduce : reduce 1 stack t with
    | mk stack' t' =>
      obtain ⟨hreduced, hsymbols⟩ := hfocus'.reduce (Nat.le_refl 1) hreduce
      simp only [step, hreduce] at hstep
      cases stack' with
      | nil => cases hstep
      | cons f rest =>
        cases f with
        | group =>
          cases hstep
          refine ⟨hreduced.stacked.2, Focused.done hreduced.stacked.2 hreduced.levelled
            (top_lt_tight rest) rfl, ?_⟩
          simp only [symbols, Frame.symbols, List.append_assoc] at hsymbols
          simp [Tree.flatten, ← hsymbols]
        | _ => cases hstep
  | _ => cases hstep

theorem Reading.Holds.step {read : List Symbol} {s s' : Reading} (h : s.Holds read) {a : Symbol}
    (hstep : Precedence.step s a = some s') : s'.Holds (read ++ [a]) := by
  obtain ⟨stack, focus⟩ := s
  cases focus with
  | none => exact h.begin hstep
  | some t => exact h.continue hstep

theorem Reading.Holds.foldlM {read more : List Symbol} {s s' : Reading} (h : s.Holds read)
    (hrun : more.foldlM Precedence.step s = some s') : s'.Holds (read ++ more) := by
  induction more generalizing read s with
  | nil =>
    cases hrun
    rwa [List.append_nil]
  | cons a rest ih =>
    rw [List.foldlM_cons, Option.bind_eq_bind, Option.bind_eq_some_iff] at hrun
    obtain ⟨s₁, hstep, hrest⟩ := hrun
    have hread := ih (h.step hstep) hrest
    rwa [List.append_assoc] at hread

end Precedence

-- The reader finds the only tree over the symbols that keeps to the levels.
theorem tree?_eq_some_iff {symbols : List Symbol} {t : ParseTree} :
    tree? symbols = some t ↔ t.Levelled ∧ t.flatten = symbols := by
  constructor
  · intro h
    rw [tree?, Option.bind_eq_bind, Option.bind_eq_some_iff] at h
    obtain ⟨⟨stack, focus⟩, hrun, hfinish⟩ := h
    have hstart : Precedence.Reading.Holds [] {} := ⟨trivial, fun _ => nofun, rfl⟩
    obtain ⟨hstacked, hfocused, rfl⟩ := hstart.foldlM hrun
    cases focus with
    | none => cases hfinish
    | some u =>
      have hfocus := hfocused u rfl
      have hfocus' : Precedence.Focused 1 stack u := ⟨hstacked, hfocus.levelled, hfocus.left,
        Nat.le_trans (by decide) hfocus.right⟩
      cases hreduce : Precedence.reduce 1 stack u with
      | mk stack' u' =>
        obtain ⟨hreduced, hsymbols⟩ := hfocus'.reduce (Nat.le_refl 1) hreduce
        simp only [Precedence.finish, hreduce] at hfinish
        cases stack' with
        | nil =>
          cases hfinish
          exact ⟨hreduced.levelled, by simpa [Precedence.symbols] using hsymbols⟩
        | cons f rest => cases hfinish
  · rintro ⟨hlevelled, rfl⟩
    exact Precedence.tree?_flatten hlevelled

example : parse? "NOT (\"flag\") IS NULL" =
    some (.not (.isNull false (.group (.operand [.name "flag"])))) := by
  decide +kernel

end EntitySql.Sql
