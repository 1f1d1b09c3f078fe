import EntitySql.Eval
import EntitySql.Proofs.Expr.Nodes
import EntitySql.Proofs.Run
import EntitySql.Proofs.Timestamp.Months

-- Integers in expressions against the integers of arithmetic. An expression over
-- integers spells a formula, and the formula has an exact value. The evaluator
-- finds it as long as every step on the way fits into a word; a step that does
-- not is carried out all the same. Moves by months are exact as long as 64 bits hold
-- the microseconds.

namespace EntitySql

-- What an operation makes of two integers; there is no division by zero.
def Arithmetic.value? (op : Arithmetic) (x y : Int) : Option Int :=
  match op with
  | .add => some (x + y)
  | .subtract => some (x - y)
  | .multiply => some (x * y)
  | .divide => if y = 0 then none else some (x.tdiv y)
  | .modulo => if y = 0 then none else some (x.tmod y)

namespace Eval

inductive Formula where
  | constant (n : Int64)
  | arithmetic (op : Arithmetic) (l r : Formula)
  | negate (f : Formula)
  | absolute (f : Formula)

namespace Formula

def value? : Formula → Option Int
  | .constant n => some n.toInt
  | .arithmetic op l r => do op.value? (← l.value?) (← r.value?)
  | .negate f => f.value?.map fun x => -x
  | .absolute f => f.value?.map fun x => x.natAbs

-- The number that the last step needs room for. A remainder comes out of a
-- division, whose quotient it is then.
def held? : Formula → Option Int
  | .arithmetic .modulo l r => (Formula.arithmetic .divide l r).value?
  | f => f.value?

def fits (f : Formula) : Bool := f.held?.all (Text.inWord 64)

def operands : Formula → List Formula
  | .constant _ => []
  | .arithmetic _ l r => [l, r]
  | .negate f => [f]
  | .absolute f => [f]

def divides : Formula → Bool
  | .arithmetic .divide _ _ => true
  | .arithmetic .modulo _ _ => true
  | _ => false

-- Every step fits.
def contained : Formula → Bool
  | .constant n => fits (.constant n)
  | .arithmetic op l r => l.contained && r.contained && fits (.arithmetic op l r)
  | .negate f => f.contained && fits (.negate f)
  | .absolute f => f.contained && fits (.absolute f)

variable {f l r : Formula} {k : Int}

theorem contained_iff :
    f.contained = true ↔ (∀ g ∈ f.operands, g.contained = true) ∧ f.fits = true := by
  cases f <;> simp [contained, operands, and_assoc]

-- The last step is the only one that does not fit.
structure Overflows (f : Formula) : Prop where
  operands : ∀ g ∈ f.operands, g.contained = true
  last : f.fits = false

theorem overflows_or_operand (h : f.contained = false) :
    f.Overflows ∨ ∃ g ∈ f.operands, g.contained = false := by
  by_cases hoperands : ∀ g ∈ f.operands, g.contained = true
  · have hlast : ¬f.fits = true := fun hfits => by
      rw [contained_iff.mpr ⟨hoperands, hfits⟩] at h
      cases h
    exact .inl ⟨hoperands, (Bool.not_eq_true _).mp hlast⟩
  · simp only [not_forall, Bool.not_eq_true] at hoperands
    obtain ⟨g, hg, h⟩ := hoperands
    exact .inr ⟨g, hg, h⟩

theorem inWord_of_fits (h : f.fits = true) (hk : f.held? = some k) :
    Text.inWord 64 k = true := by
  rwa [fits, hk] at h

theorem value?_arithmetic_eq_some {op : Arithmetic} :
    value? (.arithmetic op l r) = some k ↔
      ∃ x, l.value? = some x ∧ ∃ y, r.value? = some y ∧ op.value? x y = some k := by
  simp only [value?, Option.bind_eq_bind, Option.bind_eq_some_iff]

-- A remainder needs no more room than the divisor.
theorem inWord_tmod {x y : Int} (hzero : y ≠ 0) (hy : Text.inWord 64 y = true) :
    Text.inWord 64 (x.tmod y) = true := by
  have hword := Text.inWord64_iff.mp hy
  have habs : (x.tmod y).natAbs < y.natAbs := by
    rw [Int.natAbs_tmod]
    exact Nat.mod_lt _ (by omega)
  exact Text.inWord64_iff.mpr (by omega)

theorem inWord_of_contained (h : f.contained = true) (hk : f.value? = some k) :
    Text.inWord 64 k = true := by
  induction f generalizing k with
  | arithmetic op l r _ ih =>
    obtain ⟨hoperands, hfits⟩ := contained_iff.mp h
    cases op with
    | modulo =>
      obtain ⟨x, -, y, hy, hk⟩ := value?_arithmetic_eq_some.mp hk
      obtain ⟨hzero, hk⟩ := Option.ite_none_left_eq_some.mp hk
      cases hk
      exact inWord_tmod hzero (ih (hoperands r (by simp [operands])) hy)
    | _ => exact inWord_of_fits hfits hk
  | _ => exact inWord_of_fits (contained_iff.mp h).2 hk

theorem held?_eq_value? (h : f.divides = false) : f.held? = f.value? := by
  cases f with
  | arithmetic op l r => cases op <;> first | rfl | cases h
  | _ => rfl

-- A quotient and a remainder exist together.
theorem exists_value? (h : f.held? = some k) : ∃ k', f.value? = some k' := by
  cases f with
  | arithmetic op l r =>
    cases op with
    | modulo =>
      obtain ⟨x, hx, y, hy, hk⟩ := value?_arithmetic_eq_some.mp h
      obtain ⟨hzero, -⟩ := Option.ite_none_left_eq_some.mp hk
      exact ⟨x.tmod y, value?_arithmetic_eq_some.mpr ⟨x, hx, y, hy, if_neg hzero⟩⟩
    | _ => exact ⟨k, h⟩
  | _ => exact ⟨k, h⟩

end Formula

-- A call in either of its two forms.
inductive IsCall : Expr → Text → Expr → List Expr → Prop
  | call (id : NodeId) (target : Expr) (method : Text) (args : List Expr) :
    IsCall (.call id target method args) method target args
  | static (id : NodeId) (target : Expr) (method : Text) (args : List Expr) :
    IsCall (.staticCall id method (target :: args)) method target args

theorem IsCall.mem_nodes {e target n : Expr} {method : Text} {args : List Expr}
    (h : IsCall e method target args) (hn : n ∈ target.nodes) : n ∈ e.nodes := by
  cases h <;> simp [Expr.nodes, Expr.nodesOf, hn]

-- Expressions of integers and the formulas that they are written for.
inductive Spells : Expr → Formula → Prop
  | constant (id : NodeId) (n : Int64) : Spells (.constant id (.int n)) (.constant n)
  | arithmetic (id : NodeId) (op : Arithmetic) {l r : Expr} {f g : Formula} (hl : Spells l f)
    (hr : Spells r g) : Spells (.binary id (.arithmetic op) l r) (.arithmetic op f g)
  | negate (id : NodeId) {e : Expr} {f : Formula} (h : Spells e f) :
    Spells (.negate id e) (.negate f)
  | absolute {e target : Expr} {f : Formula} (hcall : IsCall e "Abs" target [])
    (h : Spells target f) : Spells e (.absolute f)

-- The expression can be evaluated, and this is the outcome.
def EvaluatesTo (registry : Registry) (s : Scope) (e : Expr) (r : Result Value) : Prop :=
  ∃ read, accessor registry e = .ok read ∧ read s = r

variable {registry : Registry} {s : Scope} {e l r target : Expr} {a b : Result Value}

namespace EvaluatesTo

theorem constant (id : NodeId) (v : Value) : EvaluatesTo registry s (.constant id v) (.ok v) :=
  ⟨_, rfl, rfl⟩

theorem arithmetic (hl : EvaluatesTo registry s l a) (hr : EvaluatesTo registry s r b)
    (id : NodeId) (op : Arithmetic) :
    EvaluatesTo registry s (.binary id (.arithmetic op) l r) (do
      let y ← b
      let x ← a
      Eval.arithmetic op x y (.binary id (.arithmetic op) l r)) := by
  obtain ⟨left, hleft, rfl⟩ := hl
  obtain ⟨right, hright, rfl⟩ := hr
  refine ⟨binaryAccessor (.arithmetic op) left right (.binary id (.arithmetic op) l r), ?_, rfl⟩
  rw [accessor, hleft, hright]
  rfl

theorem negate (h : EvaluatesTo registry s e a) (id : NodeId) :
    EvaluatesTo registry s (.negate id e) (do negated (← a) (.negate id e)) := by
  obtain ⟨operand, hoperand, rfl⟩ := h
  refine ⟨fun s => do negated (← operand s) (.negate id e), ?_, rfl⟩
  rw [accessor, hoperand]
  rfl

theorem arguments {args : List Expr} {values : List Value}
    (h : List.Forall₂ (fun arg v => EvaluatesTo registry s arg (.ok v)) args values) :
    ∃ reads, accessors registry args = .ok reads ∧ collect reads s = .ok values := by
  induction h with
  | nil => exact ⟨[], rfl, rfl⟩
  | cons hfirst _ ih =>
    obtain ⟨read, hread, hv⟩ := hfirst
    obtain ⟨reads, hreads, hvalues⟩ := ih
    refine ⟨read :: reads, ?_, ?_⟩
    · rw [accessors, hread, hreads]
      rfl
    · rw [collect] at hvalues
      rw [collect, List.mapM_cons, hv, hvalues]
      rfl

theorem method {method : Text} {args : List Expr} {values : List Value}
    (hcall : IsCall e method target args) (hmethod : methods.elem method = true)
    (htarget : EvaluatesTo registry s target a)
    (hargs : List.Forall₂ (fun arg v => EvaluatesTo registry s arg (.ok v)) args values) :
    EvaluatesTo registry s e (do applyMethod method (← a) values e) := by
  obtain ⟨read, hread, rfl⟩ := htarget
  obtain ⟨reads, hreads, hvalues⟩ := arguments hargs
  have hanswer : methodAccessor method read reads e s =
      (do applyMethod method (← read s) values e) := by
    unfold methodAccessor
    rw [hvalues]
    rfl
  refine ⟨methodAccessor method read reads e, ?_, hanswer⟩
  cases hcall <;>
  · rw [accessor, if_pos hmethod, hread, hreads]
    rfl

end EvaluatesTo

-- The answer to an exact value: the word that it leaves, or else a division by
-- zero.
def outcome (source : Expr) : Option Int → Result Value
  | some k => .ok (.int (Int64.ofInt k))
  | none => .error (.engine (.divisionByZero source.text))

theorem arithmetic_int (op : Arithmetic) (x y : Int64) (source : Expr) :
    arithmetic op (.int x) (.int y) source = outcome source (op.value? x.toInt y.toInt) := by
  have hzero : y = 0 ↔ y.toInt = 0 := by rw [← Int64.toInt_inj, Int64.toInt_zero]
  have hnumbers : arithmetic op (.int x) (.int y) source = intArithmetic op x y source := by
    cases op <;> rfl
  rw [hnumbers]
  cases op with
  | divide =>
    rw [intArithmetic, Arithmetic.value?]
    by_cases h : y = 0
    · rw [if_pos h, if_pos (hzero.mp h), outcome]
    · rw [if_neg h, if_neg (mt hzero.mpr h), outcome,
        Int64.ofInt_tdiv x.minValue_le_toInt x.toInt_le y.minValue_le_toInt y.toInt_le,
        x.ofInt_toInt, y.ofInt_toInt]
  | modulo =>
    rw [intArithmetic, Arithmetic.value?]
    by_cases h : y = 0
    · rw [if_pos h, if_pos (hzero.mp h), outcome]
    · rw [if_neg h, if_neg (mt hzero.mpr h), outcome,
        Int64.ofInt_tmod x.minValue_le_toInt x.toInt_le y.minValue_le_toInt y.toInt_le,
        x.ofInt_toInt, y.ofInt_toInt]
  | _ =>
    simp only [intArithmetic, Arithmetic.value?, outcome, Int64.ofInt_add, Int64.ofInt_sub,
      Int64.ofInt_mul, Int64.ofInt_toInt]

theorem negated_int (n : Int64) (source : Expr) :
    negated (.int n) source = .ok (.int (Int64.ofInt (-n.toInt))) := by
  rw [Int64.ofInt_neg, n.ofInt_toInt]
  rfl

theorem absolute_int (n : Int64) :
    absolute (.int n) = .ok (.int (Int64.ofInt n.toInt.natAbs)) := by
  have hsign : n < 0 ↔ n.toInt < 0 := by rw [Int64.lt_iff_toInt_lt, Int64.toInt_zero]
  rw [absolute]
  by_cases h : n < 0
  · rw [if_pos h, Int.ofNat_natAbs_of_nonpos (Int.le_of_lt (hsign.mp h)), Int64.ofInt_neg,
      n.ofInt_toInt]
  · rw [if_neg h, Int.natAbs_of_nonneg (Int.not_lt.mp (mt hsign.mpr h)), n.ofInt_toInt]

-- A value of an expression that fits into the word of its answer.
def Fitting (x? : Option Int) : Prop := ∀ k, x? = some k → (Int64.ofInt k).toInt = k

theorem Formula.fitting_of_contained {f : Formula} (h : f.contained = true) : Fitting f.value? :=
  fun _ hk => Text.toInt_ofInt_iff.mpr (inWord_of_contained h hk)

section Outcome

variable {part leftPart rightPart : Expr} {x? y? : Option Int}

-- The right operand comes first, and its failure is the one that is seen.
theorem EvaluatesTo.arithmetic_outcome (hl : EvaluatesTo registry s l (outcome leftPart x?))
    (hr : EvaluatesTo registry s r (outcome rightPart y?)) (hx : Fitting x?) (hy : Fitting y?)
    (id : NodeId) (op : Arithmetic) :
    ∃ part ∈ [.binary id (.arithmetic op) l r, leftPart, rightPart],
      EvaluatesTo registry s (.binary id (.arithmetic op) l r)
        (outcome part (do op.value? (← x?) (← y?))) := by
  have hstep := hl.arithmetic hr id op
  cases y? with
  | none =>
    refine ⟨rightPart, by simp, ?_⟩
    cases x? <;> exact hstep
  | some y =>
    cases x? with
    | none => exact ⟨leftPart, by simp, hstep⟩
    | some x =>
      refine ⟨_, List.mem_cons_self .., ?_⟩
      change EvaluatesTo registry s _
        (Eval.arithmetic op (.int (Int64.ofInt x)) (.int (Int64.ofInt y)) _) at hstep
      rwa [arithmetic_int, hx x rfl, hy y rfl] at hstep

theorem EvaluatesTo.negate_outcome (h : EvaluatesTo registry s e (outcome part x?))
    (hx : Fitting x?) (id : NodeId) :
    EvaluatesTo registry s (.negate id e) (outcome part (x?.map fun x => -x)) := by
  have hstep := h.negate id
  cases x? with
  | none => exact hstep
  | some x =>
    change EvaluatesTo registry s (.negate id e)
      (negated (.int (Int64.ofInt x)) (.negate id e)) at hstep
    rwa [negated_int, hx x rfl] at hstep

theorem EvaluatesTo.absolute_outcome (hcall : IsCall e "Abs" target [])
    (h : EvaluatesTo registry s target (outcome part x?)) (hx : Fitting x?) :
    EvaluatesTo registry s e (outcome part (x?.map fun x => x.natAbs)) := by
  have hstep := EvaluatesTo.method hcall (by decide) h .nil
  cases x? with
  | none => exact hstep
  | some x =>
    change EvaluatesTo registry s e (Eval.absolute (.int (Int64.ofInt x))) at hstep
    rwa [absolute_int, hx x rfl] at hstep

end Outcome

-- If the operands fit, the operation comes out right up to the word that is left
-- of it.
theorem Spells.evaluatesTo {f : Formula} (h : Spells e f)
    (hoperands : ∀ g ∈ f.operands, g.contained = true) :
    ∃ part ∈ e.nodes, EvaluatesTo registry s e (outcome part f.value?) := by
  induction h with
  | constant id n =>
    refine ⟨_, Expr.mem_nodes_self _, ?_⟩
    rw [Formula.value?, outcome, n.ofInt_toInt]
    exact .constant id (.int n)
  | arithmetic id op _ _ ihl ihr =>
    rename_i f g _ _
    have hf : f.contained = true := hoperands f (by simp [Formula.operands])
    have hg : g.contained = true := hoperands g (by simp [Formula.operands])
    obtain ⟨leftPart, hleft, hl⟩ := ihl (Formula.contained_iff.mp hf).1
    obtain ⟨rightPart, hright, hr⟩ := ihr (Formula.contained_iff.mp hg).1
    obtain ⟨part, hpart, heval⟩ := hl.arithmetic_outcome hr (Formula.fitting_of_contained hf)
      (Formula.fitting_of_contained hg) id op
    refine ⟨part, ?_, heval⟩
    simp only [List.mem_cons, List.not_mem_nil, or_false] at hpart
    rcases hpart with rfl | rfl | rfl
    · exact Expr.mem_nodes_self _
    · simp [Expr.nodes, hleft]
    · simp [Expr.nodes, hright]
  | negate id _ ih =>
    have hf := hoperands _ (List.mem_singleton_self _)
    obtain ⟨part, hpart, heval⟩ := ih (Formula.contained_iff.mp hf).1
    exact ⟨part, List.mem_cons_of_mem _ hpart,
      heval.negate_outcome (Formula.fitting_of_contained hf) id⟩
  | absolute hcall _ ih =>
    have hf := hoperands _ (List.mem_singleton_self _)
    obtain ⟨part, hpart, heval⟩ := ih (Formula.contained_iff.mp hf).1
    exact ⟨part, hcall.mem_nodes hpart,
      heval.absolute_outcome hcall (Formula.fitting_of_contained hf)⟩

-- Going down from a step that does not fit, there is one whose operands all do.
theorem Spells.exists_overflows {f : Formula} (h : Spells e f) (hf : f.contained = false) :
    ∃ part ∈ e.nodes, ∃ g, Spells part g ∧ g.Overflows := by
  induction h with
  | constant id n =>
    rcases Formula.overflows_or_operand hf with hself | ⟨g, hg, -⟩
    · exact ⟨_, Expr.mem_nodes_self _, _, .constant id n, hself⟩
    · cases hg
  | arithmetic id op hl hr ihl ihr =>
    rcases Formula.overflows_or_operand hf with hself | ⟨g, hg, hcontained⟩
    · exact ⟨_, Expr.mem_nodes_self _, _, .arithmetic id op hl hr, hself⟩
    · simp only [Formula.operands, List.mem_cons, List.not_mem_nil, or_false] at hg
      rcases hg with rfl | rfl
      · obtain ⟨part, hpart, found⟩ := ihl hcontained
        exact ⟨part, by simp [Expr.nodes, hpart], found⟩
      · obtain ⟨part, hpart, found⟩ := ihr hcontained
        exact ⟨part, by simp [Expr.nodes, hpart], found⟩
  | negate id h ih =>
    rcases Formula.overflows_or_operand hf with hself | ⟨g, hg, hcontained⟩
    · exact ⟨_, Expr.mem_nodes_self _, _, .negate id h, hself⟩
    · cases List.mem_singleton.mp hg
      obtain ⟨part, hpart, found⟩ := ih hcontained
      exact ⟨part, List.mem_cons_of_mem _ hpart, found⟩
  | absolute hcall h ih =>
    rcases Formula.overflows_or_operand hf with hself | ⟨g, hg, hcontained⟩
    · exact ⟨_, Expr.mem_nodes_self _, _, .absolute hcall h, hself⟩
    · cases List.mem_singleton.mp hg
      obtain ⟨part, hpart, found⟩ := ih hcontained
      exact ⟨part, hcall.mem_nodes hpart, found⟩

-- The step that does not fit is not refused. Sums, differences, products and
-- changes of sign leave what is left of the number in a word.
theorem Spells.evaluatesTo_of_overflows {g : Formula} (h : Spells e g) (hg : g.Overflows) :
    ∃ k n, g.held? = some k ∧ Text.inWord 64 k = false ∧
      EvaluatesTo registry s e (.ok (.int n)) ∧ (g.divides = true ∨ n = Int64.ofInt k) := by
  obtain ⟨part, -, heval⟩ : ∃ part ∈ e.nodes, EvaluatesTo registry s e (outcome part g.value?) :=
    h.evaluatesTo hg.operands
  have hlast := hg.last
  cases hk : g.held? with
  | none =>
    rw [Formula.fits, hk] at hlast
    cases hlast
  | some k =>
    rw [Formula.fits, hk] at hlast
    obtain ⟨k', hk'⟩ := Formula.exists_value? hk
    rw [hk'] at heval
    refine ⟨k, Int64.ofInt k', rfl, hlast, heval, ?_⟩
    cases hdivides : g.divides with
    | true => exact .inl rfl
    | false =>
      rw [Formula.held?_eq_value? hdivides, hk'] at hk
      cases hk
      exact .inr rfl

-- The methods that move a timestamp by months, with the months in one of them.
def monthMethods : List (Text × Int) := [("AddMonths", 1), ("AddYears", 12)]

-- The count of months is cut to 32 bits, which makes no difference to the month that
-- the move ends in.
theorem applyMethod_months {method : Text} {months : Int} (h : (method, months) ∈ monthMethods)
    (t : Timestamp) (n : Int64) (source : Expr) :
    applyMethod method (.timestamp t) [.int n] source =
      .ok (.timestamp (t.addMonths (months * n.toInt))) := by
  rw [← Timestamp.addMonths_bmod]
  simp only [monthMethods, List.mem_cons, List.not_mem_nil, or_false, Prod.mk.injEq] at h
  rcases h with ⟨rfl, rfl⟩ | ⟨rfl, rfl⟩
  · have hmonths : n.toInt32.toInt = (1 * n.toInt).bmod 4294967296 := by
      rw [Int.one_mul]
      exact n.toInt_toInt32
    rw [← hmonths]
    rfl
  · have hmonths : (n.toInt32 * 12).toInt = (12 * n.toInt).bmod 4294967296 := by
      rw [Int32.toInt_mul, n.toInt_toInt32, Int.mul_comm 12]
      exact Int.bmod_mul_bmod
    rw [← hmonths]
    rfl

theorem EvaluatesTo.months {method : Text} {months : Int} {amount : Expr} {t : Timestamp}
    {n : Int64} (hmethod : (method, months) ∈ monthMethods)
    (hcall : IsCall e method target [amount])
    (htarget : EvaluatesTo registry s target (.ok (.timestamp t)))
    (hamount : EvaluatesTo registry s amount (.ok (.int n))) :
    EvaluatesTo registry s e (.ok (.timestamp (t.addMonths (months * n.toInt)))) := by
  have hknown : methods.elem method = true := by
    simp only [monthMethods, List.mem_cons, List.not_mem_nil, or_false, Prod.mk.injEq] at hmethod
    rcases hmethod with ⟨rfl, -⟩ | ⟨rfl, -⟩ <;> decide
  have hmoved := EvaluatesTo.method hcall hknown htarget (.cons hamount .nil)
  change EvaluatesTo registry s e (applyMethod method (.timestamp t) [.int n] e) at hmoved
  rwa [applyMethod_months hmethod] at hmoved

-- An expression over integers whose steps all fit has its exact value, or else it
-- divides by zero. If some step does not fit, there is one among its parts that is
-- answered with a number of its own. A move by months always has an answer, and it is the
-- timestamp so many months later exactly if 64 bits hold that one.
theorem exact_within_words (registry : Registry) (s : Scope) :
    (∀ e f, Spells e f → f.contained = true →
      (∃ part ∈ e.nodes, EvaluatesTo registry s e (outcome part f.value?)) ∧
        Fitting f.value?) ∧
    (∀ e f, Spells e f → f.contained = false →
      ∃ part ∈ e.nodes, ∃ g, Spells part g ∧ g.Overflows ∧
        ∃ k n, g.held? = some k ∧ Text.inWord 64 k = false ∧
          EvaluatesTo registry s part (.ok (.int n)) ∧
          (g.divides = true ∨ n = Int64.ofInt k)) ∧
    ∀ e method target amount months t n, (method, months) ∈ monthMethods →
      IsCall e method target [amount] → EvaluatesTo registry s target (.ok (.timestamp t)) →
      EvaluatesTo registry s amount (.ok (.int n)) →
      ∃ moved, EvaluatesTo registry s e (.ok (.timestamp moved)) ∧
        (moved = t.monthsLater (months * n.toInt) ↔
          Text.inWord 64 (t.monthsLater (months * n.toInt)).micros = true) := by
  refine ⟨fun e f h hf => ⟨?_, Formula.fitting_of_contained hf⟩, fun e f h hf => ?_, ?_⟩
  · exact h.evaluatesTo (Formula.contained_iff.mp hf).1
  · obtain ⟨part, hpart, g, hspells, hg⟩ := h.exists_overflows hf
    exact ⟨part, hpart, g, hspells, hg, hspells.evaluatesTo_of_overflows hg⟩
  · intro e method target amount months t n hmethod hcall htarget hamount
    exact ⟨_, .months hmethod hcall htarget hamount, Timestamp.addMonths_eq_monthsLater_iff⟩

-- An absolute value, the greatest integer, divided by the remainder -1 of -7 and 2.
def remainderFormula : Formula :=
  .arithmetic .divide (.absolute (.constant (-9223372036854775807)))
    (.arithmetic .modulo (.constant (-7)) (.constant 2))

def remainderQuotient : Expr :=
  .binary 0 (.arithmetic .divide) (.call 1 (.constant 2 (.int (-9223372036854775807))) "Abs" [])
    (.binary 3 (.arithmetic .modulo) (.constant 4 (.int (-7))) (.constant 5 (.int 2)))

-- The half of one more than the greatest integer.
def pastGreatestFormula : Formula :=
  .arithmetic .divide (.arithmetic .add (.constant 9223372036854775807) (.constant 1))
    (.constant 2)

def pastGreatest : Expr :=
  .binary 0 (.arithmetic .divide)
    (.binary 1 (.arithmetic .add) (.constant 2 (.int 9223372036854775807)) (.constant 3 (.int 1)))
    (.constant 4 (.int 2))

-- The last day of January 2024, and its moves by more months than 64 bits of microseconds
-- have room for, and by those of a whole word of 32 bits and one more.
def lateJanuary : Timestamp := ⟨1706659200000000, false, 0⟩

def movedBy (months : Int64) : Expr :=
  .call 0 (.constant 1 (.timestamp lateJanuary)) "AddMonths" [.constant 2 (.int months)]

theorem exact_within_words_limits :
    Spells remainderQuotient remainderFormula ∧ remainderFormula.contained = true ∧
      EvaluatesTo ⟨[]⟩ { captures := fun _ => .null } remainderQuotient
        (.ok (.int (-9223372036854775807))) ∧
      Spells pastGreatest pastGreatestFormula ∧ pastGreatestFormula.contained = false ∧
      (∃ part ∈ pastGreatest.nodes, ∃ g, Spells part g ∧ g.Overflows ∧
        ∃ k n, g.held? = some k ∧ Text.inWord 64 k = false ∧
          EvaluatesTo ⟨[]⟩ { captures := fun _ => .null } part (.ok (.int n)) ∧
          (g.divides = true ∨ n = Int64.ofInt k)) ∧
      ∀ months ∈ [4000000, 4294967297], ∃ moved,
        EvaluatesTo ⟨[]⟩ { captures := fun _ => .null } (movedBy months)
          (.ok (.timestamp moved)) ∧ moved ≠ lateJanuary.monthsLater months.toInt := by
  have hquotient : Spells remainderQuotient remainderFormula :=
    .arithmetic _ _ (.absolute (.call ..) (.constant ..)) (.arithmetic _ _ (.constant ..)
      (.constant ..))
  have hpast : Spells pastGreatest pastGreatestFormula :=
    .arithmetic _ _ (.arithmetic _ _ (.constant ..) (.constant ..)) (.constant ..)
  have hcontained : remainderFormula.contained = true := by decide
  have hoverflow : pastGreatestFormula.contained = false := by decide
  have hexact := exact_within_words ⟨[]⟩ { captures := fun _ => .null }
  obtain ⟨part, -, heval⟩ := (hexact.1 _ _ hquotient hcontained).1
  refine ⟨hquotient, hcontained, heval, hpast, hoverflow, hexact.2.1 _ _ hpast hoverflow,
    fun months hmonths => ?_⟩
  obtain ⟨moved, hmoved, hexactly⟩ := hexact.2.2 (movedBy months) "AddMonths" _ _ 1 lateJanuary
    months (by decide) (.call ..) (.constant _ _) (.constant _ _)
  rw [Int.one_mul] at hexactly
  refine ⟨moved, hmoved, fun heq => ?_⟩
  have hword := hexactly.mp heq
  simp only [List.mem_cons, List.not_mem_nil, or_false] at hmonths
  rcases hmonths with rfl | rfl
  · cases hword
  · cases hword

end Eval

end EntitySql
