import EntitySql.Proofs.Run
import EntitySql.Query.Registration
import EntitySql.Schema.Catalogue

-- What a call leaves of a plan when it fails. A registration looks at the plan
-- and at its arguments first, and makes its one change when nothing can fail
-- any more; ordering anew makes a change before it looks.

namespace EntitySql.Query

-- A step that never changes the plan.
def Looks {α : Type} (x : Builder α) : Prop := ∀ p, (x.run.run p).run.2 = p

-- A step that changes the plan only if it succeeds.
def Guarded {α : Type} (x : Builder α) : Prop := ∀ p e q, Fails x p e q → q = p

namespace Looks

variable {α β : Type} {x : Builder α} {p q : Plan} {a : α}

theorem eq_of_yields (h : Looks x) (ha : Yields x p a q) : q = p := by
  rw [← h p, ha]

theorem guarded (h : Looks x) : Guarded x := by
  intro p e q hfails
  rw [← h p, hfails]

theorem pure (a : α) : Looks (Pure.pure a) := fun _ => rfl

theorem throw (e : Error) : Looks (throwThe Error e : Builder α) := fun _ => rfl

theorem lift (r : Result α) : Looks (liftM r : Builder α) := by
  intro p
  cases r <;> rfl

theorem get_bind {f : Plan → Builder α} (h : ∀ p, Looks (f p)) : Looks (get >>= f) :=
  fun p => h p p

theorem refuseIf (wrong : Bool) (fault : ContractFault) : Looks (Builder.refuseIf wrong fault) := by
  intro p
  cases wrong <;> rfl

theorem requireUncombined (clause : Clause) : Looks (Builder.requireUncombined clause) :=
  .get_bind fun _ => .refuseIf _ _

theorem require (what : Requirement) (a : Option α) : Looks (Builder.require what a) := by
  intro p
  cases a <;> rfl

theorem requireText (what : Requirement) (sql : Text) : Looks (Builder.requireText what sql) :=
  .refuseIf _ _

theorem check (fault : Option ContractFault) : Looks (Builder.check fault) := by
  intro p
  cases fault <;> rfl

end Looks

namespace Guarded

variable {α β : Type} {x : Builder α}

theorem modify (f : Plan → Plan) : Guarded (modify f : Builder Unit) :=
  fun _ _ _ h => absurd h Fails.not_modify

-- A look ahead of what is guarded.
theorem bind {f : α → Builder β} (hx : Looks x) (hf : ∀ a, Guarded (f a)) :
    Guarded (x >>= f) := by
  intro p e q h
  rcases Fails.bind_iff.mp h with h | ⟨a, u, ha, h⟩
  · exact hx.guarded p e q h
  · rw [hf a u e q h, hx.eq_of_yields ha]

theorem get_bind {f : Plan → Builder α} (h : ∀ p, Guarded (f p)) : Guarded (get >>= f) :=
  fun p => h p p

theorem ite {c : Prop} [Decidable c] {y : Builder α} (hx : Guarded x) (hy : Guarded y) :
    Guarded (if c then x else y) := by
  by_cases hc : c
  · rwa [if_pos hc]
  · rwa [if_neg hc]

theorem addInclude (path : Text) : Guarded (Builder.addInclude path) :=
  .bind (.requireUncombined _) fun _ => .get_bind fun _ => .bind (.refuseIf _ _) fun _ =>
    .get_bind fun _ => .bind (.lift _) fun _ => .bind (.check _) fun _ =>
      .get_bind fun _ => .ite (Looks.pure _).guarded (.modify _)

end Guarded

theorem Registration.guarded (r : Registration) : Guarded r.run := by
  cases r with
  | filter predicate =>
    exact .bind (.requireUncombined _) fun _ => .bind (.require _ _) fun _ => .modify _
  | filterRaw sql values =>
    exact .bind (.requireUncombined _) fun _ => .bind (.requireText _ _) fun _ => .modify _
  | filterIn column values negated => exact .bind (.requireUncombined _) fun _ => .modify _
  | filterInQuery column query negated =>
    exact .bind (.requireUncombined _) fun _ => .bind (.require _ _) fun _ => .modify _
  | filterInRaw column sql negated =>
    exact .bind (.requireUncombined _) fun _ => .bind (.requireText _ _) fun _ => .modify _
  | filterExists query negated =>
    exact .bind (.requireUncombined _) fun _ => .bind (.require _ _) fun _ => .modify _
  | order selector ascending => exact .bind (.require _ _) fun _ => .modify _
  | clearOrder => exact .modify _
  | groupBy key =>
    exact .bind (.requireUncombined _) fun _ => .bind (.require _ _) fun _ => .modify _
  | having predicate =>
    exact .bind (.requireUncombined _) fun _ => .bind (.require _ _) fun _ =>
      .get_bind fun _ => .bind (.refuseIf _ _) fun _ => .modify _
  | addInclude path => exact .addInclude path
  | thenInclude segment =>
    refine .get_bind fun p => ?_
    cases p.clauses.includes.getLast? with
    | none => exact (Looks.throw _).guarded
    | some path => exact .addInclude _
  | declare table => exact .bind (.check _) fun _ => .modify _
  | addWindow w => exact .modify _
  | addCase c => exact .bind (.refuseIf _ _) fun _ => .modify _
  | combine operator other => exact .bind (.require _ _) fun _ => .modify _
  | combineRaw operator sql => exact .bind (.requireText _ _) fun _ => .modify _
  | joinRaw sql => exact .bind (.requireText _ _) fun _ => .modify _
  | selectRaw sql => exact .get_bind fun _ => .bind (.refuseIf _ _) fun _ => .modify _
  | fromRaw sql => exact .modify _
  | setDistinct distinct => exact .modify _
  | limit n => exact .bind (.refuseIf _ _) fun _ => .modify _
  | offset n => exact .bind (.refuseIf _ _) fun _ => .modify _

namespace Call

variable {c : Call} {p q : Plan} {e : Error}

-- The call forgets the orders before it looks at its argument.
def OrdersAnew (c : Call) : Prop := ∃ selector ascending, c = .orderBy selector ascending

def unordered (p : Plan) : Plan := p.change fun clauses => { clauses with orders := [] }

theorem guarded_register (r : Registration) : Guarded (register r).run := by
  intro p e q h
  rcases Fails.bind_iff.mp h with h | ⟨_, _, -, h⟩
  · exact r.guarded p e q h
  · exact absurd h Fails.not_get

theorem guarded_groupBy (key : Option Expr) : Guarded (groupBy key).run :=
  .get_bind fun _ => (Looks.lift _).guarded

theorem eq_unordered_of_fails {selector : Option Expr} {ascending : Bool}
    (h : Fails (orderBy selector ascending).run p e q) : q = unordered p := by
  cases selector with
  | none =>
    cases h
    rfl
  | some e => cases h

theorem unordered_eq_iff : unordered p = p ↔ p.clauses.orders = [] := by
  constructor
  · intro h
    rw [← h]
    rfl
  · intro h
    obtain ⟨⟨⟩, _, _⟩ := p
    cases h
    rfl

-- A call that fails leaves the plan that it found, unless it forgets orders.
theorem keeps_plan_iff_of_fails (h : Fails c.run p e q) :
    (q = p ↔ (c.OrdersAnew → p.clauses.orders = [])) ∧ (c.OrdersAnew → q = unordered p) := by
  cases c with
  | register r =>
    have hnot : ¬(register r).OrdersAnew := by rintro ⟨_, _, hc⟩; cases hc
    exact ⟨iff_of_true (guarded_register r p e q h) (absurd · hnot), (absurd · hnot)⟩
  | orderBy selector ascending =>
    have hq := eq_unordered_of_fails h
    have hanew : (orderBy selector ascending).OrdersAnew := ⟨selector, ascending, rfl⟩
    exact ⟨by rw [hq, unordered_eq_iff, forall_prop_of_true hanew], fun _ => hq⟩
  | groupBy key =>
    have hnot : ¬(groupBy key).OrdersAnew := by rintro ⟨_, _, hc⟩; cases hc
    exact ⟨iff_of_true (guarded_groupBy key p e q h) (absurd · hnot), (absurd · hnot)⟩

def orderedPosts : Plan where
  clauses :=
    { root := Catalogue.postEntity
      orders := [⟨.member 1 (.parameter 0 ⟨"p", Catalogue.post, false⟩) "Id", true⟩] }

theorem keeps_plan_iff_of_fails_orderedPosts :
    ∃ e q, Fails (orderBy none true).run orderedPosts e q ∧ q ≠ orderedPosts ∧
      q.clauses.orders = [] := by
  obtain ⟨e, q, h⟩ : ∃ e q, Fails (orderBy none true).run orderedPosts e q := ⟨_, _, rfl⟩
  obtain ⟨hiff, hq⟩ := keeps_plan_iff_of_fails h
  have hanew : (orderBy none true).OrdersAnew := ⟨none, true, rfl⟩
  refine ⟨e, q, h, fun heq => ?_, by rw [hq hanew]; rfl⟩
  cases hiff.mp heq hanew

end Call

end EntitySql.Query
