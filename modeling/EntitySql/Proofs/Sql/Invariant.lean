import EntitySql.Proofs.Sql.Simulation

-- What holds of all terms that a compiler makes of an expression: of values,
-- placeholders and members, and of a frame as soon as it holds of the operands.

namespace EntitySql.Sql

namespace Term

theorem withOperands_operands (t : Term) : t.withOperands t.operands = t := by
  cases t <;> rfl

-- The terms that a term is made of, itself among them.
inductive Occurs (t : Term) : Term → Prop where
  | here : Occurs t t
  | inside {u v : Term} (h : v ∈ u.operands) (ht : Occurs t v) : Occurs t u

theorem Occurs.eq_of_operands {t u : Term} (hu : u.operands = []) (h : t.Occurs u) : t = u := by
  cases h with
  | here => rfl
  | inside hv _ =>
    rw [hu] at hv
    cases hv

-- A term that is no frame stands in a frame only below it.
theorem Occurs.exists_operand {t u : Term} (hu : u.IsFrame) (ht : ¬t.IsFrame) (h : t.Occurs u) :
    ∃ v ∈ u.operands, t.Occurs v := by
  cases h with
  | here => exact absurd hu ht
  | inside hv h => exact ⟨_, hv, h⟩

end Term

namespace Compiler

structure Invariant (c : Compiler) (group : GroupColumns) (admits : Expr → Prop)
    (good : Term → Prop) : Prop where
  frame : ∀ {t : Term}, t.IsFrame → (∀ o ∈ t.operands, good o) → good t
  value : ∀ {v l}, literal v = .ok l → good (.value l)
  placeholder : ∀ index, good (.placeholder index)
  groupKey : ∀ column ∈ group.getD [], good (.groupKey column)
  row : ∀ {id owner name p t}, admits (.member id owner name) → owner.rootParameter? = some p →
    p.group = false → c.rowMember p (.member id owner name) owner name = .ok t → good t

namespace Invariant

variable {c : Compiler} {group : GroupColumns} {admits : Expr → Prop} {good : Term → Prop}
variable {P : List Binding → Prop}

-- A step that yields the same once more, and something good.
abbrev Keeps (P : List Binding → Prop) (good : Term → Prop) (x : Step Term) : Prop :=
  Follows Eq P (fun _ t t' => t = t' ∧ good t) x x

theorem keeps_pure {t : Term} (h : good t) : Keeps P good (pure t) :=
  .pure fun _ _ => ⟨rfl, h⟩

variable (h : c.Invariant group admits good)

include h

theorem keeps_placeholder (v : Value) : Keeps P good (Compiler.placeholder v) := by
  rintro s s' t u rfl - ht
  have hpush : Yields (Compiler.placeholder v) s (.placeholder s.bindings.length) (s.push v) := rfl
  obtain ⟨rfl, rfl⟩ := ht.unique hpush
  exact ⟨_, _, hpush, rfl, List.prefix_append _ _, fun _ _ => ⟨rfl, h.placeholder _⟩⟩

theorem keeps_constant (v : Value) : Keeps P good (c.constant v) := by
  unfold constant
  refine .ite (fun _ => keeps_pure (h.frame trivial (by simp [Term.operands]))) fun _ => ?_
  refine .ite (fun _ => keeps_pure (h.frame trivial (by simp [Term.operands]))) fun _ => ?_
  cases c.mode with
  | literal => exact .lift_bind fun l hl => ⟨l, hl, keeps_pure (h.value hl)⟩
  | parameterized => exact h.keeps_placeholder v

theorem good_of_constant {v : Value} {s u : State} {t : Term} (ht : Yields (c.constant v) s t u) :
    good t := by
  obtain ⟨t', u', ht', -, -, hgood⟩ :=
    h.keeps_constant (P := fun _ => True) v s s t u rfl (fun _ _ => trivial) ht
  exact (hgood _ List.prefix_rfl).2

omit h in
theorem follows_extract (c : Compiler) (e : Expr) :
    Follows Eq P (fun _ v v' => v = v') (c.extract e) (c.extract e) :=
  Compiler.follows_extract (fun _ => rfl) (fun hs => by rw [hs]) (fun _ hs => by rw [hs]) e

theorem keeps_search {p p' : Part} (place : Placement) (hsource : p'.source = p.source)
    (hknown : p.source.referencesParameter = false) :
    Follows Eq (fun _ => True) (fun _ t t' => t = t' ∧ good t) (c.searchPattern p place)
      (c.searchPattern p' place) := by
  have hpattern {t : Term} (ht : good t) : good (place.around t) :=
    h.frame trivial (by simpa [Placement.around, Term.operands] using ht)
  unfold searchPattern
  rw [hsource, hknown]
  refine .bind_eq (follows_extract c _) fun v _ => .ite (fun _ => .throw_bind) fun _ => ?_
  refine .lift_bind fun text htext => ⟨text, htext, ?_⟩
  cases c.mode with
  | literal => exact .lift_bind fun l hl => ⟨l, hl, keeps_pure (h.value (v := .string _) hl)⟩
  | parameterized =>
    refine .bind (h.keeps_constant _) fun t t' _ => .pure ?_
    rintro bindings ⟨-, rfl, ht⟩
    exact ⟨rfl, hpattern ht⟩

theorem keeps_member {id : NodeId} {owner : Expr} {name : Text} {p : Parameter} {x y : Step Term}
    (hroot : owner.rootParameter? = some p) (hmember : admits (.member id owner name))
    (hxy : Follows Eq (fun _ => True) (fun _ t t' => t = t' ∧ good t) x y) :
    Follows Eq (fun _ => True) (fun _ t t' => t = t' ∧ good t)
      (c.member group (.member id owner name) owner name x)
      (c.member group (.member id owner name) owner name y) := by
  unfold Compiler.member
  rw [hroot]
  refine .ite (fun _ => .lift fun t ht => ⟨t, ht, fun _ _ => ⟨rfl, ?_⟩⟩) fun hrow => ?_
  · obtain ⟨column, rfl, rfl⟩ := exists_groupKey_of_groupMember ht
    exact h.groupKey column (List.mem_singleton_self column)
  refine .ite (fun _ => ?_) fun _ => .lift fun t ht => ⟨t, ht, fun _ _ => ⟨rfl, ?_⟩⟩
  · refine .bind hxy fun t t' _ => .pure ?_
    rintro bindings ⟨-, rfl, ht⟩
    exact ⟨rfl, h.frame trivial (by simpa [Term.operands] using ht)⟩
  · exact h.row hmember hroot (by simpa using hrow) ht

def simulation : c.Simulation c group group where
  related := Eq
  alike _ t t' := t = t' ∧ good t
  admits := admits
  isNullWord ht := by rw [ht.1]
  frame := by
    intro bindings t operands ht hoperands
    have heq : t.operands = operands :=
      List.forall₂_eq_eq_eq ▸ hoperands.imp fun _ _ h => h.1
    have hgood : ∀ o ∈ t.operands, good o := by
      subst heq
      exact fun o ho => (List.forall₂_same.mp hoperands o ho).2
    rw [← heq, Term.withOperands_operands]
    exact ⟨rfl, h.frame ht hgood⟩
  grouped := Simulation.grouped_self group
  ignoreCase := rfl
  constant := h.keeps_constant
  extract e _ := follows_extract c e
  member := h.keeps_member
  search place _ _ _ hsource hknown := h.keeps_search place hsource hknown
  agrees _ _ := .of_field? (fun _ => rfl) _

theorem good_of_term {e : Expr} (he : ∀ n ∈ e.nodes, admits n) {s u : State} {t : Term}
    (ht : Yields (c.term group e) s t u) : good t := by
  obtain ⟨t', u', ht', -, -, hgood⟩ :=
    h.simulation.simulates_term e he s s t u rfl (fun _ _ => trivial) ht
  exact (hgood _ List.prefix_rfl).2

end Invariant

end Compiler

end EntitySql.Sql
