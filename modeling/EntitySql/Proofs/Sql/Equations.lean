import EntitySql.Proofs.Sql.Membership

-- Comparisons of two sides. One is compiled from the terms of its sides and
-- becomes a null test when one of them is NULL. The method looks at its argument
-- alone, and a search in an array column at neither side.

namespace EntitySql

-- Two sides that are compared, by an operator or by the method of the left one.
structure Equation where
  negated : Bool
  byMethod : Bool
  left : Expr
  right : Expr

namespace Expr

def equation? : Expr → Option Equation
  | .binary _ .equal l r => some ⟨false, false, l, r⟩
  | .binary _ .notEqual l r => some ⟨true, false, l, r⟩
  | .call _ target method (arg :: _) =>
    if method == "Equals" then some ⟨false, true, target, arg⟩ else none
  | _ => none

end Expr

def Equation.operator (q : Equation) : Sql.Operator := if q.negated then .notEqual else .equal

-- What is written for a comparison of the two terms.
inductive Equation.Renders (q : Equation) (l r : Sql.Term) : Sql.Term → Prop
  | nullRight (hr : r.isNullWord = true) : q.Renders l r (.isNull l q.negated)
  | nullLeft (hr : r.isNullWord = false) (hl : l.isNullWord = true) (hq : q.byMethod = false) :
    q.Renders l r (.isNull r q.negated)
  | nullReceiver (hr : r.isNullWord = false) (hl : l.isNullWord = true) (hq : q.byMethod = true) :
    q.Renders l r (.operation q.operator l r)
  | values (hr : r.isNullWord = false) (hl : l.isNullWord = false) :
    q.Renders l r (.operation q.operator l r)

namespace Sql

namespace Term

-- Whether NULL stands beside an equality sign.
def comparesNull : Term → Bool
  | .operation .equal l r => l.isNullWord || r.isNullWord
  | .operation .notEqual l r => l.isNullWord || r.isNullWord
  | .isElement item items => item.isNullWord || items.isNullWord
  | _ => false

theorem comparesNull_operation (q : Equation) (l r : Term) :
    (Term.operation q.operator l r).comparesNull = (l.isNullWord || r.isNullWord) := by
  unfold Equation.operator
  cases q.negated <;> rfl

end Term

namespace Compiler

variable {c : Compiler} {group : GroupColumns} {s s' : State} {t : Term}

-- What is known is NULL exactly if its value is null.
theorem isNullWord_of_isFolded {e : Expr} (h : e.isFolded = true)
    (ht : Yields (c.term group e) s t s') :
    ∃ v u, Yields (c.extract e) s v u ∧ t.isNullWord = v.isNull := by
  obtain ⟨v, u, hv, ht⟩ := yields_constant_of_isFolded h ht
  refine ⟨v, u, hv, ?_⟩
  unfold constant at ht
  simp only [Yields.ite_iff] at ht
  rcases ht with ⟨hnull, ht⟩ | ⟨hvalue, ⟨-, ht⟩ | ⟨-, ht⟩⟩
  · rw [(Yields.pure_iff.mp ht).1, hnull]
    rfl
  · rw [(Yields.pure_iff.mp ht).1, eq_false_of_ne_true hvalue]
    rfl
  · rw [eq_false_of_ne_true hvalue]
    cases hmode : c.mode with
    | literal =>
      rw [hmode] at ht
      obtain ⟨text, -, hpure⟩ := Yields.lift_bind_iff.mp ht
      rw [(Yields.pure_iff.mp hpure).1]
      rfl
    | parameterized =>
      rw [hmode] at ht
      have hpush : Yields (placeholder v) u (.placeholder u.bindings.length) (u.push v) := rfl
      rw [(ht.unique hpush).1]
      rfl

theorem renders_equality (l r : Term) (negated : Bool) (left right : Expr) :
    Equation.Renders ⟨negated, false, left, right⟩ l r (equality negated l r) := by
  unfold equality
  cases hr : r.isNullWord with
  | true => exact .nullRight hr
  | false =>
    cases hl : l.isNullWord with
    | true => exact .nullLeft hr hl rfl
    | false => exact .values hr hl

theorem renders_of_call {grouped : Bool} {source left right : Expr} {rest : List Expr}
    (h : Yields (c.call grouped source "Equals"
      (some ⟨left, c.term group left, c.elements group left⟩) (c.parts group (right :: rest)))
      s t s') :
    ∃ l u r, Yields (c.term group left) s l u ∧ Yields (c.term group right) u r s' ∧
      Equation.Renders ⟨false, true, left, right⟩ l r t := by
  have haggregate : (("Equals" : Text) == "Count" || (aggregate? "Equals").isSome) = false := by
    decide
  have hcontains : (("Equals" : Text) == "Contains") = false := by decide
  have hstart : (("Equals" : Text) == "StartsWith") = false := by decide
  have hfinish : (("Equals" : Text) == "EndsWith") = false := by decide
  unfold call targetCall scalarCall at h
  rw [haggregate, hcontains, hstart, hfinish] at h
  obtain ⟨l, u, hl, h⟩ := Yields.bind_iff.mp h
  obtain ⟨p, hp, h⟩ := Yields.lift_bind_iff.mp h
  cases hp
  obtain ⟨r, u', hr, h⟩ := Yields.bind_iff.mp h
  refine ⟨l, u, r, hl, ?_⟩
  cases hnull : r.isNullWord with
  | true =>
    rw [hnull] at h
    obtain ⟨rfl, rfl⟩ := Yields.pure_iff.mp h
    exact ⟨hr, .nullRight hnull⟩
  | false =>
    rw [hnull] at h
    obtain ⟨rfl, rfl⟩ := Yields.pure_iff.mp h
    refine ⟨hr, ?_⟩
    cases hleft : l.isNullWord with
    | true => exact .nullReceiver hnull hleft rfl
    | false => exact .values hnull hleft

-- A comparison that reads the row is compiled from its sides, left to right.
theorem renders_of_equation? {n : Expr} {q : Equation} (hn : n.equation? = some q)
    (href : n.referencesParameter = true) (h : Yields (c.term group n) s t s') :
    ∃ l u r, Yields (c.term group q.left) s l u ∧ Yields (c.term group q.right) u r s' ∧
      q.Renders l r t := by
  have hbinary {id : NodeId} {op : BinaryOp} {l r : Expr} (negated : Bool)
      (href : (Expr.binary id op l r).referencesParameter = true)
      (hop : ∀ left right : Part, c.binary op left right = do
        let l ← left.term
        let r ← right.term
        return equality negated l r)
      (h : Yields (c.term group (.binary id op l r)) s t s') :
      ∃ lt u rt, Yields (c.term group l) s lt u ∧ Yields (c.term group r) u rt s' ∧
        Equation.Renders ⟨negated, false, l, r⟩ lt rt t := by
    rw [term, known, if_pos href, hop] at h
    obtain ⟨lt, u, hl, h⟩ := Yields.bind_iff.mp h
    obtain ⟨rt, u', hr, h⟩ := Yields.bind_iff.mp h
    obtain ⟨rfl, rfl⟩ := Yields.pure_iff.mp h
    exact ⟨lt, u, rt, hl, hr, renders_equality lt rt negated l r⟩
  unfold Expr.equation? at hn
  split at hn
  · cases hn
    exact hbinary false href (fun _ _ => rfl) h
  · cases hn
    exact hbinary true href (fun _ _ => rfl) h
  · split at hn
    · next hmethod =>
      cases hn
      rw [eq_of_beq hmethod] at href h
      rw [term, known, if_pos href] at h
      exact renders_of_call h
    · cases hn
  · cases hn

-- An array column is no NULL.
theorem isNullWord_of_field? {e : Expr} (hread : e.referencesParameter = true)
    (hfield : (c.field? e).map Field.type = some .array) (h : Yields (c.term group e) s t s') :
    t.isNullWord = false := by
  cases e with
  | member id owner name =>
    rw [term, known, if_pos hread] at h
    unfold member at h
    cases hroot : owner.rootParameter? with
    | none => simp [field?, hroot] at hfield
    | some p =>
      rw [hroot] at h
      cases hgroup : p.group with
      | true => simp [field?, hroot, hgroup] at hfield
      | false =>
        simp only [hgroup, Bool.false_eq_true, if_false, Yields.ite_iff] at h
        rcases h with ⟨-, h⟩ | ⟨-, h⟩
        · obtain ⟨o, u, -, hpure⟩ := Yields.bind_iff.mp h
          rw [(Yields.pure_iff.mp hpure).1]
          rfl
        · obtain ⟨hrow, -⟩ := Yields.lift_iff.mp h
          obtain ⟨table, column, rfl⟩ := exists_column_of_rowMember hrow
          rfl
  | _ => simp [field?] at hfield

-- What is compiled with NULL beside an equality sign: the method on a NULL, and
-- the search for NULL in an array column.
inductive ComparesNull (c : Compiler) (group : GroupColumns) (n : Expr) (s : State) : Prop
  | receiver {q : Equation} {l r : Term} {u v : State} (hn : n.equation? = some q)
    (hq : q.byMethod = true) (href : n.referencesParameter = true)
    (hleft : Yields (c.term group q.left) s l u) (hl : l.isNullWord = true)
    (hright : Yields (c.term group q.right) u r v) (hr : r.isNullWord = false)
  | element {collection item : Expr} {i : Term} {u : State}
    (hn : n.membership? = some (collection, item)) (href : collection.referencesParameter = true)
    (hfield : (c.field? collection).map Field.type = some .array)
    (hitem : Yields (c.term group item) s i u) (hi : i.isNullWord = true)

theorem referencesParameter_of_membership? {n collection item : Expr}
    (hn : n.membership? = some (collection, item))
    (href : collection.referencesParameter = true) : n.referencesParameter = true := by
  unfold Expr.membership? at hn
  split at hn
  · split at hn
    · cases hn
      simp [Expr.referencesParameter, href]
    · cases hn
  · split at hn
    · cases hn
      simp [Expr.referencesParameter, Expr.anyReferencesParameter, href]
    · cases hn
  · cases hn

-- The membership test of an array column.
theorem yields_element {n collection item : Expr} (hn : n.membership? = some (collection, item))
    (href : collection.referencesParameter = true)
    (hfield : (c.field? collection).map Field.type = some .array)
    (h : Yields (c.term group n) s t s') : ∃ i u items, Yields (c.term group item) s i u ∧
      Yields (c.term group collection) u items s' ∧ t = .isElement i items := by
  have hcontains := yields_contains_of_membership? hn (referencesParameter_of_membership? hn href) h
  unfold contains at hcontains
  rw [if_pos href, hfield] at hcontains
  obtain ⟨i, u, hitem, h⟩ := Yields.bind_iff.mp hcontains
  obtain ⟨items, u', hitems, h⟩ := Yields.bind_iff.mp h
  obtain ⟨rfl, rfl⟩ := Yields.pure_iff.mp h
  exact ⟨i, u, items, hitem, hitems, rfl⟩

theorem ComparesNull.comparesNull {n : Expr} (h : c.ComparesNull group n s)
    (hrun : Yields (c.term group n) s t s') : t.comparesNull = true := by
  cases h with
  | receiver hn hq href hleft hl hright hr =>
    obtain ⟨l', u', r', hleft', hright', hrenders⟩ := renders_of_equation? hn href hrun
    obtain ⟨rfl, rfl⟩ := hleft.unique hleft'
    obtain ⟨rfl, rfl⟩ := hright.unique hright'
    cases hrenders with
    | nullRight hr' => simp [hr] at hr'
    | nullLeft _ _ hq' => simp [hq] at hq'
    | nullReceiver => simp [Term.comparesNull_operation, hl]
    | values _ hl' => simp [hl] at hl'
  | element hn href hfield hitem hi =>
    obtain ⟨i', u', items, hitem', -, rfl⟩ := yields_element hn href hfield hrun
    obtain ⟨rfl, -⟩ := hitem.unique hitem'
    simp [Term.comparesNull, hi]

end Compiler

end Sql

end EntitySql
