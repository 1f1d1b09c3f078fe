import EntitySql.Eval
import EntitySql.Proofs.Run

-- An expression without parameters has one value for all rows: the captured
-- variables decide it.

namespace EntitySql.Eval

variable {registry : Registry}

def IsKnown (read : Accessor) : Prop :=
  ∀ row row' : Scope, row.captures = row'.captures → read row = read row'

-- Only a parameter leads to entities.
theorem path?_of_known {e : Expr} (h : e.referencesParameter = false) :
    path? registry e = .ok none := by
  induction e using Expr.rootParameter?.induct with
  | case1 id p => cases h
  | case2 id owner name ih =>
    rw [Expr.referencesParameter] at h
    rw [path?, ih h]
    rfl
  | case3 e hparameter hmember => rw [path?.eq_3 registry e hparameter hmember]

-- What is made of known parts.

theorem IsKnown.binary {l r : Accessor} (hl : IsKnown l) (hr : IsKnown r) (op : BinaryOp)
    (source : Expr) : IsKnown (binaryAccessor op l r source) := by
  intro row row' h
  unfold binaryAccessor
  rw [hl row row' h, hr row row' h]

theorem collect_of_known {items : List Accessor} (h : ∀ read ∈ items, IsKnown read)
    {row row' : Scope} (hrow : row.captures = row'.captures) :
    collect items row = collect items row' := by
  induction items with
  | nil => rfl
  | cons read rest ih =>
    obtain ⟨hread, hrest⟩ := List.forall_mem_cons.mp h
    unfold collect at ih ⊢
    rw [List.mapM_cons, List.mapM_cons, hread row row' hrow, ih hrest]

theorem IsKnown.method {target : Accessor} {args : List Accessor} (htarget : IsKnown target)
    (hargs : ∀ read ∈ args, IsKnown read) (method : Text) (source : Expr) :
    IsKnown (methodAccessor method target args source) := by
  intro row row' h
  unfold methodAccessor
  rw [htarget row row' h, collect_of_known hargs h]

theorem IsKnown.bind {read : Accessor} (h : IsKnown read) (f : Value → Result Value) :
    IsKnown fun row => read row >>= f := by
  intro row row' hrow
  dsimp only
  rw [h row row' hrow]

mutual

-- By the recursion of the accessors.
theorem isKnown_accessor (e : Expr) (h : e.referencesParameter = false) {read : Accessor}
    (hread : accessor registry e = .ok read) : IsKnown read := by
  cases e with
  | constant id v =>
    cases hread
    exact fun _ _ _ => rfl
  | captured id name slot =>
    cases hread
    intro row row' hrow
    dsimp only
    rw [hrow]
  | member id owner name =>
    rw [Expr.referencesParameter] at h
    rw [accessor, path?_of_known h] at hread
    change (accessor registry owner >>= _) = _ at hread
    obtain ⟨object, hobject, hread⟩ := Result.bind_eq_ok.mp hread
    cases hread
    exact (isKnown_accessor owner h hobject).bind _
  | binary id op l r =>
    rw [Expr.referencesParameter, Bool.or_eq_false_iff] at h
    obtain ⟨left, hl, hread⟩ := Result.bind_eq_ok.mp hread
    obtain ⟨right, hr, hread⟩ := Result.bind_eq_ok.mp hread
    cases hread
    exact (isKnown_accessor l h.1 hl).binary (isKnown_accessor r h.2 hr) op _
  | not id e =>
    rw [Expr.referencesParameter] at h
    obtain ⟨operand, hoperand, hread⟩ := Result.bind_eq_ok.mp hread
    cases hread
    exact (isKnown_accessor e h hoperand).bind _
  | negate id e =>
    rw [Expr.referencesParameter] at h
    obtain ⟨operand, hoperand, hread⟩ := Result.bind_eq_ok.mp hread
    cases hread
    exact (isKnown_accessor e h hoperand).bind _
  | convert id e type =>
    rw [Expr.referencesParameter] at h
    obtain ⟨operand, hoperand, hread⟩ := Result.bind_eq_ok.mp hread
    have hknown := isKnown_accessor e h hoperand
    cases type with
    | none =>
      cases hread
      exact hknown
    | some type =>
      cases hread
      exact hknown.bind _
  | conditional id test a b =>
    rw [Expr.referencesParameter, Bool.or_eq_false_iff, Bool.or_eq_false_iff] at h
    obtain ⟨⟨htest, ha⟩, hb⟩ := h
    obtain ⟨readTest, hreadTest, hread⟩ := Result.bind_eq_ok.mp hread
    obtain ⟨readA, hreadA, hread⟩ := Result.bind_eq_ok.mp hread
    obtain ⟨readB, hreadB, hread⟩ := Result.bind_eq_ok.mp hread
    cases hread
    intro row row' hrow
    dsimp only
    rw [isKnown_accessor test htest hreadTest row row' hrow,
      isKnown_accessor a ha hreadA row row' hrow, isKnown_accessor b hb hreadB row row' hrow]
  | array id items =>
    rw [Expr.referencesParameter] at h
    obtain ⟨reads, hreads, hread⟩ := Result.bind_eq_ok.mp hread
    cases hread
    intro row row' hrow
    dsimp only
    rw [collect_of_known (isKnown_accessors items h hreads) hrow]
  | call id target method args =>
    rw [Expr.referencesParameter, Bool.or_eq_false_iff] at h
    rw [accessor] at hread
    split at hread
    · obtain ⟨t, ht, hread⟩ := Result.bind_eq_ok.mp hread
      obtain ⟨rest, hrest, hread⟩ := Result.bind_eq_ok.mp hread
      cases hread
      exact (isKnown_accessor target h.1 ht).method (isKnown_accessors args h.2 hrest) method _
    · cases hread
  | staticCall id method args =>
    rw [Expr.referencesParameter] at h
    cases args with
    | nil =>
      rw [accessor] at hread
      split at hread <;> cases hread
    | cons target others =>
      rw [Expr.anyReferencesParameter, Bool.or_eq_false_iff] at h
      rw [accessor] at hread
      split at hread
      · obtain ⟨t, ht, hread⟩ := Result.bind_eq_ok.mp hread
        obtain ⟨rest, hrest, hread⟩ := Result.bind_eq_ok.mp hread
        cases hread
        exact (isKnown_accessor target h.1 ht).method (isKnown_accessors others h.2 hrest) method _
      · cases hread
  | parameter id p => cases h
  | initializer id entity bindings => cases hread
  | lambda id p b => cases h
termination_by sizeOf e

theorem isKnown_accessors (items : List Expr) (h : Expr.anyReferencesParameter items = false)
    {reads : List Accessor} (hreads : accessors registry items = .ok reads) :
    ∀ read ∈ reads, IsKnown read := by
  cases items with
  | nil =>
    cases hreads
    simp
  | cons e rest =>
    rw [Expr.anyReferencesParameter, Bool.or_eq_false_iff] at h
    obtain ⟨first, hfirst, hreads⟩ := Result.bind_eq_ok.mp hreads
    obtain ⟨others, hothers, hreads⟩ := Result.bind_eq_ok.mp hreads
    cases hreads
    exact List.forall_mem_cons.mpr
      ⟨isKnown_accessor e h.1 hfirst, isKnown_accessors rest h.2 hothers⟩
termination_by sizeOf items

end

end EntitySql.Eval
