import EntitySql.Proofs.Run
import EntitySql.Sql.Compiler

-- Runs of one step that follow the runs of another one. Whenever the first
-- succeeds, the second succeeds from every related state, and the results are
-- related by what the second one has bound by then and ever binds on top of it.

namespace EntitySql.Sql.Compiler

variable {α β γ δ ε : Type}

-- What holds of these bindings and of all that they grow to.
def Lasting (P : List Binding → Prop) (bindings : List Binding) : Prop :=
  ∀ final, bindings <+: final → P final

theorem Lasting.grow {P : List Binding → Prop} {bindings more : List Binding}
    (h : Lasting P bindings) (hgrow : bindings <+: more) : Lasting P more :=
  fun final hfinal => h final (hgrow.trans hfinal)

def Follows (I : State → State → Prop) (P : List Binding → Prop)
    (R : List Binding → α → β → Prop) (x : Step α) (y : Step β) : Prop :=
  ∀ s s' a u, I s s' → Lasting P s'.bindings → Yields x s a u →
    ∃ b u', Yields y s' b u' ∧ I u u' ∧ s'.bindings <+: u'.bindings ∧
      Lasting (fun bindings => R bindings a b) u'.bindings

namespace Follows

variable {I : State → State → Prop} {P Q : List Binding → Prop}
variable {R : List Binding → α → β → Prop} {S : List Binding → γ → δ → Prop}
variable {x : Step α} {y : Step β}

-- What follows in all cases follows where something is known.
theorem within (h : Follows I (fun _ => True) R x y) : Follows I P R x y :=
  fun s s' a u hI _ hx => h s s' a u hI (fun _ _ => trivial) hx

theorem weaken (h : Follows I Q R x y) (hweaken : ∀ bindings, P bindings → Q bindings) :
    Follows I P R x y :=
  fun s s' a u hI hP hx => h s s' a u hI (fun final hfinal => hweaken final (hP final hfinal)) hx

theorem imp {R' : List Binding → α → β → Prop} (h : Follows I P R x y)
    (himp : ∀ bindings a b, R bindings a b → R' bindings a b) : Follows I P R' x y := by
  intro s s' a u hI hP hx
  obtain ⟨b, u', hy, hI', hgrow, hR⟩ := h s s' a u hI hP hx
  exact ⟨b, u', hy, hI', hgrow, fun final hfinal => himp final a b (hR final hfinal)⟩

-- What is known is true of some bindings.
theorem of_exists (h : (∃ bindings, P bindings) → Follows I P R x y) : Follows I P R x y :=
  fun s s' a u hI hP hx => h ⟨_, hP _ List.prefix_rfl⟩ s s' a u hI hP hx

-- It is enough to follow runs that succeed.
theorem of_yields (h : (∃ s a u, Yields x s a u) → Follows I P R x y) : Follows I P R x y :=
  fun s s' a u hI hP hx => h ⟨s, a, u, hx⟩ s s' a u hI hP hx

protected theorem pure {a : α} {b : β} (h : ∀ bindings, P bindings → R bindings a b) :
    Follows I P R (pure a) (pure b) := by
  intro s s' a' u hI hP hx
  obtain ⟨rfl, rfl⟩ := Yields.pure_iff.mp hx
  exact ⟨b, s', Yields.pure_iff.mpr ⟨rfl, rfl⟩, hI, List.prefix_rfl,
    fun final hfinal => h final (hP final hfinal)⟩

protected theorem bind {f : α → Step γ} {g : β → Step δ} (hx : Follows I P R x y)
    (hf : ∀ a b, (∃ s u, Yields x s a u) →
      Follows I (fun bindings => P bindings ∧ R bindings a b) S (f a) (g b)) :
    Follows I P S (x >>= f) (y >>= g) := by
  intro s s' c w hI hP hbind
  obtain ⟨a, u, ha, hc⟩ := Yields.bind_iff.mp hbind
  obtain ⟨b, u', hb, hI', hgrow, hR⟩ := hx s s' a u hI hP ha
  have hboth : Lasting (fun bindings => P bindings ∧ R bindings a b) u'.bindings :=
    fun final hfinal => ⟨hP.grow hgrow final hfinal, hR final hfinal⟩
  obtain ⟨d, w', hd, hI'', hgrow', hS⟩ := hf a b ⟨s, u, ha⟩ u u' c w hI' hboth hc
  exact ⟨d, w', Yields.bind_iff.mpr ⟨b, u', hb, hd⟩, hI'', hgrow.trans hgrow', hS⟩

-- Equal results need not be told apart.
theorem bind_eq {y : Step α} {f : α → Step γ} {g : α → Step δ}
    (hx : Follows I P (fun _ a b => a = b) x y)
    (hf : ∀ a, (∃ s u, Yields x s a u) → Follows I P S (f a) (g a)) :
    Follows I P S (x >>= f) (y >>= g) := by
  refine .bind hx fun a b hyields => .of_exists ?_
  rintro ⟨-, -, rfl⟩
  exact (hf a hyields).weaken fun _ h => h.1

protected theorem map {f : α → γ} {g : β → δ} (hx : Follows I P R x y)
    (hf : ∀ bindings a b, R bindings a b → S bindings (f a) (g b)) :
    Follows I P S (f <$> x) (g <$> y) := by
  rw [← bind_pure_comp, ← bind_pure_comp]
  exact .bind hx fun a b _ => .pure fun bindings h => hf bindings a b h.2

theorem lift {r : Result α} {r' : Result β}
    (h : ∀ a, r = .ok a → ∃ b, r' = .ok b ∧ ∀ bindings, P bindings → R bindings a b) :
    Follows I P R (liftM r) (liftM r') := by
  intro s s' a u hI hP hx
  obtain ⟨hr, rfl⟩ := Yields.lift_iff.mp hx
  obtain ⟨b, hr', hR⟩ := h a hr
  exact ⟨b, s', Yields.lift_iff.mpr ⟨hr', rfl⟩, hI, List.prefix_rfl,
    fun final hfinal => hR final (hP final hfinal)⟩

theorem lift_bind {r : Result α} {r' : Result β} {f : α → Step γ} {g : β → Step δ}
    (h : ∀ a, r = .ok a → ∃ b, r' = .ok b ∧ Follows I P S (f a) (g b)) :
    Follows I P S ((liftM r : Step α) >>= f) ((liftM r' : Step β) >>= g) := by
  intro s s' c u hI hP hbind
  obtain ⟨a, hr, hc⟩ := Yields.lift_bind_iff.mp hbind
  obtain ⟨b, hr', hf⟩ := h a hr
  obtain ⟨d, u', hd, hrest⟩ := hf s s' c u hI hP hc
  exact ⟨d, u', Yields.lift_bind_iff.mpr ⟨b, hr', hd⟩, hrest⟩

-- The second step need not fail where the first one does.
theorem lift_bind_left {r : Result α} {f : α → Step γ} {y : Step δ}
    (h : ∀ a, r = .ok a → Follows I P S (f a) y) :
    Follows I P S ((liftM r : Step α) >>= f) y := by
  intro s s' c u hI hP hbind
  obtain ⟨a, hr, hc⟩ := Yields.lift_bind_iff.mp hbind
  exact h a hr s s' c u hI hP hc

-- Both bind the value, each behind what its state has bound.
protected theorem placeholder {R : List Binding → Term → Term → Prop} (v : Value)
    (hpush : ∀ s s', I s s' → I (s.push v) (s'.push v))
    (hR : ∀ s s' bindings, I s s' → s'.bindings.length < bindings.length →
      R bindings (.placeholder s.bindings.length) (.placeholder s'.bindings.length)) :
    Follows I (fun _ => True) R (placeholder v) (placeholder v) := by
  intro s s' t u hI _ ht
  have hyields (s : State) : Yields (placeholder v) s (.placeholder s.bindings.length) (s.push v) :=
    rfl
  obtain ⟨rfl, rfl⟩ := ht.unique (hyields s)
  refine ⟨_, _, hyields s', hpush s s' hI, List.prefix_append _ _, fun final hfinal => ?_⟩
  have hle := hfinal.length_le
  simp only [State.push, List.length_append, List.length_singleton] at hle
  exact hR s s' final hI hle

protected theorem throw {e : Error} : Follows I P R (throw e : Step α) y :=
  fun _ _ _ _ _ _ h => absurd h Yields.throw_iff

theorem throw_bind {e : Error} {f : ε → Step α} : Follows I P R ((throw e : Step ε) >>= f) y := by
  intro s s' a u _ _ h
  obtain ⟨b, v, hb, -⟩ := Yields.bind_iff.mp h
  exact absurd hb Yields.throw_iff

protected theorem ite {c : Prop} [Decidable c] {x' : Step α} {y' : Step β}
    (hthen : c → Follows I P R x y) (helse : ¬c → Follows I P R x' y') :
    Follows I P R (if c then x else x') (if c then y else y') := by
  by_cases h : c
  · rw [if_pos h, if_pos h]
    exact hthen h
  · rw [if_neg h, if_neg h]
    exact helse h

-- Lists of steps, each of which follows the one in its place.
theorem sequence {xs : List (Step α)} {ys : List (Step β)}
    (h : List.Forall₂ (Follows I (fun _ => True) R) xs ys) :
    Follows I P (fun bindings => List.Forall₂ (R bindings)) (xs.mapM id) (ys.mapM id) := by
  induction h generalizing P with
  | nil => exact .pure fun _ _ => .nil
  | cons hx hrest ih =>
    rw [List.mapM_cons, List.mapM_cons]
    refine .bind hx.within fun a b _ => .bind ih fun as bs _ => .pure ?_
    rintro bindings ⟨⟨-, hR⟩, hall⟩
    exact .cons hR hall

protected theorem mapM {f : ε → Step α} {g : ε → Step β} {items : List ε}
    (h : ∀ i ∈ items, Follows I (fun _ => True) R (f i) (g i)) :
    Follows I P (fun bindings => List.Forall₂ (R bindings)) (items.mapM f) (items.mapM g) := by
  induction items generalizing P with
  | nil => exact .pure fun _ _ => .nil
  | cons i rest ih =>
    rw [List.mapM_cons, List.mapM_cons]
    refine .bind (h i (by simp)).within fun a b _ => ?_
    refine .bind (ih fun j hj => h j (List.mem_cons_of_mem i hj)) fun as bs _ => .pure ?_
    rintro bindings ⟨⟨-, hR⟩, hall⟩
    exact .cons hR hall

end Follows

end EntitySql.Sql.Compiler
