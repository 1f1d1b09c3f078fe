import EntitySql.Error
import Mathlib.Data.List.Forall2

-- Runs of steps that fail or change a state. A run that succeeds is a
-- relation between the states and the result, and one that fails between the
-- states and the error; every combinator of steps has one equivalence that
-- takes its runs apart.

namespace EntitySql

variable {σ α β : Type}

theorem Result.bind_eq_ok {x : Result α} {f : α → Result β} {b : β} :
    (x >>= f) = .ok b ↔ ∃ a, x = .ok a ∧ f a = .ok b := by
  cases x with
  | error e =>
    constructor
    · intro h
      cases h
    · rintro ⟨a, h, -⟩
      cases h
  | ok a =>
    constructor
    · intro h
      exact ⟨a, rfl, h⟩
    · rintro ⟨a', h, hf⟩
      cases h
      exact hf

-- The error of a result that is none.
def Result.error? : Result α → Option Error
  | .ok _ => none
  | .error e => some e

theorem Result.forall_of_mapM {f : β → Result α} {P : α → Prop} {items : List β}
    {results : List α} (hstep : ∀ b ∈ items, ∀ a, f b = .ok a → P a)
    (h : items.mapM f = .ok results) : ∀ a ∈ results, P a := by
  induction items generalizing results with
  | nil =>
    cases h
    simp
  | cons b rest ih =>
    rw [List.mapM_cons, Result.bind_eq_ok] at h
    obtain ⟨a, ha, h⟩ := h
    obtain ⟨more, hmore, h⟩ := Result.bind_eq_ok.mp h
    cases h
    exact List.forall_mem_cons.mpr
      ⟨hstep b (by simp) a ha, ih (fun d hd => hstep d (List.mem_cons_of_mem b hd)) hmore⟩

theorem Result.length_of_mapM {f : β → Result α} {items : List β} {results : List α}
    (h : items.mapM f = .ok results) : results.length = items.length := by
  induction items generalizing results with
  | nil =>
    cases h
    rfl
  | cons b rest ih =>
    rw [List.mapM_cons, Result.bind_eq_ok] at h
    obtain ⟨a, -, h⟩ := h
    obtain ⟨more, hmore, h⟩ := Result.bind_eq_ok.mp h
    cases h
    rw [List.length_cons, List.length_cons, ih hmore]

-- The step succeeds from the first state with the result and leaves the
-- second state.
def Yields (x : ExceptT Error (StateM σ) α) (s : σ) (a : α) (t : σ) : Prop :=
  (x.run.run s).run = (.ok a, t)

namespace Yields

variable {x : ExceptT Error (StateM σ) α} {s t u : σ} {a b : α}

theorem unique (h : Yields x s a t) (h' : Yields x s b u) : a = b ∧ t = u := by
  have hpair : ((.ok a, t) : Except Error α × σ) = (.ok b, u) := h.symm.trans h'
  cases hpair
  exact ⟨rfl, rfl⟩

-- For a run that can be carried out, of which only the result is known.
theorem of_toOption (h : (x.run.run s).run.1.toOption = some a) :
    Yields x s a (x.run.run s).run.2 := by
  refine Prod.ext ?_ rfl
  cases hresult : (x.run.run s).run.1 with
  | error e =>
    rw [hresult] at h
    cases h
  | ok b =>
    rw [hresult] at h
    cases h
    rfl

@[simp] theorem pure_iff : Yields (pure a : ExceptT Error (StateM σ) α) s b t ↔ b = a ∧ t = s := by
  constructor
  · intro h
    cases h
    exact ⟨rfl, rfl⟩
  · rintro ⟨rfl, rfl⟩
    rfl

theorem run_bind (f : α → ExceptT Error (StateM σ) β) :
    ((x >>= f).run.run s).run = match (x.run.run s).run with
      | (.ok a, u) => ((f a).run.run u).run
      | (.error e, u) => (.error e, u) := by
  simp only [bind, ExceptT.bind, ExceptT.run, ExceptT.mk, StateT.bind, StateT.run, Id.run]
  cases x s with
  | mk r u => cases r <;> rfl

@[simp] theorem bind_iff {f : α → ExceptT Error (StateM σ) β} {b : β} :
    Yields (x >>= f) s b t ↔ ∃ a u, Yields x s a u ∧ Yields (f a) u b t := by
  unfold Yields
  rw [run_bind]
  constructor
  · intro h
    cases hx : (x.run.run s).run with
    | mk r u =>
      rw [hx] at h
      cases r with
      | error e => cases h
      | ok a => exact ⟨a, u, rfl, h⟩
  · rintro ⟨a, u, hx, hf⟩
    rw [hx]
    exact hf

@[simp] theorem map_iff {f : α → β} {b : β} :
    Yields (f <$> x) s b t ↔ ∃ a, Yields x s a t ∧ b = f a := by
  rw [← bind_pure_comp, bind_iff]
  simp only [pure_iff]
  constructor
  · rintro ⟨a, u, hx, rfl, rfl⟩
    exact ⟨a, hx, rfl⟩
  · rintro ⟨a, hx, rfl⟩
    exact ⟨a, t, hx, rfl, rfl⟩

@[simp] theorem throw_iff {e : Error} :
    ¬Yields (throw e : ExceptT Error (StateM σ) α) s a t := by
  intro h
  cases h

@[simp] theorem get_iff {b : σ} :
    Yields (get : ExceptT Error (StateM σ) σ) s b t ↔ b = s ∧ t = s := by
  constructor
  · intro h
    cases h
    exact ⟨rfl, rfl⟩
  · rintro ⟨rfl, rfl⟩
    rfl

theorem get_bind_iff {f : σ → ExceptT Error (StateM σ) β} {b : β} :
    Yields (get >>= f) s b t ↔ Yields (f s) s b t := by
  rw [bind_iff]
  constructor
  · rintro ⟨a, u, hget, hf⟩
    obtain ⟨rfl, rfl⟩ := get_iff.mp hget
    exact hf
  · intro hf
    exact ⟨s, s, get_iff.mpr ⟨rfl, rfl⟩, hf⟩

@[simp] theorem set_iff {new : σ} {b : PUnit} :
    Yields (set new : ExceptT Error (StateM σ) PUnit) s b t ↔ t = new := by
  constructor
  · intro h
    cases h
    rfl
  · rintro rfl
    rfl

@[simp] theorem modify_iff {f : σ → σ} {b : PUnit} :
    Yields (modify f : ExceptT Error (StateM σ) PUnit) s b t ↔ t = f s := by
  constructor
  · intro h
    cases h
    rfl
  · rintro rfl
    rfl

-- A computation that knows no state leaves it alone.
@[simp] theorem lift_iff {r : Result α} :
    Yields (liftM r : ExceptT Error (StateM σ) α) s a t ↔ r = .ok a ∧ t = s := by
  constructor
  · intro h
    cases r with
    | error e => cases h
    | ok b =>
      cases h
      exact ⟨rfl, rfl⟩
  · rintro ⟨rfl, rfl⟩
    rfl

theorem modify_bind_iff {g : σ → σ} {f : PUnit → ExceptT Error (StateM σ) β} {b : β} :
    Yields (modify g >>= f) s b t ↔ Yields (f ⟨⟩) (g s) b t := by
  rw [bind_iff]
  constructor
  · rintro ⟨a, u, hmodify, hf⟩
    rw [modify_iff.mp hmodify] at hf
    exact hf
  · intro hf
    exact ⟨⟨⟩, g s, modify_iff.mpr rfl, hf⟩

theorem lift_bind_iff {r : Result α} {f : α → ExceptT Error (StateM σ) β} {b : β} :
    Yields ((liftM r : ExceptT Error (StateM σ) α) >>= f) s b t ↔
      ∃ a, r = .ok a ∧ Yields (f a) s b t := by
  rw [bind_iff]
  constructor
  · rintro ⟨a, u, hlift, hf⟩
    obtain ⟨hr, rfl⟩ := lift_iff.mp hlift
    exact ⟨a, hr, hf⟩
  · rintro ⟨a, hr, hf⟩
    exact ⟨a, s, lift_iff.mpr ⟨hr, rfl⟩, hf⟩

@[simp] theorem ite_iff {c : Prop} [Decidable c] {y : ExceptT Error (StateM σ) α} :
    Yields (if c then x else y) s a t ↔ (c ∧ Yields x s a t) ∨ (¬c ∧ Yields y s a t) := by
  by_cases hc : c <;> simp [hc]

-- A check before a step.
theorem guard_iff {c : Prop} [Decidable c] {e : Error} {f : β → ExceptT Error (StateM σ) α}
    {y : ExceptT Error (StateM σ) α} :
    Yields (if c then throw e >>= f else y) s a t ↔ ¬c ∧ Yields y s a t := by
  by_cases hc : c <;> simp [hc]

-- What every step yields holds of all results of a list of steps, as long as
-- the steps keep what they rely on.
theorem forall₂_of_mapM_keeping {f : β → ExceptT Error (StateM σ) α} {R : β → α → Prop}
    {I : σ → Prop} {items : List β} {results : List α}
    (hstep : ∀ b ∈ items, ∀ s a t, I s → Yields (f b) s a t → R b a ∧ I t) (hs : I s)
    (h : Yields (items.mapM f) s results t) : List.Forall₂ R items results ∧ I t := by
  induction items generalizing s results with
  | nil =>
    obtain ⟨rfl, rfl⟩ := pure_iff.mp h
    exact ⟨.nil, hs⟩
  | cons b rest ih =>
    rw [List.mapM_cons] at h
    obtain ⟨a, u, ha, h⟩ := bind_iff.mp h
    obtain ⟨more, u', hmore, h⟩ := bind_iff.mp h
    obtain ⟨rfl, rfl⟩ := pure_iff.mp h
    obtain ⟨hfirst, hu⟩ := hstep b (List.mem_cons_self ..) s a u hs ha
    obtain ⟨hrest, ht⟩ := ih (fun d hd => hstep d (List.mem_cons_of_mem b hd)) hu hmore
    exact ⟨.cons hfirst hrest, ht⟩

theorem forall₂_of_mapM {f : β → ExceptT Error (StateM σ) α} {R : β → α → Prop} {items : List β}
    {results : List α} (hstep : ∀ b ∈ items, ∀ s a t, Yields (f b) s a t → R b a)
    (h : Yields (items.mapM f) s results t) : List.Forall₂ R items results :=
  (forall₂_of_mapM_keeping (I := fun _ => True)
    (fun b hb s a t _ ha => ⟨hstep b hb s a t ha, trivial⟩) trivial h).1

theorem forall_of_mapM {f : β → ExceptT Error (StateM σ) α} {P : α → Prop} {items : List β}
    {results : List α} (hstep : ∀ b ∈ items, ∀ s a t, Yields (f b) s a t → P a)
    (h : Yields (items.mapM f) s results t) : ∀ a ∈ results, P a := by
  have hall := forall₂_of_mapM (R := fun _ a => P a) hstep h
  clear h hstep
  induction hall with
  | nil => simp
  | cons ha _ ih => exact List.forall_mem_cons.mpr ⟨ha, ih⟩

end Yields

-- The step fails from the first state with the error and leaves the second
-- state.
def Fails {σ α : Type} (x : ExceptT Error (StateM σ) α) (s : σ) (e : Error) (t : σ) : Prop :=
  (x.run.run s).run = (.error e, t)

namespace Fails

variable {x : ExceptT Error (StateM σ) α} {s t : σ} {e : Error}

theorem not_modify {f : σ → σ} : ¬Fails (modify f : ExceptT Error (StateM σ) PUnit) s e t := by
  intro h
  cases h

theorem not_get : ¬Fails (get : ExceptT Error (StateM σ) σ) s e t := by
  intro h
  cases h

theorem throw_iff {e' : Error} :
    Fails (throw e' : ExceptT Error (StateM σ) α) s e t ↔ e' = e ∧ t = s := by
  constructor
  · intro h
    cases h
    exact ⟨rfl, rfl⟩
  · rintro ⟨rfl, rfl⟩
    rfl

-- What fails is the first step, or the second one behind it.
theorem bind_iff {f : α → ExceptT Error (StateM σ) β} :
    Fails (x >>= f) s e t ↔ Fails x s e t ∨ ∃ a u, Yields x s a u ∧ Fails (f a) u e t := by
  unfold Fails Yields
  rw [Yields.run_bind]
  cases hx : (x.run.run s).run with
  | mk r u =>
    cases r with
    | error e' => simp
    | ok a => simp

end Fails

-- The step fails from the state with the fault or, where there is none,
-- succeeds with a result and a state that meet a condition.
def Ends (x : ExceptT Error (StateM σ) α) (s : σ) (fault : Option Error) (P : α → σ → Prop) : Prop :=
  match fault with
  | none => ∃ a t, Yields x s a t ∧ P a t
  | some e => ∃ t, Fails x s e t

namespace Ends

variable {x : ExceptT Error (StateM σ) α} {s : σ} {fault fault' : Option Error}
  {P : α → σ → Prop} {Q : β → σ → Prop}

theorem yields_iff (h : Ends x s fault P) : (∃ a t, Yields x s a t) ↔ fault = none := by
  cases fault with
  | none =>
    obtain ⟨a, t, hyields, -⟩ := h
    exact ⟨fun _ => rfl, fun _ => ⟨a, t, hyields⟩⟩
  | some e =>
    obtain ⟨t, hfails⟩ := h
    refine ⟨?_, by simp⟩
    rintro ⟨a, u, hyields⟩
    cases hfails.symm.trans hyields

theorem fails_iff (h : Ends x s fault P) (e : Error) : (∃ t, Fails x s e t) ↔ fault = some e := by
  cases fault with
  | none =>
    obtain ⟨a, t, hyields, -⟩ := h
    refine ⟨?_, by simp⟩
    rintro ⟨u, hfails⟩
    cases hyields.symm.trans hfails
  | some e' =>
    obtain ⟨t, hfails⟩ := h
    constructor
    · rintro ⟨u, hfails'⟩
      cases hfails.symm.trans hfails'
      rfl
    · intro heq
      cases heq
      exact ⟨t, hfails⟩

protected theorem pure {a : α} (h : P a s) : Ends (pure a) s none P :=
  ⟨a, s, Yields.pure_iff.mpr ⟨rfl, rfl⟩, h⟩

protected theorem throw (e : Error) : Ends (throw e : ExceptT Error (StateM σ) α) s (some e) P :=
  ⟨s, Fails.throw_iff.mpr ⟨rfl, rfl⟩⟩

protected theorem lift {r : Result α} (h : ∀ a, r = .ok a → P a s) :
    Ends (liftM r : ExceptT Error (StateM σ) α) s r.error? P := by
  cases r with
  | ok a => exact ⟨a, s, rfl, h a rfl⟩
  | error e => exact ⟨s, rfl⟩

protected theorem modify {f : σ → σ} {P : PUnit → σ → Prop} (h : P ⟨⟩ (f s)) :
    Ends (modify f) s none P :=
  ⟨⟨⟩, f s, Yields.modify_iff.mpr rfl, h⟩

-- The second step counts only where the first one has no fault.
protected theorem bind {f : α → ExceptT Error (StateM σ) β} (hx : Ends x s fault P)
    (hf : fault = none → ∀ a t, P a t → Ends (f a) t fault' Q) :
    Ends (x >>= f) s (fault.or fault') Q := by
  cases fault with
  | some e =>
    obtain ⟨t, hfails⟩ := hx
    exact ⟨t, Fails.bind_iff.mpr (.inl hfails)⟩
  | none =>
    obtain ⟨a, u, hyields, hP⟩ := hx
    have hrest := hf rfl a u hP
    rw [Option.none_or]
    cases fault' with
    | none =>
      obtain ⟨b, t, hf, hQ⟩ := hrest
      exact ⟨b, t, Yields.bind_iff.mpr ⟨a, u, hyields, hf⟩, hQ⟩
    | some e =>
      obtain ⟨t, hf⟩ := hrest
      exact ⟨t, Fails.bind_iff.mpr (.inr ⟨a, u, hyields, hf⟩)⟩

-- A step without a fault in front.
theorem then_bind {f : α → ExceptT Error (StateM σ) β} (hx : Ends x s none P)
    (hf : ∀ a t, P a t → Ends (f a) t fault Q) : Ends (x >>= f) s fault Q := by
  have h := hx.bind fun _ => hf
  rwa [Option.none_or] at h

-- And one with nothing behind it but its result.
theorem bind_pure {f : α → β} (hx : Ends x s fault P) (h : ∀ a t, P a t → Q (f a) t) :
    Ends (x >>= fun a => pure (f a)) s fault Q := by
  have hbind := hx.bind fun _ a t ha => Ends.pure (P := Q) (h a t ha)
  rwa [Option.or_none] at hbind

theorem get_bind {f : σ → ExceptT Error (StateM σ) β} (h : Ends (f s) s fault Q) :
    Ends (get >>= f) s fault Q :=
  then_bind (P := fun a t => a = s ∧ t = s) ⟨s, s, Yields.get_iff.mpr ⟨rfl, rfl⟩, rfl, rfl⟩ (by
    rintro _ _ ⟨rfl, rfl⟩
    exact h)

end Ends

end EntitySql
