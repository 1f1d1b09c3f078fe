import EntitySql.Proofs.Rows.Parallel
import EntitySql.Proofs.Rows.Progress

-- Result sets one after the other. What a materializer remembers lets it go
-- on where it has stopped, so rows may come in parts; and once it has
-- forgotten, it makes of any result sets what a new one makes of them.

namespace EntitySql

theorem EntityBinding.alike_renumbered (b : EntityBinding) (i j : Nat) (cells : List Value) :
    b.Alike ⟨i, cells⟩ ⟨j, cells⟩ b :=
  ⟨rfl, List.forall₂_same.mpr fun _ _ => ⟨rfl, rfl, rfl⟩⟩

namespace Materializer

variable {m : Materializer} {s t u : State} {set set' : ResultSet} {columns : List Column}

theorem alikeRows_renumbered (i j : Nat) (cells : List Value) :
    m.AlikeRows columns columns ⟨i, cells⟩ ⟨j, cells⟩ :=
  ⟨(m.rootBinding columns).alike_renumbered i j cells,
    fun n _ => (nodeBinding columns n).alike_renumbered i j cells⟩

-- Without a cancellation all advances are alike, and change nothing.
theorem advance_eq (hcancel : set.cancelAt = none) (hcancel' : set'.cancelAt = none) (i j : Nat) :
    advance set' j = advance set i := by
  simp only [advance, ResultSet.advance, hcancel, hcancel']
  rfl

theorem yields_advance_iff (hcancel : set.cancelAt = none) {index : Nat} {v : Unit} :
    Yields (advance set index) s v t ↔ s.cancelled = false ∧ t = s := by
  constructor
  · intro h
    rw [advance, Yields.get_bind_iff, Yields.lift_bind_iff] at h
    obtain ⟨cancelled, hadvance, h⟩ := h
    rw [ResultSet.advance, hcancel] at hadvance
    split at hadvance
    · cases hadvance
    · next hs =>
      cases hadvance
      obtain rfl := Yields.modify_iff.mp h
      have hfalse : s.cancelled = false := by simpa using hs
      refine ⟨hfalse, ?_⟩
      cases s
      cases hfalse
      rfl
  · rintro ⟨hs, rfl⟩
    exact advance_yields hcancel index hs

-- The same rows under other numbers and from another result set.
theorem yields_readRows_renumbered (hcancel : set.cancelAt = none) (hcancel' : set'.cancelAt = none)
    (hcolumns : set'.columns = set.columns) {index index' : Nat} {cells : List (List Value)}
    {ids : List InstanceId} (h : Yields (m.readRows set index cells) s ids t) :
    Yields (m.readRows set' index' cells) s ids t := by
  have hbeside : Beside ⟨[]⟩ False (List.map ((⟨[]⟩ : Store).size + ·)) (m.readRows set index cells)
      (m.readRows set' index' cells) := by
    refine beside_readRows False.elim (fun i j _ => ?_) (List.forall₂_same.mpr fun c _ i j => ?_)
    · rw [advance_eq hcancel hcancel' i j]
      exact beside_advance rfl i
    · rw [hcolumns]
      exact alikeRows_renumbered i j c
  have hrun := hbeside.yields h
  have hids : ids.map ((⟨[]⟩ : Store).size + ·) = ids := by simp [Store.size]
  rwa [State.behind_empty, State.behind_empty, hids] at hrun

-- Every reading begins with an advance.
theorem not_cancelled_of_readRows (hcancel : set.cancelAt = none) {index : Nat}
    {cells : List (List Value)} {ids : List InstanceId}
    (h : Yields (m.readRows set index cells) s ids t) : s.cancelled = false := by
  have hfirst : ∃ v u, Yields (advance set index) s v u := by
    cases cells <;> simp only [readRows] at h <;>
      obtain ⟨v, u, hadvance, -⟩ := Yields.bind_iff.mp h <;> exact ⟨v, u, hadvance⟩
  obtain ⟨v, u, hadvance⟩ := hfirst
  exact ((yields_advance_iff hcancel).mp hadvance).1

-- By the rows of the first part: behind the last one the second part starts
-- in the state that all rows so far have led to.
theorem yields_readRows_append (hcancel : set.cancelAt = none) {index : Nat} (index' : Nat)
    {first second : List (List Value)} {ids : List InstanceId} :
    Yields (m.readRows set index (first ++ second)) s ids u ↔
      ∃ ids₁ t ids₂, Yields (m.readRows set index first) s ids₁ t ∧
        Yields (m.readRows set index' second) t ids₂ u ∧ ids = ids₁ ++ ids₂ := by
  induction first generalizing s index ids u with
  | nil =>
    have hnil : ∀ {ids t}, Yields (m.readRows set index []) s ids t ↔
        s.cancelled = false ∧ t = s ∧ ids = [] := by
      intro ids t
      simp only [readRows, Yields.bind_iff, Yields.pure_iff, yields_advance_iff hcancel]
      grind
    rw [List.nil_append]
    constructor
    · intro h
      exact ⟨[], s, ids, hnil.mpr ⟨not_cancelled_of_readRows hcancel h, rfl, rfl⟩,
        yields_readRows_renumbered hcancel hcancel rfl h, rfl⟩
    · rintro ⟨ids₁, t, ids₂, hfirst, hsecond, rfl⟩
      obtain ⟨-, rfl, rfl⟩ := hnil.mp hfirst
      exact yields_readRows_renumbered hcancel hcancel rfl hsecond
  | cons cells rest ih =>
    rw [List.cons_append]
    simp only [readRows, Yields.bind_iff, Yields.pure_iff, ih]
    constructor
    · rintro ⟨_, s₁, hadvance, new, s₂, hrow, others, s₃, ⟨ids₁, t, ids₂, hrest, hsecond, rfl⟩, rfl, rfl⟩
      exact ⟨new.toList ++ ids₁, t, ids₂, ⟨_, s₁, hadvance, new, s₂, hrow, ids₁, t, hrest, rfl, rfl⟩,
        hsecond, (List.append_assoc ..).symm⟩
    · rintro ⟨_, t, ids₂, ⟨_, s₁, hadvance, new, s₂, hrow, ids₁, _, hrest, rfl, rfl⟩, hsecond, rfl⟩
      exact ⟨_, s₁, hadvance, new, s₂, hrow, ids₁ ++ ids₂, u, ⟨ids₁, t, ids₂, hrest, hsecond, rfl⟩,
        List.append_assoc .., rfl⟩

-- Result sets one after the other. Each reading can be cancelled by itself.
def readAll (m : Materializer) : List ResultSet → State → List (Result (List InstanceId)) × State
  | [], s => ([], s)
  | set :: rest, s =>
    let (result, t) := ((m.read set).run.run { s with cancelled := false }).run
    let (results, u) := m.readAll rest t
    (result :: results, u)

theorem beside_read (m : Materializer) (old : Store) (set : ResultSet) :
    Beside old True (List.map (old.size + ·)) (m.read set) (m.read set) := by
  refine beside_readRows (fun _ => rfl) (fun i j hindex => ?_) ?_
  · rw [hindex trivial]
    exact beside_advance rfl i
  · exact List.forall₂_same.mpr fun c _ i j => alikeRows_renumbered i j c

-- Behind other instances a materializer makes the same graphs.
theorem readAll_behind (m : Materializer) (old : Store) (sets : List ResultSet) (s : State) :
    m.readAll sets (s.behind old) =
      ((m.readAll sets s).1.map fun result => result.map (List.map (old.size + ·)),
        (m.readAll sets s).2.behind old) := by
  induction sets generalizing s with
  | nil => rfl
  | cons set rest ih =>
    obtain ⟨hstate, hresult⟩ := m.beside_read old set { s with cancelled := false }
    have hrun : ((m.read set).run.run { s.behind old with cancelled := false }).run =
        (((m.read set).run.run { s with cancelled := false }).run.1.map (List.map (old.size + ·)),
          ((m.read set).run.run { s with cancelled := false }).run.2.behind old) :=
      Prod.ext hresult.eq_map hstate
    simp only [readAll, hrun, ih, List.map_cons]

-- Reading rows in two parts comes to the same as reading all of them: the
-- same new roots in the same order, and the same graph. And after it has
-- forgotten, a materializer answers all further result sets as a new one
-- does, with the same graphs behind the instances that there are.
theorem read_append (m : Materializer) (columns : List Column) (s : State) :
    (∀ (first second : List (List Value)) (ids : List InstanceId) (u : State),
      Yields (m.read { columns, rows := first ++ second }) s ids u ↔
        ∃ ids₁ t ids₂, Yields (m.read { columns, rows := first }) s ids₁ t ∧
          Yields (m.read { columns, rows := second }) t ids₂ u ∧ ids = ids₁ ++ ids₂) ∧
    ∀ sets : List ResultSet,
      m.readAll sets (forget.run.run s).run.2 =
        ((m.readAll sets { cancelled := s.cancelled }).1.map fun result =>
            result.map (List.map (s.store.size + ·)),
          (m.readAll sets { cancelled := s.cancelled }).2.behind s.store) := by
  constructor
  · intro first second ids u
    have hrenumbered : ∀ {rows rows' cells s ids t},
        Yields (m.readRows { columns, rows } 0 cells) s ids t →
          Yields (m.readRows { columns, rows := rows' } 0 cells) s ids t := by
      intro rows rows' cells s ids t h
      refine yields_readRows_renumbered ?_ ?_ ?_ h <;> rfl
    rw [read, yields_readRows_append rfl 0]
    constructor
    · rintro ⟨ids₁, t, ids₂, hfirst, hsecond, rfl⟩
      exact ⟨ids₁, t, ids₂, hrenumbered hfirst, hrenumbered hsecond, rfl⟩
    · rintro ⟨ids₁, t, ids₂, hfirst, hsecond, rfl⟩
      exact ⟨ids₁, t, ids₂, hrenumbered hfirst, hrenumbered hsecond, rfl⟩
  · intro sets
    have hforgotten : (forget.run.run s).run.2 =
        ({ cancelled := s.cancelled } : State).behind s.store := by
      simp [forget, State.behind, Store.behind, Memory.moved]
      rfl
    rw [hforgotten]
    exact m.readAll_behind s.store sets _

end Materializer

end EntitySql
