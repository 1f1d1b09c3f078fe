import EntitySql.Proofs.Rows.Read

-- What an instance has been filled with stays in it. Whatever else is read,
-- instances are added and linked, but their values are not touched again, so
-- the entities of a result set hold the values of their first rows.

namespace EntitySql

-- Every instance is still there, with the same values.
def Store.Kept (s t : Store) : Prop :=
  ∀ id i, s.get? id = some i → ∃ j, t.get? id = some j ∧ j.values = i.values

namespace Store.Kept

variable {s t u : Store}

theorem refl (s : Store) : Kept s s := fun _ i h => ⟨i, h, rfl⟩

theorem trans (h : Kept s t) (h' : Kept t u) : Kept s u := by
  intro id i hi
  obtain ⟨j, hj, hvalues⟩ := h id i hi
  obtain ⟨k, hk, hvalues'⟩ := h' id j hj
  exact ⟨k, hk, hvalues'.trans hvalues⟩

theorem insert (s : Store) (i : Instance) : Kept s (s.insert i).1 := by
  intro id j hj
  exact ⟨j, by rw [get?_insert_of_lt i (lt_size_of_get? hj), hj], rfl⟩

theorem link (s : Store) (id target : InstanceId) (n : Navigation) :
    Kept s (s.update id (·.link n target)) := by
  intro other i hi
  rw [get?_update, hi]
  split
  · exact ⟨i.link n target, rfl, rfl⟩
  · exact ⟨i, rfl, rfl⟩

end Store.Kept

namespace Materializer

-- A step that only adds instances and links.
def Keeping {α : Type} (x : Step α) : Prop := ∀ s a t, Yields x s a t → s.store.Kept t.store

namespace Keeping

variable {α β : Type}

protected theorem pure (a : α) : Keeping (pure a) := by
  intro s b t h
  obtain ⟨-, rfl⟩ := Yields.pure_iff.mp h
  exact .refl _

protected theorem bind {x : Step α} {f : α → Step β} (hx : Keeping x) (hf : ∀ a, Keeping (f a)) :
    Keeping (x >>= f) := by
  intro s b t h
  obtain ⟨a, u, ha, hb⟩ := Yields.bind_iff.mp h
  exact (hx s a u ha).trans (hf a u b t hb)

theorem lift (r : Result α) : Keeping (liftM r : Step α) := by
  intro s a t h
  obtain ⟨-, rfl⟩ := Yields.lift_iff.mp h
  exact .refl _

protected theorem throw (e : Error) : Keeping (throw e : Step α) :=
  fun _ _ _ h => absurd h Yields.throw_iff

protected theorem get : Keeping (get : Step State) := by
  intro s a t h
  obtain ⟨-, rfl⟩ := Yields.get_iff.mp h
  exact .refl _

protected theorem modify {f : State → State} (h : ∀ s : State, s.store.Kept (f s).store) :
    Keeping (modify f) := by
  intro s a t hrun
  rw [Yields.modify_iff.mp hrun]
  exact h s

protected theorem ite {c : Prop} [Decidable c] {x y : Step α} (hx : Keeping x) (hy : Keeping y) :
    Keeping (if c then x else y) := by
  split
  · exact hx
  · exact hy

end Keeping

variable {m : Materializer} {columns : List Column} {row : Row} {s t : State}

theorem keeping_syntheticKey : Keeping syntheticKey := by
  intro s key t h
  rw [syntheticKey, Yields.get_bind_iff] at h
  obtain ⟨_, u, hset, h⟩ := Yields.bind_iff.mp h
  obtain rfl := Yields.set_iff.mp hset
  obtain ⟨-, rfl⟩ := Yields.pure_iff.mp h
  exact .refl _

theorem keeping_readKey (b : EntityBinding) (required : Bool) :
    Keeping (m.readKey b row required) := by
  unfold readKey
  split
  · exact keeping_syntheticKey
  · exact .ite (.ite (.throw _) keeping_syntheticKey) (.lift _)

theorem keeping_insert (i : Instance) : Keeping (insert i) := by
  intro s id t h
  obtain ⟨-, rfl⟩ := yields_insert h
  exact .insert _ i

theorem keeping_relatedInstance (node : Nat) (b : EntityBinding) (key : Value) :
    Keeping (m.relatedInstance node b row key) := by
  refine .bind .get fun s => ?_
  split
  · exact .pure _
  · refine .bind (.lift _) fun i => .bind (keeping_insert i) fun id => ?_
    exact .bind (.modify fun s => .refl _) fun _ => .pure _

theorem keeping_linkRelated (n : Include.Node) (parent : InstanceId) (parentKey key : Value)
    (related : InstanceId) : Keeping (m.linkRelated n parent parentKey key related) := by
  have hlink : Keeping (link n.navigation parent related) :=
    .modify fun s => .link s.store parent related n.navigation
  refine .ite (.bind .get fun s => .ite (.pure _) ?_) hlink
  exact .bind (.modify fun s => .refl _) fun _ => hlink

mutual

theorem keeping_readTree (parent : InstanceId) (parentKey : Value) (tree : Include.Tree) :
    Keeping (m.readTree columns row parent parentKey tree) := by
  cases tree with
  | node n children =>
    rw [readTree]
    refine .ite (.pure _) ?_
    refine .bind (keeping_readKey _ false) fun key => ?_
    refine .bind (keeping_relatedInstance _ _ key) fun related => ?_
    refine .bind (keeping_linkRelated n parent parentKey key related) fun _ => ?_
    exact keeping_readTrees related key children
termination_by sizeOf tree

theorem keeping_readTrees (parent : InstanceId) (parentKey : Value) (trees : List Include.Tree) :
    Keeping (m.readTrees columns row parent parentKey trees) := by
  cases trees with
  | nil =>
    rw [readTrees]
    exact .pure _
  | cons tree rest =>
    rw [readTrees]
    exact .bind (keeping_readTree parent parentKey tree) fun _ =>
      keeping_readTrees parent parentKey rest
termination_by sizeOf trees

end

-- The instance holds what the row gives for the root.
def Holds (m : Materializer) (columns : List Column) (store : Store) (id : InstanceId) (row : Row) :
    Prop :=
  ∃ i j, row.readInstance m.converter (m.rootBinding columns) = .ok i ∧ store.get? id = some j ∧
    j.values = i.values

theorem Holds.kept {store store' : Store} {id : InstanceId} (h : m.Holds columns store id row)
    (hkept : store.Kept store') : m.Holds columns store' id row := by
  obtain ⟨i, j, hread, hj, hvalues⟩ := h
  obtain ⟨k, hk, hvalues'⟩ := hkept id j hj
  exact ⟨i, k, hread, hk, hvalues'.trans hvalues⟩

theorem holds_of_readRow {new : Option InstanceId} (h : Yields (m.readRow columns row) s new t) :
    s.store.Kept t.store ∧ ∀ id ∈ new, m.Holds columns t.store id row := by
  simp only [readRow] at h
  obtain ⟨key, u, hkey, h⟩ := Yields.bind_iff.mp h
  have hkept := keeping_readKey _ _ _ _ _ hkey
  rw [Yields.get_bind_iff] at h
  cases hknown : u.memory.root? m.same key with
  | some id =>
    simp only [hknown] at h
    obtain ⟨_, u', htrees, h⟩ := Yields.bind_iff.mp h
    obtain ⟨rfl, rfl⟩ := Yields.pure_iff.mp h
    exact ⟨hkept.trans (keeping_readTrees _ _ _ _ _ _ htrees), by simp⟩
  | none =>
    simp only [hknown] at h
    obtain ⟨i, hread, h⟩ := Yields.lift_bind_iff.mp h
    obtain ⟨_, _, hinsert, h⟩ := Yields.bind_iff.mp h
    obtain ⟨rfl, rfl⟩ := yields_insert hinsert
    rw [Yields.modify_bind_iff] at h
    obtain ⟨_, u', htrees, h⟩ := Yields.bind_iff.mp h
    obtain ⟨rfl, rfl⟩ := Yields.pure_iff.mp h
    have htrees := keeping_readTrees _ _ _ _ _ _ htrees
    refine ⟨(hkept.trans (.insert _ i)).trans htrees, ?_⟩
    rintro id ⟨⟩
    have hnew : m.Holds columns (u.store.insert i).1 u.store.size row :=
      ⟨i, i, hread, Store.get?_insert_size _ i, rfl⟩
    exact hnew.kept htrees

-- The entities hold the values of some of the rows, in the order of the rows.
theorem holds_of_readRows {set : ResultSet} {cells : List (List Value)} {index : Nat}
    {ids : List InstanceId} (h : Yields (m.readRows set index cells) s ids t) :
    s.store.Kept t.store ∧ ∃ rows, rows.Sublist (rowsFrom index cells) ∧
      List.Forall₂ (m.Holds set.columns t.store) ids rows := by
  induction cells generalizing index s ids with
  | nil =>
    simp only [readRows] at h
    obtain ⟨_, u, hadvance, h⟩ := Yields.bind_iff.mp h
    obtain ⟨rfl, rfl⟩ := Yields.pure_iff.mp h
    rw [(yields_advance hadvance).2]
    exact ⟨.refl _, [], List.nil_sublist _, .nil⟩
  | cons first rest ih =>
    simp only [readRows] at h
    obtain ⟨_, u, hadvance, h⟩ := Yields.bind_iff.mp h
    obtain ⟨new, u', hfirst, h⟩ := Yields.bind_iff.mp h
    obtain ⟨others, u'', hothers, h⟩ := Yields.bind_iff.mp h
    obtain ⟨rfl, rfl⟩ := Yields.pure_iff.mp h
    obtain ⟨hkept, hnew⟩ := holds_of_readRow hfirst
    obtain ⟨hkept', rows, hsublist, hall⟩ := ih hothers
    rw [(yields_advance hadvance).2] at hkept
    refine ⟨hkept.trans hkept', ?_⟩
    cases new with
    | none => exact ⟨rows, hsublist.cons _, hall⟩
    | some id =>
      exact ⟨⟨index, first⟩ :: rows, hsublist.cons_cons _, .cons ((hnew id rfl).kept hkept') hall⟩

end Materializer

end EntitySql
