import EntitySql.Proofs.Rows.Visits
import EntitySql.Proofs.Run
import EntitySql.Proofs.Store

-- Two runs side by side. The second reads rows that show the same cells for
-- the bound fields, wherever these stand, and it starts with the instances
-- of another store in front of its own. It makes the same graph behind them.

namespace EntitySql

namespace Instance

-- The links lead to places further back by some number.
def moved (n : Nat) (i : Instance) : Instance :=
  { i with links := i.links.map fun l => (l.1, l.2.map (n + ·)) }

variable {α : Type}

theorem replace_map {change change' g : α → α} (h : ∀ a, change' (g a) = g (change a)) (key : Text)
    (entries : List (Text × α)) :
    replace key change' (entries.map fun e => (e.1, g e.2)) =
      (replace key change entries).map fun e => (e.1, g e.2) := by
  induction entries with
  | nil => rfl
  | cons e rest ih =>
    obtain ⟨k, a⟩ := e
    by_cases hk : k = key <;> simp [replace, hk, h, ih]

theorem moved_link (n : Nat) (i : Instance) (navigation : Navigation) (target : InstanceId) :
    (i.moved n).link navigation (n + target) = (i.link navigation target).moved n := by
  simp only [link, moved]
  rw [replace_map]
  intro targets
  by_cases hc : navigation.isCollection <;> simp [hc]

-- An instance without links stays as it is.
theorem moved_of_links {e : Entity} {i : Instance} (h : i.links = (new e).links) (n : Nat) :
    i.moved n = i := by
  obtain ⟨type, values, links⟩ := i
  cases h
  simp [moved]

theorem moved_zero (i : Instance) : i.moved 0 = i := by simp [moved]

end Instance

namespace Store

-- The instances of a store behind those of another one.
def behind (old s : Store) : Store :=
  ⟨old.instances ++ s.instances.map (·.moved old.size)⟩

variable (old s : Store)

theorem behind_insert (i : Instance) :
    (old.behind s).insert (i.moved old.size) =
      (old.behind (s.insert i).1, old.size + (s.insert i).2) := by
  simp [insert, behind, size]

theorem behind_update {change change' : Instance → Instance}
    (h : ∀ i, change' (i.moved old.size) = (change i).moved old.size) (id : Nat) :
    (old.behind s).update (old.size + id) change' = old.behind (s.update id change) := by
  have hmodify : (old.instances ++ s.instances.map (·.moved old.size)).modify (old.size + id) change' =
      old.instances ++ (s.instances.modify id change).map (·.moved old.size) := by
    apply List.ext_getElem?
    intro k
    rw [List.getElem?_modify, List.getElem?_append, List.getElem?_append, List.getElem?_map,
      List.getElem?_map, List.getElem?_modify]
    by_cases hk : k < old.instances.length
    · have hne : ¬old.size + id = k := by
        rw [size]
        omega
      simp [hk, hne]
    · have hplace : old.size + id = k ↔ id = k - old.instances.length := by
        rw [size]
        omega
      rw [if_neg hk, if_neg hk]
      cases s.instances[k - old.instances.length]? with
      | none => rfl
      | some i =>
        simp only [hplace]
        by_cases hid : id = k - old.instances.length <;> simp [hid, h]
  rw [update, behind, hmodify]
  rfl

theorem empty_behind : (⟨[]⟩ : Store).behind s = s := by
  simp [behind, size, Instance.moved_zero]

end Store

namespace Memory

-- The same keys for instances further back.
def moved (n : Nat) (m : Memory) : Memory :=
  { m with
    roots := m.roots.map fun e => (e.1, n + e.2)
    related := m.related.map fun e => (e.1, e.2.1, n + e.2.2) }

variable (n : Nat) (m : Memory) (same : Value → Value → Bool)

theorem root?_moved (key : Value) : (m.moved n).root? same key = (m.root? same key).map (n + ·) := by
  simp [root?, moved, List.find?_map, Function.comp_def]

theorem related?_moved (node : Nat) (key : Value) :
    (m.moved n).related? same node key = (m.related? same node key).map (n + ·) := by
  simp [related?, moved, List.find?_map, Function.comp_def]

theorem moved_zero : m.moved 0 = m := by simp [moved]

end Memory

-- Results that are the same but for a change, or both errors, which are the
-- same on a condition.
inductive Result.Alike {α β : Type} (same : Prop) (f : α → β) : Result α → Result β → Prop where
  | ok (a : α) : Alike same f (.ok a) (.ok (f a))
  | error (e e' : Error) (h : same → e' = e) : Alike same f (.error e) (.error e')

namespace Result.Alike

variable {α β γ δ : Type} {same : Prop} {f : α → β} {g : γ → δ}

protected theorem refl (r : Result α) : Alike same id r r := by
  cases r with
  | ok a => exact .ok a
  | error e => exact .error e e fun _ => rfl

theorem bind {r : Result α} {r' : Result β} {k : α → Result γ} {k' : β → Result δ}
    (h : Alike same f r r') (hk : ∀ a, Alike same g (k a) (k' (f a))) :
    Alike same g (r >>= k) (r' >>= k') := by
  cases h with
  | ok a => exact hk a
  | error e e' h => exact .error e e' h

theorem eq_map {r : Result α} {r' : Result β} (h : Alike True f r r') : r' = r.map f := by
  cases h with
  | ok a => rfl
  | error e e' h => rw [h trivial]; rfl

theorem congr {g : α → β} {r : Result α} {r' : Result β} (h : Alike same f r r')
    (hsame : ∀ a, r = .ok a → f a = g a) : Alike same g r r' := by
  cases h with
  | ok a => exact hsame a rfl ▸ .ok a
  | error e e' h => exact .error e e' h

theorem mapError (r : Result α) {change change' : Error → Error} (h : same → change' = change) :
    Alike same id (r.mapError change) (r.mapError change') := by
  cases r with
  | ok a => exact .ok a
  | error e => exact .error _ _ fun hsame => by rw [h hsame]

end Result.Alike

namespace Materializer

-- A state with its instances behind those of a store.
def State.behind (old : Store) (s : State) : State :=
  { s with memory := s.memory.moved old.size, store := old.behind s.store }

theorem State.behind_empty (s : State) : s.behind ⟨[]⟩ = s := by
  rw [behind, Store.empty_behind]
  exact congrArg (fun memory => { s with memory }) s.memory.moved_zero

-- The second step does behind the instances of a store what the first one
-- does without them.
def Beside {α β : Type} (old : Store) (same : Prop) (f : α → β) (x : Step α) (y : Step β) : Prop :=
  ∀ s, (y.run.run (s.behind old)).run.2 = (x.run.run s).run.2.behind old ∧
    Result.Alike same f (x.run.run s).run.1 (y.run.run (s.behind old)).run.1

namespace Beside

variable {α β γ δ : Type} {old : Store} {same : Prop} {f : α → β} {g : γ → δ} {x : Step α} {y : Step β}

protected theorem pure (a : α) : Beside old same f (pure a) (pure (f a)) := fun _ => ⟨rfl, .ok a⟩

protected theorem throw {e e' : Error} (h : same → e' = e) :
    Beside old same f (throw e) (throw e') := fun _ => ⟨rfl, .error e e' h⟩

theorem lift {r : Result α} {r' : Result β} (h : Result.Alike same f r r') :
    Beside old same f (liftM r : Step α) (liftM r' : Step β) := by
  cases h with
  | ok a => exact .pure a
  | error e e' h => exact .throw h

protected theorem bind {k : α → Step γ} {k' : β → Step δ} (hx : Beside old same f x y)
    (hk : ∀ a, Beside old same g (k a) (k' (f a))) : Beside old same g (x >>= k) (y >>= k') := by
  intro s
  obtain ⟨hstate, hresult⟩ := hx s
  rw [Yields.run_bind, Yields.run_bind]
  cases hrun : (x.run.run s).run with
  | mk r t =>
    cases hrun' : (y.run.run (s.behind old)).run with
    | mk r' t' =>
      simp only [hrun, hrun'] at hstate hresult
      subst hstate
      cases hresult with
      | ok a => exact hk a t
      | error e e' h => exact ⟨rfl, .error e e' h⟩

theorem get_bind {k : State → Step γ} {k' : State → Step δ}
    (h : ∀ s, Beside old same g (k s) (k' (s.behind old))) :
    Beside old same g (get >>= k) (get >>= k') := fun s => h s s

protected theorem modify {change change' : State → State}
    (h : ∀ s, change' (s.behind old) = (change s).behind old) :
    Beside old same id (modify change) (modify change') :=
  fun s => ⟨h s, .ok PUnit.unit⟩

theorem yields (h : Beside old same f x y) {s t : State} {a : α} (hx : Yields x s a t) :
    Yields y (s.behind old) (f a) (t.behind old) := by
  obtain ⟨hstate, hresult⟩ := h s
  have hrun : (x.run.run s).run = (.ok a, t) := hx
  rw [hrun] at hstate hresult
  refine Prod.ext ?_ hstate
  generalize (y.run.run (s.behind old)).run.1 = r at hresult
  cases hresult with
  | ok _ => rfl

-- Without instances in front both steps are the same.
theorem eq_of_empty {x y : Step α} (h : Beside ⟨[]⟩ True id x y) : y = x := by
  refine funext fun s => ?_
  obtain ⟨hstate, hresult⟩ := h s
  simp only [State.behind_empty] at hstate hresult
  have hsame := hresult.eq_map
  have hmap : (x.run.run s).run.1.map id = (x.run.run s).run.1 := by
    cases (x.run.run s).run.1 <;> rfl
  exact Prod.ext (hsame.trans hmap) hstate

protected theorem ite {c : Prop} [Decidable c] {x' : Step α} {y' : Step β}
    (h : Beside old same f x y) (h' : Beside old same f x' y') :
    Beside old same f (if c then x else x') (if c then y else y') := by
  by_cases hc : c
  · simpa only [if_pos hc]
  · simpa only [if_neg hc]

end Beside

end Materializer

-- Bindings of a field to the same cell, in one row and in another one.
structure ColumnBinding.Alike (row row' : Row) (c c' : ColumnBinding) : Prop where
  field : c'.field = c.field
  databaseType : c'.databaseType = c.databaseType
  cell : row'.cell c'.ordinal = row.cell c.ordinal

structure EntityBinding.Alike (row row' : Row) (b b' : EntityBinding) : Prop where
  entity : b'.entity = b.entity
  columns : List.Forall₂ (ColumnBinding.Alike row row') b.columns b'.columns

variable {row row' : Row} {b b' : EntityBinding} {c c' : ColumnBinding} {same : Prop}
  {converter : Conversion.Converter}

theorem EntityBinding.Alike.key? (h : b.Alike row row' b') :
    Option.Rel (ColumnBinding.Alike row row') b.key? b'.key? := by
  rw [EntityBinding.key?, EntityBinding.key?, h.entity]
  cases b.entity.primaryKey? with
  | none => exact .none
  | some f =>
    have hcolumns := h.columns
    dsimp only
    generalize b.columns = columns, b'.columns = columns' at hcolumns
    induction hcolumns with
    | nil => exact .none
    | cons hc _ ih =>
      rw [List.find?_cons, List.find?_cons, hc.field]
      split
      · exact .some hc
      · exact ih

namespace Row

theorem isUnmatched_alike (h : b.Alike row row' b') : row'.isUnmatched b' = row.isUnmatched b := by
  have hcolumns := h.columns
  rw [isUnmatched, isUnmatched]
  generalize b.columns = columns, b'.columns = columns' at hcolumns
  induction hcolumns with
  | nil => rfl
  | cons hc _ ih => rw [List.all_cons, List.all_cons, hc.cell, ih]

theorem readCell_alike (h : c.Alike row row' c') :
    row'.readCell converter c' = row.readCell converter c := by
  rw [readCell, readCell, h.cell, h.field, h.databaseType]

theorem mappingError_alike (hindex : same → row'.index = row.index) (f : Field) :
    same → row'.mappingError f = row.mappingError f := by
  intro hsame
  funext cause
  rw [mappingError, mappingError, hindex hsame]

theorem readColumn_alike (hindex : same → row'.index = row.index) (h : c.Alike row row' c') :
    Result.Alike same id (row.readColumn converter c) (row'.readColumn converter c') := by
  rw [readColumn, readColumn, readCell_alike h, h.field]
  exact .mapError _ (mappingError_alike hindex c.field)

theorem readInto_alike (hindex : same → row'.index = row.index) (h : c.Alike row row' c')
    (i : Instance) :
    Result.Alike same id (row.readInto converter i c) (row'.readInto converter i c') := by
  refine (readColumn_alike hindex h).bind fun v => ?_
  rw [h.field]
  exact .mapError _ (mappingError_alike hindex c.field)

theorem foldlM_readInto_alike (hindex : same → row'.index = row.index)
    {columns columns' : List ColumnBinding}
    (h : List.Forall₂ (ColumnBinding.Alike row row') columns columns') (i : Instance) :
    Result.Alike same id (columns.foldlM (row.readInto converter) i)
      (columns'.foldlM (row'.readInto converter) i) := by
  induction h generalizing i with
  | nil => exact .ok i
  | cons hc _ ih =>
    rw [List.foldlM_cons, List.foldlM_cons]
    exact (readInto_alike hindex hc i).bind ih

-- What is read from a row has no links yet, so it can stand anywhere.
theorem readInstance_alike (hindex : same → row'.index = row.index) (h : b.Alike row row' b')
    (n : Nat) :
    Result.Alike same (Instance.moved n) (row.readInstance converter b)
      (row'.readInstance converter b') := by
  have hread : Result.Alike same id (row.readInstance converter b)
      (row'.readInstance converter b') := by
    rw [readInstance, readInstance, h.entity]
    exact foldlM_readInto_alike hindex h.columns _
  exact hread.congr fun i hi => (Instance.moved_of_links (links_readInstance hi).2 n).symm

end Row

namespace Materializer

variable {m : Materializer} {old : Store}

theorem beside_syntheticKey : Beside old same id syntheticKey syntheticKey :=
  fun s => ⟨rfl, .ok (Value.array [.null, .int (Int64.ofNat s.memory.synthetic)])⟩

theorem beside_readKey (hindex : same → row'.index = row.index) (h : b.Alike row row' b')
    (required : Bool) :
    Beside old same id (m.readKey b row required) (m.readKey b' row' required) := by
  have hkey := h.key?
  simp only [readKey]
  generalize b.key? = found, b'.key? = found' at hkey
  cases hkey with
  | none => exact beside_syntheticKey
  | some hc =>
    dsimp only
    rw [hc.cell, hc.field, h.entity]
    refine .ite (.ite ?_ beside_syntheticKey) (.lift (Row.readColumn_alike hindex hc))
    exact .throw fun hsame => by rw [hindex hsame]

theorem beside_insert (i : Instance) :
    Beside old same (old.size + ·) (insert i) (insert (i.moved old.size)) := by
  intro s
  have hstore : (s.behind old).store.insert (i.moved old.size) =
      (old.behind (s.store.insert i).1, old.size + (s.store.insert i).2) :=
    old.behind_insert s.store i
  have hrun : ((insert (i.moved old.size)).run.run (s.behind old)).run =
      (.ok ((s.behind old).store.insert (i.moved old.size)).2,
        { s.behind old with store := ((s.behind old).store.insert (i.moved old.size)).1 }) := rfl
  rw [hrun, hstore]
  exact ⟨rfl, .ok (s.store.insert i).2⟩

theorem beside_link (n : Navigation) (parent target : Nat) :
    Beside old same id (link n parent target) (link n (old.size + parent) (old.size + target)) := by
  refine .modify fun s => ?_
  have hstore : (old.behind s.store).update (old.size + parent) (·.link n (old.size + target)) =
      old.behind (s.store.update parent (·.link n target)) :=
    old.behind_update s.store (fun i => i.moved_link old.size n target) parent
  exact congrArg (fun store => { s.behind old with store }) hstore

theorem beside_relatedInstance (hindex : same → row'.index = row.index)
    (h : b.Alike row row' b') (node : Nat) (key : Value) :
    Beside old same (old.size + ·) (m.relatedInstance node b row key)
      (m.relatedInstance node b' row' key) := by
  refine .get_bind fun s => ?_
  have hknown : (s.behind old).memory.related? m.same node key =
      (s.memory.related? m.same node key).map (old.size + ·) :=
    s.memory.related?_moved old.size m.same node key
  rw [hknown]
  cases s.memory.related? m.same node key with
  | some id => exact .pure id
  | none =>
    refine .bind (.lift (Row.readInstance_alike hindex h old.size)) fun i => ?_
    refine .bind (beside_insert i) fun id => .bind (.modify fun s => ?_) fun _ => .pure id
    simp [State.behind, Memory.moved]

theorem beside_linkRelated (n : Include.Node) (parent : Nat) (parentKey key : Value)
    (related : Nat) :
    Beside old same id (m.linkRelated n parent parentKey key related)
      (m.linkRelated n (old.size + parent) parentKey key (old.size + related)) := by
  have hlink : Beside old same id (link n.navigation parent related)
      (link n.navigation (old.size + parent) (old.size + related)) :=
    beside_link n.navigation parent related
  refine .ite (.get_bind fun s => .ite (.pure ()) (.bind (.modify fun s => rfl) fun _ => hlink)) hlink

-- Both rows show the same of the root and of all includes.
structure AlikeRows (m : Materializer) (columns columns' : List Column) (row row' : Row) : Prop where
  root : (m.rootBinding columns).Alike row row' (m.rootBinding columns')
  nodes : ∀ n ∈ Include.flattenAll m.trees,
    (nodeBinding columns n).Alike row row' (nodeBinding columns' n)

section Trees

variable {columns columns' : List Column}

mutual

theorem beside_readTree (hindex : same → row'.index = row.index) (tree : Include.Tree)
    (h : ∀ n ∈ tree.flatten, (nodeBinding columns n).Alike row row' (nodeBinding columns' n))
    (parent : Nat) (parentKey : Value) :
    Beside old same id (m.readTree columns row parent parentKey tree)
      (m.readTree columns' row' (old.size + parent) parentKey tree) := by
  match tree with
  | .node n children =>
    have hb : (EntityBinding.bind columns n.target (some n.aliasName)).Alike row row'
        (EntityBinding.bind columns' n.target (some n.aliasName)) :=
      h n (by simp [Include.Tree.flatten])
    simp only [readTree, Row.isUnmatched_alike hb]
    refine .ite (.pure ()) (.bind (beside_readKey hindex hb false) fun key => ?_)
    refine .bind (beside_relatedInstance hindex hb n.number key) fun related => ?_
    refine .bind (beside_linkRelated n parent parentKey key related) fun _ => ?_
    exact beside_readTrees hindex children (fun a ha => h a (by simp [Include.Tree.flatten, ha]))
      related key

theorem beside_readTrees (hindex : same → row'.index = row.index) (trees : List Include.Tree)
    (h : ∀ n ∈ Include.flattenAll trees,
      (nodeBinding columns n).Alike row row' (nodeBinding columns' n))
    (parent : Nat) (parentKey : Value) :
    Beside old same id (m.readTrees columns row parent parentKey trees)
      (m.readTrees columns' row' (old.size + parent) parentKey trees) := by
  match trees with
  | [] =>
    simp only [readTrees]
    exact .pure ()
  | tree :: rest =>
    simp only [readTrees]
    refine .bind (beside_readTree hindex tree (fun a ha => h a (by simp [Include.flattenAll, ha]))
      parent parentKey) fun _ => ?_
    exact beside_readTrees hindex rest (fun a ha => h a (by simp [Include.flattenAll, ha]))
      parent parentKey

end

theorem beside_readRow (hindex : same → row'.index = row.index)
    (h : m.AlikeRows columns columns' row row') :
    Beside old same (Option.map (old.size + ·)) (m.readRow columns row)
      (m.readRow columns' row') := by
  simp only [readRow]
  refine .bind (beside_readKey hindex h.root true) fun key => .get_bind fun s => ?_
  have hknown : (s.behind old).memory.root? m.same key =
      (s.memory.root? m.same key).map (old.size + ·) := s.memory.root?_moved old.size m.same key
  rw [id, hknown]
  cases s.memory.root? m.same key with
  | some id =>
    exact .bind (beside_readTrees hindex m.trees h.nodes id key) fun _ => .pure none
  | none =>
    refine .bind (.lift (Row.readInstance_alike hindex h.root old.size)) fun i => ?_
    refine .bind (beside_insert i) fun id => .bind (.modify fun s => ?_) fun _ => ?_
    · simp [State.behind, Memory.moved]
    · exact .bind (beside_readTrees hindex m.trees h.nodes id key) fun _ => .pure (some id)

end Trees

-- Rows that show the same one by one. Their numbers may differ where it does
-- not matter which errors there are.
theorem beside_readRows {set set' : ResultSet} {index index' : Nat}
    (hindex : same → index' = index)
    (hadvance : ∀ i j, (same → j = i) → Beside old same id (advance set i) (advance set' j))
    {cells cells' : List (List Value)}
    (h : List.Forall₂ (fun c c' => ∀ i j, m.AlikeRows set.columns set'.columns ⟨i, c⟩ ⟨j, c'⟩)
      cells cells') :
    Beside old same (List.map (old.size + ·)) (m.readRows set index cells)
      (m.readRows set' index' cells') := by
  induction h generalizing index index' with
  | nil =>
    simp only [readRows]
    exact .bind (hadvance index index' hindex) fun _ => .pure []
  | cons hfirst _ ih =>
    simp only [readRows]
    refine .bind (hadvance index index' hindex) fun _ => ?_
    refine .bind (beside_readRow hindex (hfirst index index')) fun new => ?_
    refine .bind (ih fun hsame => by rw [hindex hsame]) fun others => ?_
    have hall : (new.map (old.size + ·)).toList ++ others.map (old.size + ·) =
        (new.toList ++ others).map (old.size + ·) := by cases new <;> rfl
    rw [hall]
    exact .pure _

theorem beside_advance {set set' : ResultSet} (hcancel : set'.cancelAt = set.cancelAt)
    (index : Nat) : Beside old same id (advance set index) (advance set' index) := by
  refine .get_bind fun s => .bind (.lift ?_) fun cancelled => .modify fun s => rfl
  rw [ResultSet.advance, ResultSet.advance, hcancel]
  exact .refl _

end Materializer

end EntitySql
