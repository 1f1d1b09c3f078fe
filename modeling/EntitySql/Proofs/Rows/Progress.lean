import EntitySql.Proofs.Rows.Read

-- A run comes to its end if every row can be read: the root of it, and each
-- include that it shows.

namespace EntitySql.Materializer

open Include (Node Tree Plan)

-- The key of an entity and an instance of it can be read from a row.
def Gives (m : Materializer) (b : EntityBinding) (row : Row) : Prop :=
  (∃ key, m.key? b row = some key) ∧ ∃ i, row.readInstance m.converter b = .ok i

structure Readable (m : Materializer) (columns : List Column) (row : Row) : Prop where
  root : m.Gives (m.rootBinding columns) row
  nodes : ∀ n ∈ Include.flattenAll m.trees, row.isUnmatched (nodeBinding columns n) = false →
    m.Gives (nodeBinding columns n) row

variable {m : Materializer} {columns : List Column} {row : Row}

theorem readKey_yields {b : EntityBinding} {key : Value} (h : m.key? b row = some key) (required : Bool)
    (s : State) : Yields (m.readKey b row required) s key s := by
  rw [key?, Option.bind_eq_bind, Option.bind_eq_some_iff] at h
  obtain ⟨column, hcolumn, hkey⟩ := h
  split at hkey
  · cases hkey
  · next hnull =>
    simp only [readKey, hcolumn, if_neg hnull]
    refine Yields.lift_iff.mpr ⟨?_, rfl⟩
    cases hread : row.readColumn m.converter column with
    | error e => rw [hread] at hkey; cases hkey
    | ok v => rw [hread] at hkey; cases hkey; rfl

theorem insert_yields (i : Instance) (s : State) :
    Yields (insert i) s s.store.size { s with store := (s.store.insert i).1 } := rfl

theorem exists_relatedInstance_yields {b : EntityBinding} {i : Instance}
    (h : row.readInstance m.converter b = .ok i) (number : Nat) (key : Value) (s : State) :
    ∃ id t, Yields (m.relatedInstance number b row key) s id t ∧ t.cancelled = s.cancelled := by
  simp only [relatedInstance]
  cases hknown : s.memory.related? m.same number key with
  | some id =>
    refine ⟨id, s, Yields.get_bind_iff.mpr ?_, rfl⟩
    simp only [hknown]
    exact Yields.pure_iff.mpr ⟨rfl, rfl⟩
  | none =>
    refine ⟨s.store.size, Graph.remembering s (some number) key i, Yields.get_bind_iff.mpr ?_, rfl⟩
    simp only [hknown]
    exact Yields.lift_bind_iff.mpr ⟨i, h, Yields.bind_iff.mpr ⟨_, _, insert_yields i s,
      Yields.modify_bind_iff.mpr (Yields.pure_iff.mpr ⟨rfl, rfl⟩)⟩⟩

theorem exists_linkRelated_yields (m : Materializer) (n : Node) (parent related : InstanceId) (parentKey key : Value)
    (s : State) :
    ∃ t, Yields (m.linkRelated n parent parentKey key related) s () t ∧ t.cancelled = s.cancelled := by
  simp only [linkRelated]
  by_cases hcollection : n.isCollection
  · simp only [hcollection, if_true]
    by_cases hlinked : s.memory.isLinked m.same n.number parentKey key
    · exact ⟨s, Yields.get_bind_iff.mpr (Yields.ite_iff.mpr (.inl ⟨hlinked, Yields.pure_iff.mpr ⟨rfl, rfl⟩⟩)),
        rfl⟩
    · refine ⟨_, Yields.get_bind_iff.mpr (Yields.ite_iff.mpr (.inr ⟨hlinked,
        Yields.modify_bind_iff.mpr (Yields.modify_iff.mpr rfl)⟩)), rfl⟩
  · simp only [hcollection, if_false, Bool.false_eq_true]
    exact ⟨_, Yields.modify_iff.mpr rfl, rfl⟩

mutual

theorem exists_readTree_yields (tree : Tree)
    (h : ∀ n ∈ tree.flatten, row.isUnmatched (nodeBinding columns n) = false →
      m.Gives (nodeBinding columns n) row)
    (parent : InstanceId) (parentKey : Value) (s : State) :
    ∃ t, Yields (m.readTree columns row parent parentKey tree) s () t ∧ t.cancelled = s.cancelled := by
  match tree with
  | .node n children =>
    simp only [readTree]
    cases hmatched : row.isUnmatched (nodeBinding columns n) with
    | true =>
      have hmatched : row.isUnmatched (.bind columns n.target (some n.aliasName)) = true := hmatched
      simp only [hmatched, if_true]
      exact ⟨s, Yields.pure_iff.mpr ⟨rfl, rfl⟩, rfl⟩
    | false =>
      obtain ⟨⟨key, hkey⟩, i, hi⟩ := h n (by simp [Tree.flatten]) hmatched
      have hmatched : row.isUnmatched (.bind columns n.target (some n.aliasName)) = false := hmatched
      obtain ⟨related, s₁, hrelated, hsame⟩ := exists_relatedInstance_yields hi n.number key s
      obtain ⟨s₂, hlink, hsame'⟩ := exists_linkRelated_yields m n parent related parentKey key s₁
      obtain ⟨t, hrest, hsame''⟩ := exists_readTrees_yields children
        (fun a ha => h a (by simp [Tree.flatten, ha])) related key s₂
      simp only [hmatched, Bool.false_eq_true, if_false]
      exact ⟨t, Yields.bind_iff.mpr ⟨key, s, readKey_yields hkey false s, Yields.bind_iff.mpr
        ⟨related, s₁, hrelated, Yields.bind_iff.mpr ⟨(), s₂, hlink, hrest⟩⟩⟩,
        hsame''.trans (hsame'.trans hsame)⟩

theorem exists_readTrees_yields (trees : List Tree)
    (h : ∀ n ∈ Include.flattenAll trees, row.isUnmatched (nodeBinding columns n) = false →
      m.Gives (nodeBinding columns n) row)
    (parent : InstanceId) (parentKey : Value) (s : State) :
    ∃ t, Yields (m.readTrees columns row parent parentKey trees) s () t ∧ t.cancelled = s.cancelled := by
  match trees with
  | [] => exact ⟨s, by simp only [readTrees]; exact Yields.pure_iff.mpr ⟨rfl, rfl⟩, rfl⟩
  | tree :: rest =>
    obtain ⟨s₁, hfirst, hsame⟩ := exists_readTree_yields tree
      (fun a ha => h a (by simp [Include.flattenAll, ha])) parent parentKey s
    obtain ⟨t, hrest, hsame'⟩ := exists_readTrees_yields rest
      (fun a ha => h a (by simp [Include.flattenAll, ha])) parent parentKey s₁
    simp only [readTrees]
    exact ⟨t, Yields.bind_iff.mpr ⟨(), s₁, hfirst, hrest⟩, hsame'.trans hsame⟩

end

theorem exists_readRow_yields (h : m.Readable columns row) (s : State) :
    ∃ new t, Yields (m.readRow columns row) s new t ∧ t.cancelled = s.cancelled := by
  obtain ⟨⟨key, hkey⟩, i, hi⟩ := h.root
  have hkey := readKey_yields hkey true s
  simp only [readRow]
  cases hknown : s.memory.root? m.same key with
  | some id =>
    obtain ⟨t, htrees, hsame⟩ := exists_readTrees_yields m.trees h.nodes id key s
    refine ⟨none, t, Yields.bind_iff.mpr ⟨key, s, hkey, Yields.get_bind_iff.mpr ?_⟩, hsame⟩
    simp only [hknown]
    exact Yields.bind_iff.mpr ⟨(), t, htrees, Yields.pure_iff.mpr ⟨rfl, rfl⟩⟩
  | none =>
    obtain ⟨t, htrees, hsame⟩ := exists_readTrees_yields m.trees h.nodes s.store.size key
      (Graph.remembering s none key i)
    refine ⟨some s.store.size, t, Yields.bind_iff.mpr ⟨key, s, hkey, Yields.get_bind_iff.mpr ?_⟩, hsame⟩
    simp only [hknown]
    exact Yields.lift_bind_iff.mpr ⟨i, hi, Yields.bind_iff.mpr ⟨_, _, insert_yields i s,
      Yields.modify_bind_iff.mpr (Yields.bind_iff.mpr ⟨(), t, htrees, Yields.pure_iff.mpr ⟨rfl, rfl⟩⟩)⟩⟩

theorem advance_yields {set : ResultSet} (hcancel : set.cancelAt = none) (index : Nat) {s : State}
    (hs : s.cancelled = false) : Yields (advance set index) s () s := by
  simp only [advance]
  refine Yields.get_bind_iff.mpr (Yields.lift_bind_iff.mpr ⟨false, ?_, Yields.modify_iff.mpr ?_⟩)
  · simp [ResultSet.advance, hs, hcancel]
  · cases s
    simp_all

theorem exists_readRows_yields {set : ResultSet} (hcancel : set.cancelAt = none)
    {cells : List (List Value)} {index : Nat}
    (h : ∀ row ∈ rowsFrom index cells, m.Readable set.columns row) {s : State}
    (hs : s.cancelled = false) : ∃ ids t, Yields (m.readRows set index cells) s ids t := by
  induction cells generalizing index s with
  | nil =>
    refine ⟨[], s, ?_⟩
    simp only [readRows]
    exact Yields.bind_iff.mpr ⟨(), s, advance_yields hcancel index hs, Yields.pure_iff.mpr ⟨rfl, rfl⟩⟩
  | cons first rest ih =>
    have hsplit : rowsFrom index (first :: rest) = ⟨index, first⟩ :: rowsFrom (index + 1) rest := rfl
    rw [hsplit] at h
    obtain ⟨new, s₁, hfirst, hsame⟩ := exists_readRow_yields (h _ (List.mem_cons_self ..)) s
    obtain ⟨others, t, hothers⟩ := ih (fun row hrow => h row (List.mem_cons_of_mem _ hrow))
      (hsame.trans hs)
    refine ⟨new.toList ++ others, t, ?_⟩
    simp only [readRows]
    exact Yields.bind_iff.mpr ⟨(), s, advance_yields hcancel index hs, Yields.bind_iff.mpr
      ⟨new, s₁, hfirst, Yields.bind_iff.mpr ⟨others, t, hothers, Yields.pure_iff.mpr ⟨rfl, rfl⟩⟩⟩⟩

end EntitySql.Materializer
