import EntitySql.Proofs.Rows.Graph

-- The visits that a row makes: to the root, and down the trees of includes
-- as long as it shows their entities.

namespace EntitySql.Materializer

open Include (Node Tree Plan)
open Visit (firstAt keysAt keysBelow)

def rootBinding (m : Materializer) (columns : List Column) : EntityBinding :=
  .bind columns m.root none

def nodeBinding (columns : List Column) (n : Node) : EntityBinding :=
  .bind columns n.target (some n.aliasName)

-- The binding of the last node of a chain, or of the root.
def binding (m : Materializer) (columns : List Column) (chain : List Node) : EntityBinding :=
  match chain.getLast? with
  | none => m.rootBinding columns
  | some n => nodeBinding columns n

-- The key in the key column of a row.
def key? (m : Materializer) (b : EntityBinding) (row : Row) : Option Value := do
  let column ← b.key?
  if (row.cell column.ordinal).isNull then none
  else (row.readColumn m.converter column).toOption

-- The key of the entity that a row shows for a node. Where all columns of
-- the node are null it shows none.
def shownKey? (m : Materializer) (columns : List Column) (row : Row) (n : Node) : Option Value :=
  if row.isUnmatched (nodeBinding columns n) then none else m.key? (nodeBinding columns n) row

-- The key at the end of a chain below a key, if the row shows all of it.
def descend (m : Materializer) (columns : List Column) (row : Row) (key : Value) :
    List Node → Option Value
  | [] => some key
  | n :: rest => (m.shownKey? columns row n).bind fun key => m.descend columns row key rest

def chainKey? (m : Materializer) (columns : List Column) (row : Row) (chain : List Node) :
    Option Value :=
  (m.key? (m.rootBinding columns) row).bind fun key => m.descend columns row key chain

def visitOf (m : Materializer) (columns : List Column) (row : Row) (parentKey key : Value) (n : Node) :
    Visit :=
  ⟨some n.number, parentKey, key, row.readInstance m.converter (nodeBinding columns n)⟩

def rootVisit (m : Materializer) (columns : List Column) (row : Row) (key : Value) : Visit :=
  ⟨none, .null, key, row.readInstance m.converter (m.rootBinding columns)⟩

mutual

def treeVisits (m : Materializer) (columns : List Column) (row : Row) (parentKey : Value) :
    Tree → List Visit
  | .node n children =>
    match m.shownKey? columns row n with
    | none => []
    | some key => m.visitOf columns row parentKey key n :: m.forestVisits columns row key children

def forestVisits (m : Materializer) (columns : List Column) (row : Row) (parentKey : Value) :
    List Tree → List Visit
  | [] => []
  | tree :: rest => m.treeVisits columns row parentKey tree ++ m.forestVisits columns row parentKey rest

end

def rowVisits (m : Materializer) (columns : List Column) (row : Row) : List Visit :=
  match m.key? (m.rootBinding columns) row with
  | none => []
  | some key => m.rootVisit columns row key :: m.forestVisits columns row key m.trees

variable {m : Materializer} {columns : List Column} {row : Row}

theorem descend_append_singleton (key : Value) (chain : List Node) (n : Node) :
    m.descend columns row key (chain ++ [n]) =
      (m.descend columns row key chain).bind fun _ => m.shownKey? columns row n := by
  induction chain generalizing key with
  | nil => cases hn : m.shownKey? columns row n <;> simp [descend, hn]
  | cons a rest ih => cases ha : m.shownKey? columns row a <;> simp [descend, ha, ih]

theorem chainKey?_append_singleton (chain : List Node) (n : Node) :
    m.chainKey? columns row (chain ++ [n]) =
      (m.chainKey? columns row chain).bind fun _ => m.shownKey? columns row n := by
  cases hroot : m.key? (m.rootBinding columns) row <;>
    simp [chainKey?, hroot, descend_append_singleton]

theorem binding_append_singleton (m : Materializer) (columns : List Column) (chain : List Node)
    (n : Node) : m.binding columns (chain ++ [n]) = nodeBinding columns n := by
  simp [binding]

theorem forestVisits_append (parentKey : Value) (trees more : List Tree) :
    m.forestVisits columns row parentKey (trees ++ more) =
      m.forestVisits columns row parentKey trees ++ m.forestVisits columns row parentKey more := by
  induction trees with
  | nil => rfl
  | cons tree rest ih => simp [forestVisits, ih]

mutual

theorem site_of_mem_treeVisits {parentKey : Value} {v : Visit} (tree : Tree)
    (hv : v ∈ m.treeVisits columns row parentKey tree) :
    ∃ n ∈ tree.flatten, v.site = some n.number := by
  match tree with
  | .node n children =>
    rw [treeVisits] at hv
    split at hv
    · cases hv
    · rcases List.mem_cons.mp hv with rfl | hv
      · exact ⟨n, by simp [Tree.flatten], rfl⟩
      · obtain ⟨a, ha, hsite⟩ := site_of_mem_forestVisits children hv
        exact ⟨a, by simp [Tree.flatten, ha], hsite⟩

theorem site_of_mem_forestVisits {parentKey : Value} {v : Visit} (trees : List Tree)
    (hv : v ∈ m.forestVisits columns row parentKey trees) :
    ∃ n ∈ Include.flattenAll trees, v.site = some n.number := by
  match trees with
  | [] => cases hv
  | tree :: rest =>
    rw [forestVisits, List.mem_append] at hv
    rcases hv with hv | hv
    · obtain ⟨a, ha, hsite⟩ := site_of_mem_treeVisits tree hv
      exact ⟨a, by simp [Include.flattenAll, ha], hsite⟩
    · obtain ⟨a, ha, hsite⟩ := site_of_mem_forestVisits rest hv
      exact ⟨a, by simp [Include.flattenAll, ha], hsite⟩

end

-- Trees that lack a node are never visited for it.
theorem filter_forestVisits_eq_nil {trees : List Tree} {n : Node}
    (hno : ∀ a ∈ Include.flattenAll trees, a.number ≠ n.number) (parentKey : Value) :
    (m.forestVisits columns row parentKey trees).filter (fun v => v.site = some n.number) = [] := by
  simp only [List.filter_eq_nil_iff, decide_eq_true_eq]
  intro v hv hsite
  obtain ⟨a, ha, hat⟩ := site_of_mem_forestVisits trees hv
  exact hno a ha (Option.some.inj (hat.symm.trans hsite))

-- Of trees without repeated numbers one alone is visited for a node in it.
theorem filter_forestVisits_eq_tree {trees : List Tree} {tree : Tree} (htree : tree ∈ trees)
    (hnodup : ((Include.flattenAll trees).map Node.number).Nodup) {n : Node} (hn : n ∈ tree.flatten)
    (parentKey : Value) :
    (m.forestVisits columns row parentKey trees).filter (fun v => v.site = some n.number) =
      (m.treeVisits columns row parentKey tree).filter fun v => v.site = some n.number := by
  obtain ⟨before, after, rfl⟩ := List.append_of_mem htree
  rw [Include.flattenAll_eq_flatMap, List.flatMap_append, List.flatMap_cons,
    ← Include.flattenAll_eq_flatMap, ← Include.flattenAll_eq_flatMap, List.map_append, List.map_append,
    List.nodup_append, List.nodup_append] at hnodup
  obtain ⟨-, ⟨-, -, hafter⟩, hbefore⟩ := hnodup
  have hmem := List.mem_map_of_mem (f := Node.number) hn
  have hno_before : ∀ a ∈ Include.flattenAll before, a.number ≠ n.number := by
    intro a ha
    exact hbefore _ (List.mem_map_of_mem ha) _ (List.mem_append_left _ hmem)
  have hno_after : ∀ a ∈ Include.flattenAll after, a.number ≠ n.number := by
    intro a ha heq
    exact hafter _ hmem _ (List.mem_map_of_mem ha) heq.symm
  rw [forestVisits_append, forestVisits, List.filter_append, List.filter_append,
    filter_forestVisits_eq_nil hno_before, filter_forestVisits_eq_nil hno_after, List.nil_append,
    List.append_nil]

theorem nodup_flatten_of_mem {trees : List Tree} {tree : Tree} (htree : tree ∈ trees)
    (hnodup : ((Include.flattenAll trees).map Node.number).Nodup) :
    (tree.flatten.map Node.number).Nodup := by
  obtain ⟨before, after, rfl⟩ := List.append_of_mem htree
  rw [Include.flattenAll_eq_flatMap, List.flatMap_append, List.flatMap_cons, List.map_append,
    List.map_append, List.nodup_append, List.nodup_append] at hnodup
  exact hnodup.2.1.1

theorem mem_flattenAll_of_leads {trees : List Tree} {chain : List Node} {n : Node}
    (h : Include.Leads trees (chain ++ [n])) : n ∈ Include.flattenAll trees := by
  induction chain generalizing trees with
  | nil =>
    obtain ⟨children, hmem, -⟩ := h
    rw [Include.flattenAll_eq_flatMap]
    exact List.mem_flatMap.mpr ⟨_, hmem, by simp [Tree.flatten]⟩
  | cons a rest ih =>
    obtain ⟨children, hmem, hrest⟩ := h
    rw [Include.flattenAll_eq_flatMap]
    exact List.mem_flatMap.mpr ⟨_, hmem, by simp [Tree.flatten, ih hrest]⟩

-- A row visits the end of a chain once if it shows all of the chain, and
-- else not at all.
theorem filter_forestVisits {trees : List Tree} {chain : List Node} {n : Node}
    (h : Include.Leads trees (chain ++ [n]))
    (hnodup : ((Include.flattenAll trees).map Node.number).Nodup) (parentKey : Value) :
    (m.forestVisits columns row parentKey trees).filter (fun v => v.site = some n.number) =
      ((m.descend columns row parentKey chain).bind fun key =>
        (m.shownKey? columns row n).map fun own => m.visitOf columns row key own n).toList := by
  induction chain generalizing trees parentKey with
  | nil =>
    obtain ⟨children, hmem, -⟩ := h
    have htree := nodup_flatten_of_mem hmem hnodup
    rw [filter_forestVisits_eq_tree hmem hnodup (by simp [Tree.flatten]), treeVisits]
    rw [Tree.flatten, List.map_cons, List.nodup_cons] at htree
    have hbelow : ∀ a ∈ Include.flattenAll children, a.number ≠ n.number := by
      intro a ha heq
      exact htree.1 (heq ▸ List.mem_map_of_mem ha)
    cases hkey : m.shownKey? columns row n with
    | none => simp [descend]
    | some key =>
      have hrest : (m.forestVisits columns row key children).filter (fun v => v.site = some n.number) =
          [] := filter_forestVisits_eq_nil hbelow key
      simp [descend, visitOf, hrest]
  | cons a rest ih =>
    obtain ⟨children, hmem, hrest⟩ := h
    have htree := nodup_flatten_of_mem hmem hnodup
    have hn := mem_flattenAll_of_leads hrest
    rw [filter_forestVisits_eq_tree hmem hnodup (by simp [Tree.flatten, hn]), treeVisits]
    rw [Tree.flatten, List.map_cons, List.nodup_cons] at htree
    have hne : a.number ≠ n.number := by
      intro heq
      exact htree.1 (heq ▸ List.mem_map_of_mem hn)
    cases hkey : m.shownKey? columns row a with
    | none => simp [descend, hkey]
    | some key =>
      have hbelow := ih hrest htree.2 key
      simp only [descend, hkey, Option.bind_some]
      rw [List.filter_cons_of_neg (by simp [visitOf, hne])]
      exact hbelow

end EntitySql.Materializer
