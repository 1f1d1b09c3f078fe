import EntitySql.Proofs.Include.Related
import EntitySql.Schema.Catalogue
import Mathlib.Data.List.Nodup

-- The aliases and the columns in JOIN conditions. Every join declares one
-- alias, and its condition is over that one and earlier ones. The planner
-- looks a foreign key up in any case of letters and writes it as the navigation
-- declares it.

namespace EntitySql.Include

def Join.columns (j : Join) : List (Text × Text) := [j.left, j.right]

-- Joins one after the other, each over the aliases in scope and its own.
def InScope : List Text → List Join → Prop
  | _, [] => True
  | scope, j :: rest =>
    (∀ c ∈ j.columns, c.1 ∈ scope ++ [j.aliasName]) ∧ InScope (scope ++ [j.aliasName]) rest

theorem inScope_append {scope : List Text} {first second : List Join} :
    InScope scope (first ++ second) ↔
      InScope scope first ∧ InScope (scope ++ first.map Join.aliasName) second := by
  induction first generalizing scope with
  | nil => simp [InScope]
  | cons j rest ih => simp [InScope, ih, and_assoc]

namespace Node

-- The aliases that are declared for a node, in the order of its joins.
def aliases (n : Node) : List Text := n.junctionAlias?.toList ++ [n.aliasName]

theorem map_aliasName_joinsOf (n : Node) : (joinsOf n).map Join.aliasName = n.aliases := by
  cases hkind : n.navigation.relationship <;> simp [joinsOf, aliases, junctionAlias?, hkind]

theorem eq_of_junctionAlias? {n : Node} {a : Text} (h : n.junctionAlias? = some a) :
    a = n.junctionAlias := by
  rw [junctionAlias?] at h
  split at h
  · exact (Option.some.inj h).symm
  · cases h

theorem mem_aliases {n : Node} {a : Text} :
    a ∈ n.aliases ↔ n.junctionAlias? = some a ∨ a = n.aliasName := by
  simp [aliases]

theorem inScope_joinsOf {n : Node} {scope : List Text} (h : n.parentAlias ∈ scope) :
    InScope scope (joinsOf n) := by
  cases hkind : n.navigation.relationship <;> simp [joinsOf, hkind, InScope, Join.columns, h]

theorem nodup_aliases (n : Node) : n.aliases.Nodup := by
  rw [aliases]
  cases h : n.junctionAlias? with
  | none => simp
  | some a => simp [eq_of_junctionAlias? h, aliasName, n.junctionAlias_ne n.number]

theorem junctionAlias_injective {n m : Node} (h : n.junctionAlias = m.junctionAlias) :
    n.number = m.number := aliasOf_injective (List.append_cancel_left h)

theorem number_eq_of_mem_aliases {n m : Node} {a : Text} (hn : a ∈ n.aliases) (hm : a ∈ m.aliases) :
    n.number = m.number := by
  rcases mem_aliases.mp hn with hn | rfl <;> rcases mem_aliases.mp hm with hm | hm
  · exact junctionAlias_injective ((eq_of_junctionAlias? hn).symm.trans (eq_of_junctionAlias? hm))
  · exact absurd ((eq_of_junctionAlias? hn).symm.trans hm) (n.junctionAlias_ne m.number)
  · exact absurd (eq_of_junctionAlias? hm).symm (m.junctionAlias_ne n.number)
  · exact aliasOf_injective hm

-- The column by which one side of a hop refers to the key of the other, and
-- the entity that maps it.
def foreignKey? (n : Node) : Option (Entity × Text) :=
  match n.navigation.relationship with
  | .reference column => some (n.source, column)
  | .collection column => some (n.target, column)
  | .manyToMany .. => none

-- The navigation writes its foreign key like the column that it means.
def SpellsKey (n : Node) : Prop := ∀ k ∈ n.foreignKey?, k.2 ∈ k.1.fields.map Field.column

instance (n : Node) : Decidable n.SpellsKey :=
  inferInstanceAs (Decidable (∀ k ∈ n.foreignKey?, k.2 ∈ k.1.fields.map Field.column))

end Node

namespace Plan

-- The entity whose table has the alias.
def entityBehind? (p : Plan) (aliasName : Text) : Option Entity :=
  if aliasName = Node.rootAlias then some p.root
  else (p.nodes.find? (·.aliasName = aliasName)).map Node.target

-- A column of a junction table of the plan.
def JunctionColumn (p : Plan) (c : Text × Text) : Prop :=
  ∃ n ∈ p.nodes, n.junctionAlias? = some c.1 ∧ c.2 ∈ n.navigation.relationship.names

-- A column of a field of the entity behind its alias, byte for byte.
def MappedColumn (p : Plan) (c : Text × Text) : Prop :=
  ∃ e, p.entityBehind? c.1 = some e ∧ c.2 ∈ e.fields.map Field.column

variable {registry : Registry} {p : Plan} {n : Node}

-- The aliases that a plan declares: that of the root and those of its joins.
def aliases (p : Plan) : List Text := Node.rootAlias :: p.nodes.flatMap Node.aliases

theorem map_aliasName_joins (p : Plan) :
    Node.rootAlias :: (joins p).map Join.aliasName = p.aliases := by
  rw [joins, List.map_flatMap, aliases]
  simp only [Node.map_aliasName_joinsOf]

theorem Sound.rootAlias_not_mem (h : p.Sound registry) (hn : n ∈ p.nodes) :
    Node.rootAlias ∉ n.aliases := by
  rw [Node.rootAlias_eq, Node.mem_aliases]
  rintro (hjunction | hsame)
  · exact n.junctionAlias_ne 0 (Node.eq_of_junctionAlias? hjunction).symm
  · have hpositive := h.parent_lt hn
    have hzero := Node.aliasOf_injective hsame
    omega

theorem Sound.nodup_aliases (h : p.Sound registry) : p.aliases.Nodup := by
  rw [aliases, List.nodup_cons, List.mem_flatMap, List.nodup_flatMap]
  refine ⟨fun ⟨n, hn, hroot⟩ => h.rootAlias_not_mem hn hroot, fun n _ => n.nodup_aliases,
    h.numbered.increasing.imp fun hlt => List.disjoint_left.mpr fun a hn hm => ?_⟩
  have heq := Node.number_eq_of_mem_aliases hn hm
  omega

-- The joins behind the first nodes find the aliases of their parents declared.
theorem Sound.inScope_behind (h : p.Sound registry) (before : List Node) {after : List Node}
    (hnodes : p.nodes = before ++ after) :
    InScope (Node.rootAlias :: before.flatMap Node.aliases) (after.flatMap joinsOf) := by
  induction after generalizing before with
  | nil => trivial
  | cons n rest ih =>
    have hn : n ∈ p.nodes := by simp [hnodes]
    have hparent : n.parentAlias ∈ Node.rootAlias :: before.flatMap Node.aliases := by
      cases hup : n.parent with
      | none => simp [Node.parentAlias, hup]
      | some k =>
        obtain ⟨hlt, m, hm, rfl, -⟩ := (h.fits n hn).source_of_parent k hup
        have hearlier : m ∈ before := by
          rw [hnodes, List.mem_append] at hm
          refine hm.resolve_right fun hlater => ?_
          have hrest := (List.pairwise_append.mp (hnodes ▸ h.numbered.increasing)).2.1
          rcases List.mem_cons.mp hlater with rfl | hlater
          · omega
          · have hgt := (List.pairwise_cons.mp hrest).1 m hlater
            omega
        rw [Node.parentAlias, hup]
        exact List.mem_cons_of_mem _ (List.mem_flatMap.mpr ⟨m, hearlier, by simp [Node.aliases, Node.aliasName]⟩)
    rw [List.flatMap_cons, inScope_append, Node.map_aliasName_joinsOf]
    have hrest := ih (before ++ [n]) (by simp [hnodes])
    rw [List.flatMap_append, List.flatMap_singleton, ← List.cons_append] at hrest
    exact ⟨Node.inScope_joinsOf hparent, hrest⟩

theorem Sound.inScope_joins (h : p.Sound registry) : InScope [Node.rootAlias] (joins p) :=
  h.inScope_behind [] rfl

theorem Sound.entityBehind?_aliasName (h : p.Sound registry) (hn : n ∈ p.nodes) :
    p.entityBehind? n.aliasName = some n.target := by
  have hne : n.aliasName ≠ Node.rootAlias := by
    rw [Node.rootAlias_eq]
    intro heq
    obtain ⟨i, hi⟩ := List.mem_iff_getElem?.mp hn
    exact Nat.succ_ne_zero i ((h.number i n hi).symm.trans (Node.aliasOf_injective heq))
  obtain ⟨m, hm⟩ : ∃ m, p.nodes.find? (·.aliasName = n.aliasName) = some m :=
    Option.isSome_iff_exists.mp (List.find?_isSome.mpr ⟨n, hn, by simp⟩)
  have hsame : m.aliasName = n.aliasName := by simpa using List.find?_some hm
  obtain rfl := h.eq_of_number_eq (List.mem_of_find?_eq_some hm) hn (Node.aliasOf_injective hsame)
  rw [entityBehind?, if_neg hne, hm]
  rfl

theorem Sound.entityBehind?_parentAlias (h : p.Sound registry) (hn : n ∈ p.nodes) :
    p.entityBehind? n.parentAlias = some n.source := by
  have hfits := h.fits n hn
  cases hparent : n.parent with
  | none => rw [Node.parentAlias, hparent, hfits.source_of_root hparent]; rfl
  | some k =>
    obtain ⟨-, m, hm, rfl, hsource⟩ := hfits.source_of_parent k hparent
    rw [Node.parentAlias, hparent, hsource]
    exact h.entityBehind?_aliasName hm

-- An alias of a junction table is not that of an entity.
theorem JunctionColumn.alias_ne {c : Text × Text} (h : p.JunctionColumn c) (number : Nat) :
    c.1 ≠ Node.aliasOf number := by
  obtain ⟨m, -, halias, -⟩ := h
  rw [Node.eq_of_junctionAlias? halias]
  exact m.junctionAlias_ne number

theorem mappedColumn_keyColumn {e : Entity} {aliasName : Text} (he : p.entityBehind? aliasName = some e)
    (hkey : e.primaryKey?.isSome) : p.MappedColumn (aliasName, keyColumn e) := by
  obtain ⟨f, hf⟩ := Option.isSome_iff_exists.mp hkey
  refine ⟨e, he, ?_⟩
  rw [keyColumn, hf]
  exact List.mem_map_of_mem (Entity.mem_of_primaryKey? hf)

-- The planner finds every foreign key, in some case of letters.
theorem Sound.isSome_column? (h : p.Sound registry) (hn : n ∈ p.nodes) {k : Entity × Text}
    (hk : k ∈ n.foreignKey?) : ∃ f ∈ k.1.fields, Text.sameFolded f.column k.2 = true := by
  have hkeys := checkKeys_eq_ok.mp (h.fits n hn).keys
  rw [Node.foreignKey?] at hk
  split at hk
  · next column hkind =>
    cases hk
    simp only [Joinable, hkind] at hkeys
    exact hkeys.1
  · next column hkind =>
    cases hk
    simp only [Joinable, hkind] at hkeys
    exact hkeys.1
  · cases hk

-- A condition compares columns of junction tables, primary keys and foreign
-- keys.
theorem Sound.columns_joinsOf (h : p.Sound registry) (hn : n ∈ p.nodes) :
    ∀ j ∈ joinsOf n, ∀ c ∈ j.columns, p.JunctionColumn c ∨ p.MappedColumn c ∨
      ∃ k ∈ n.foreignKey?, p.entityBehind? c.1 = some k.1 ∧ c.2 = k.2 := by
  have habove := h.entityBehind?_parentAlias hn
  have halias := h.entityBehind?_aliasName hn
  have hkeys := checkKeys_eq_ok.mp (h.fits n hn).keys
  cases hkind : n.navigation.relationship with
  | reference column =>
    simp only [Joinable, hkind] at hkeys
    have hkey := mappedColumn_keyColumn halias hkeys.2
    simp only [joinsOf, hkind, Join.columns, List.forall_mem_singleton, List.forall_mem_cons,
      Node.foreignKey?]
    exact ⟨.inr (.inr ⟨_, rfl, habove, rfl⟩), .inr (.inl hkey)⟩
  | collection column =>
    simp only [Joinable, hkind] at hkeys
    have hkey := mappedColumn_keyColumn habove hkeys.2
    simp only [joinsOf, hkind, Join.columns, List.forall_mem_singleton, List.forall_mem_cons,
      Node.foreignKey?]
    exact ⟨.inr (.inl hkey), .inr (.inr ⟨_, rfl, halias, rfl⟩)⟩
  | manyToMany junction parentColumn targetColumn =>
    simp only [Joinable, hkind] at hkeys
    have hkey := mappedColumn_keyColumn habove hkeys.1
    have hkey' := mappedColumn_keyColumn halias hkeys.2
    have hjunction : ∀ column ∈ [parentColumn, targetColumn],
        p.JunctionColumn (n.junctionAlias, column) := by
      intro column hcolumn
      refine ⟨n, hn, by rw [Node.junctionAlias?, hkind], ?_⟩
      rw [hkind, Relationship.names]
      exact List.mem_cons_of_mem junction hcolumn
    simp only [joinsOf, hkind, Join.columns, List.forall_mem_cons]
    exact ⟨⟨.inr (.inl hkey), .inl (hjunction _ (by simp)), by simp⟩,
      ⟨.inl (hjunction _ (by simp)), .inr (.inl hkey'), by simp⟩, by simp⟩

-- Every foreign key stands in a condition as the navigation declares it.
theorem Sound.exists_column_of_foreignKey? (h : p.Sound registry) (hn : n ∈ p.nodes)
    {k : Entity × Text} (hk : k ∈ n.foreignKey?) :
    ∃ j ∈ joinsOf n, ∃ c ∈ j.columns, ¬p.JunctionColumn c ∧ p.entityBehind? c.1 = some k.1 ∧
      c.2 = k.2 := by
  rw [Node.foreignKey?] at hk
  split at hk
  · next column hkind =>
    cases hk
    refine ⟨_, by rw [joinsOf, hkind]; exact List.mem_cons_self .., (n.parentAlias, column),
      by simp [Join.columns], fun hjunction => ?_, h.entityBehind?_parentAlias hn, rfl⟩
    exact hjunction.alias_ne _ n.parentAlias_eq
  · next column hkind =>
    cases hk
    refine ⟨_, by rw [joinsOf, hkind]; exact List.mem_cons_self .., (n.aliasName, column),
      by simp [Join.columns], fun hjunction => ?_, h.entityBehind?_aliasName hn, rfl⟩
    exact hjunction.alias_ne _ rfl
  · cases hk

-- The columns of JOIN conditions are mapped in some case of letters, and
-- byte for byte if and only if the navigations spell their foreign keys so.
theorem conditions_name_columns {maxDepth : Int} {root : Entity} {paths : List Text}
    (h : ofPaths registry maxDepth root paths = .ok p) :
    (∀ j ∈ joins p, ∀ c ∈ j.columns, p.JunctionColumn c ∨
      ∃ e, p.entityBehind? c.1 = some e ∧ ∃ f ∈ e.fields, Text.sameFolded f.column c.2 = true) ∧
    ((∀ j ∈ joins p, ∀ c ∈ j.columns, p.JunctionColumn c ∨ p.MappedColumn c) ↔
      ∀ n ∈ p.nodes, n.SpellsKey) := by
  obtain ⟨hsound, -⟩ := sound_ofPaths h
  simp only [joins, List.forall_mem_flatMap]
  refine ⟨fun n hn j hj c hc => ?_, fun hmapped n hn k hk => ?_, fun hspells n hn j hj c hc => ?_⟩
  · rcases hsound.columns_joinsOf hn j hj c hc with hjunction | ⟨e, he, hcolumn⟩ | ⟨k, hk, he, hcolumn⟩
    · exact .inl hjunction
    · obtain ⟨f, hf, heq⟩ := List.mem_map.mp hcolumn
      exact .inr ⟨e, he, f, hf, by simp [heq, Text.sameFolded]⟩
    · exact .inr ⟨k.1, he, hcolumn ▸ hsound.isSome_column? hn hk⟩
  · obtain ⟨j, hj, c, hc, hno, he, hcolumn⟩ := hsound.exists_column_of_foreignKey? hn hk
    obtain ⟨e, he', hmem⟩ := (hmapped n hn j hj c hc).resolve_left hno
    obtain rfl := Option.some.inj (he.symm.trans he')
    exact hcolumn ▸ hmem
  · rcases hsound.columns_joinsOf hn j hj c hc with hjunction | hmapped | ⟨k, hk, he, hcolumn⟩
    · exact .inl hjunction
    · exact .inr hmapped
    · exact .inr ⟨k.1, he, hcolumn ▸ hspells n hn k hk⟩

-- The children of a sample are joined by PARENT_UID, but the column of the
-- samples is parent_uid.
theorem conditions_name_columns_sampleChildren :
    ∃ p, ofPaths Catalogue.registry 5 Catalogue.sampleEntity ["Children"] = .ok p ∧
      (joins p).map Join.columns = [[(Text.ofString "t0", Text.ofString "uid"), ("t1", "PARENT_UID")]] ∧
      p.entityBehind? "t1" = some Catalogue.sampleEntity ∧
      Text.ofString "PARENT_UID" ∉ Catalogue.sampleEntity.fields.map Field.column ∧
      ¬∀ j ∈ joins p, ∀ c ∈ j.columns, p.JunctionColumn c ∨ p.MappedColumn c := by
  obtain ⟨p, hplan, hjoins, hbehind, hspells⟩ :
      ∃ p, ofPaths Catalogue.registry 5 Catalogue.sampleEntity ["Children"] = .ok p ∧
        (joins p).map Join.columns =
          [[(Text.ofString "t0", Text.ofString "uid"), ("t1", "PARENT_UID")]] ∧
        p.entityBehind? "t1" = some Catalogue.sampleEntity ∧ ¬∀ n ∈ p.nodes, n.SpellsKey :=
    ⟨_, rfl, by decide, by decide, by decide⟩
  exact ⟨p, hplan, hjoins, hbehind, by decide,
    fun hmapped => hspells ((conditions_name_columns hplan).2.mp hmapped)⟩

end Plan

end EntitySql.Include
