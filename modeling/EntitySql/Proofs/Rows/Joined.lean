import EntitySql.Proofs.Rows.Binding
import EntitySql.Proofs.Rows.Outcome
import EntitySql.Proofs.Rows.Progress
import Mathlib.Data.List.Nodup

-- The joined rows of a plan, read as a result set, give back the records of
-- the tables and their relations.

namespace EntitySql

open Include (Node Plan Joined SelectedColumn projection keyOf related reached Shown ShownBelow)

-- Tables whose cells have the mapped types and whose keys are present and
-- differ.
structure Database.WellFormed (db : Database) (registry : Registry) : Prop where
  cells : ∀ e ∈ registry.entities, ∀ r ∈ db e.table, Materializer.Fits e r
  present : ∀ e ∈ registry.entities, e.primaryKey?.isSome → ∀ r ∈ db e.table, (keyOf e r).isNull = false
  differ : ∀ e ∈ registry.entities, e.primaryKey?.isSome →
    (db e.table).Pairwise fun a b => (keyOf e a).same (keyOf e b) = false

-- For a database with a few tables that are not empty.
theorem Database.wellFormed_of_filled {db : Database} {registry : Registry} {filled : List Entity}
    (hempty : ∀ e ∈ registry.entities, e ∈ filled ∨ (db e.table).isEmpty)
    (hcells : ∀ e ∈ filled, ∀ r ∈ db e.table, Materializer.Fits e r)
    (hpresent : ∀ e ∈ filled, ∀ r ∈ db e.table, (keyOf e r).isNull = false)
    (hdiffer : ∀ e ∈ filled,
      (db e.table).Pairwise fun a b => (keyOf e a).same (keyOf e b) = false) :
    db.WellFormed registry := by
  have hcases : ∀ e ∈ registry.entities, e ∈ filled ∨ db e.table = [] := fun e he =>
    (hempty e he).imp_right List.isEmpty_iff.mp
  constructor
  · intro e he r hr
    rcases hcases e he with hfilled | hnone
    · exact hcells e hfilled r hr
    · rw [hnone] at hr
      cases hr
  · intro e he _ r hr
    rcases hcases e he with hfilled | hnone
    · exact hpresent e hfilled r hr
    · rw [hnone] at hr
      cases hr
  · intro e he _
    rcases hcases e he with hfilled | hnone
    · exact hdiffer e hfilled
    · rw [hnone]
      exact List.Pairwise.nil

-- A registry whose plans can be joined: entities keep their columns apart,
-- and whatever a navigation may lead to has a key.
structure Registry.Joinable (registry : Registry) : Prop where
  separate : ∀ e ∈ registry.entities, Include.Separate e
  regular : ∀ e ∈ registry.entities, Materializer.Regular e
  keyed : ∀ e ∈ registry.entities, ∀ n ∈ e.navigations, ∀ target, registry.get n.target = .ok target →
    Plan.checkKeys e target n = .ok () → target.primaryKey?.isSome

namespace Include.Plan

-- The joined rows as a result set. The type names may be those of any
-- database.
def resultSet (p : Plan) (typeName : SelectedColumn → Text) (rows : List Joined) : ResultSet where
  columns := (projection p).map fun c => ⟨c.resultName, typeName c⟩
  rows := rows.map fun row => (projection p).map fun c => row.value c.column

-- Type names that send no column to another conversion than its field.
structure Typed (p : Plan) (typeName : SelectedColumn → Text) : Prop where
  root : ∀ f ∈ p.root.fields, Conversion.Route.classify f.type (typeName (rootColumn f)) =
    Conversion.Route.classify f.type []
  nodes : ∀ n ∈ p.nodes, ∀ f ∈ n.target.fields, Conversion.Route.classify f.type
    (typeName (nodeColumn n f)) = Conversion.Route.classify f.type []

variable {registry : Registry} {p : Plan}

-- Every entity of a plan is registered and has a key.
theorem Sound.entityAt_spec (h : p.Sound registry) (hjoinable : registry.Joinable)
    (hroot : p.root ∈ registry.entities) (hkey : p.root.primaryKey?.isSome) {chain : List Node}
    (hchain : p.Chain chain) :
    p.entityAt chain ∈ registry.entities ∧ (p.entityAt chain).primaryKey?.isSome := by
  cases chain using List.reverseRecOn with
  | nil => exact ⟨hroot, hkey⟩
  | append_singleton init n =>
    have hn := (chain_append_singleton.mp hchain).2.1
    have hfits := h.fits n hn
    have htarget : p.entityAt (init ++ [n]) = n.target := by simp [entityAt]
    rw [htarget]
    exact ⟨h.target_mem hn, hjoinable.keyed n.source (h.source_mem hroot hn) n.navigation
      (h.navigation_mem hn) n.target hfits.target hfits.keys⟩

end Include.Plan

namespace Materializer

theorem bindField_of_mem {columns : List SelectedColumn} {typeName : SelectedColumn → Text}
    (hnames : columns.Pairwise fun a b => Text.sameFolded a.resultName b.resultName = false)
    {aliasName : Option Text} {f : Field} {c : SelectedColumn} (hc : c ∈ columns)
    (hname : c.resultName = EntityBinding.columnName aliasName f) :
    ∃ i, columns[i]? = some c ∧
      EntityBinding.bindField (columns.map fun c => ⟨c.resultName, typeName c⟩) aliasName f =
        some ⟨f, i, typeName c⟩ := by
  obtain ⟨i, hi⟩ := List.mem_iff_getElem?.mp hc
  refine ⟨i, hi, ?_⟩
  have hdiffer : (columns.map fun c => (⟨c.resultName, typeName c⟩ : Column)).Pairwise fun a b =>
      Text.sameFolded a.name b.name = false := List.pairwise_map.mpr hnames
  exact EntityBinding.bindField_of_getElem? hdiffer (c := ⟨c.resultName, typeName c⟩)
    (by rw [List.getElem?_map, hi]; rfl) hname

-- The columns that are selected for an entity behind an alias are bound to
-- the cells of the record behind it.
theorem binds_of_selected {columns : List SelectedColumn} {typeName : SelectedColumn → Text}
    (hnames : columns.Pairwise fun a b => Text.sameFolded a.resultName b.resultName = false)
    {e : Entity} {aliasName : Option Text} {behind : Text} (select : Field → SelectedColumn)
    (hmem : ∀ f ∈ e.fields, select f ∈ columns)
    (hname : ∀ f, (select f).resultName = EntityBinding.columnName aliasName f)
    (hcolumn : ∀ f, (select f).column = (behind, f.column))
    (htypes : ∀ f ∈ e.fields, Conversion.Route.classify f.type (typeName (select f)) =
      Conversion.Route.classify f.type [])
    {joined : Joined} {row : Row} (hcells : row.cells = columns.map fun c => joined.value c.column) :
    Binds (EntityBinding.bind (columns.map fun c => ⟨c.resultName, typeName c⟩) e aliasName) e row
      (joined behind) := by
  have hbind : ∀ f ∈ e.fields, ∃ i, columns[i]? = some (select f) ∧
      EntityBinding.bindField (columns.map fun c => ⟨c.resultName, typeName c⟩) aliasName f =
        some ⟨f, i, typeName (select f)⟩ :=
    fun f hf => bindField_of_mem hnames (hmem f hf) (hname f)
  have hbound : ∀ c ∈ (EntityBinding.bind (columns.map fun c => ⟨c.resultName, typeName c⟩) e
      aliasName).columns, ∃ f ∈ e.fields, ∃ i, columns[i]? = some (select f) ∧
        c = ⟨f, i, typeName (select f)⟩ := by
    intro c hc
    obtain ⟨f, hf, hfc⟩ := List.mem_filterMap.mp hc
    obtain ⟨i, hi, hfi⟩ := hbind f hf
    rw [hfi, Option.some.injEq] at hfc
    exact ⟨f, hf, i, hi, hfc.symm⟩
  constructor
  case entity => rfl
  case fields =>
    have hsame : ∀ fields : List Field, (∀ f ∈ fields, f ∈ e.fields) →
        (fields.filterMap (EntityBinding.bindField (columns.map fun c => ⟨c.resultName, typeName c⟩)
          aliasName)).map (·.field) = fields := by
      intro fields hfields
      induction fields with
      | nil => rfl
      | cons f rest ih =>
        obtain ⟨i, -, hfi⟩ := hbind f (hfields f (List.mem_cons_self ..))
        rw [List.filterMap_cons_some hfi, List.map_cons, ih fun g hg => hfields g (List.mem_cons_of_mem f hg)]
    exact hsame e.fields fun f hf => hf
  case cells =>
    intro c hc
    obtain ⟨f, -, i, hi, rfl⟩ := hbound c hc
    rw [Row.cell, hcells, List.getD_eq_getElem?_getD, List.getElem?_map, hi, Option.map_some,
      Option.getD_some, Joined.value, hcolumn]
  case routes =>
    intro c hc
    obtain ⟨f, hf, i, -, rfl⟩ := hbound c hc
    exact htypes f hf

-- The materializer of a plan.
def ofPlan (hashes : HashFunctions) (p : Plan) : Materializer where
  root := p.root
  converter := {}
  trees := p.trees
  same := Value.sameKey hashes

-- The joined rows of a plan over tables, in some order.
structure Joins (registry : Registry) (db : Database) (p : Plan) (typeName : SelectedColumn → Text)
    (rows : List Joined) : Prop where
  joinable : registry.Joinable
  sound : p.Sound registry
  root : p.root ∈ registry.entities
  key : p.root.primaryKey?.isSome
  tables : db.WellFormed registry
  typed : p.Typed typeName
  rows : rows.Perm (p.joined db)

namespace Joins

variable (hashes : HashFunctions) {registry : Registry} {db : Database} {p : Plan}
  {typeName : SelectedColumn → Text} {rows page : List Joined} {chain : List Node} {n : Node}
  {row : Row} {joined : Joined} {r other : Record}

theorem entity_mem (h : Joins registry db p typeName rows) (hchain : p.Chain chain) :
    p.entityAt chain ∈ registry.entities ∧ (p.entityAt chain).primaryKey?.isSome :=
  h.sound.entityAt_spec h.joinable h.root h.key hchain

theorem names (h : Joins registry db p typeName rows) :
    (projection p).Pairwise fun a b => Text.sameFolded a.resultName b.resultName = false := by
  have hroot := h.joinable.separate _ h.root
  refine Include.pairwise_projection h.sound.numbered.increasing hroot.columns
    (fun f hf => hroot.isAliased_eq_false hf) ?_
  intro n hn
  exact (h.joinable.separate _ (h.sound.target_mem hn)).columns

theorem binds (h : Joins registry db p typeName rows) (hchain : p.Chain chain)
    (hcells : row.cells = (projection p).map fun c => joined.value c.column) :
    Binds ((ofPlan hashes p).binding (p.resultSet typeName rows).columns chain) (p.entityAt chain) row
      (joined.recordAt chain) := by
  cases chain using List.reverseRecOn with
  | nil =>
    refine binds_of_selected h.names Include.rootColumn ?_ (fun _ => rfl) (fun f => ?_) h.typed.root hcells
    · intro f hf
      exact List.mem_append_left _ (List.mem_map_of_mem hf)
    · rw [Include.rootColumn, Node.rootAlias_eq]
      rfl
  | append_singleton init n =>
    have hn := (Plan.chain_append_singleton.mp hchain).2.1
    have hrecord : joined.recordAt (init ++ [n]) = joined n.aliasName := by
      rw [Joined.recordAt, Include.site_append_singleton]
      rfl
    rw [hrecord, binding_append_singleton, Plan.entityAt_append_singleton]
    refine binds_of_selected h.names (Include.nodeColumn n) ?_ (fun _ => rfl) (fun _ => rfl)
      (h.typed.nodes n hn) hcells
    intro f hf
    exact List.mem_append_right _ (List.mem_flatMap.mpr ⟨n, hn, List.mem_map_of_mem hf⟩)

theorem mem_table_of_reached (hreached : r ∈ reached db p.root chain) : r ∈ db (p.entityAt chain).table := by
  cases chain using List.reverseRecOn with
  | nil => exact hreached
  | append_singleton init n =>
    obtain ⟨_, -, hrelated⟩ := Include.mem_reached_append_singleton.mp hreached
    rw [Plan.entityAt_append_singleton]
    exact (List.mem_filter.mp hrelated).1

theorem mem_table (h : Joins registry db p typeName rows) (hchain : p.Chain chain)
    (hjoined : joined ∈ rows) (hr : joined.recordAt chain = some r) : r ∈ db (p.entityAt chain).table :=
  mem_table_of_reached ((h.sound.mem_reached_iff hchain).mpr ⟨joined, h.rows.mem_iff.mp hjoined, hr⟩)

-- Keys are integers or identifiers, and such are the same key only if they
-- are equal.
theorem key_kind (h : Joins registry db p typeName rows) (hchain : p.Chain chain)
    (hr : r ∈ db (p.entityAt chain).table) :
    (∃ n, keyOf (p.entityAt chain) r = .int n) ∨ ∃ u, keyOf (p.entityAt chain) r = .uuid u := by
  obtain ⟨hmem, hkey⟩ := h.entity_mem hchain
  obtain ⟨f, hf⟩ := Option.isSome_iff_exists.mp hkey
  have hcell : keyOf (p.entityAt chain) r = r.cell f.column := by simp [keyOf, Include.keyColumn, hf]
  have hpresent := h.tables.present _ hmem hkey r hr
  rw [hcell] at hpresent ⊢
  have hholds := (h.tables.cells _ hmem r hr f (Entity.mem_of_primaryKey? hf)).resolve_left (by simp [hpresent])
  rcases (h.joinable.regular _ hmem).key f hf with hmember | hmember <;> rw [hmember] at hholds <;>
    cases hvalue : r.cell f.column <;> rw [hvalue] at hholds <;> first | cases hholds; done | simp

theorem plain_key (h : Joins registry db p typeName rows) (hchain : p.Chain chain)
    (hr : r ∈ db (p.entityAt chain).table) :
    (keyOf (p.entityAt chain) r).holdsNan = false ∧
      (keyOf (p.entityAt chain) r).holdsDocument = false := by
  rcases h.key_kind hchain hr with ⟨n, hn⟩ | ⟨u, hu⟩
  · rw [hn]
    exact ⟨rfl, rfl⟩
  · rw [hu]
    exact ⟨rfl, rfl⟩

theorem nodup_keys (h : Joins registry db p typeName rows) (hchain : p.Chain chain) :
    ((db (p.entityAt chain).table).map (keyOf (p.entityAt chain))).Nodup := by
  obtain ⟨hmem, hkey⟩ := h.entity_mem hchain
  rw [List.Nodup, List.pairwise_map]
  refine (h.tables.differ _ hmem hkey).imp_of_mem fun {a b} ha hb hdiffer heq => ?_
  rw [← heq] at hdiffer
  rcases h.key_kind hchain ha with ⟨n, hn⟩ | ⟨u, hu⟩
  · simp [hn, Value.same] at hdiffer
  · simp [hu, Value.same] at hdiffer

theorem sameKey_iff (h : Joins registry db p typeName rows) (hchain : p.Chain chain)
    (hr : r ∈ db (p.entityAt chain).table) (hother : other ∈ db (p.entityAt chain).table) :
    (keyOf (p.entityAt chain) r).sameKey hashes (keyOf (p.entityAt chain) other) = true ↔ r = other := by
  have heq : (keyOf (p.entityAt chain) r).sameKey hashes (keyOf (p.entityAt chain) other) = true ↔
      keyOf (p.entityAt chain) r = keyOf (p.entityAt chain) other := by
    rcases h.key_kind hchain hr with ⟨n, hn⟩ | ⟨u, hu⟩ <;>
      rcases h.key_kind hchain hother with ⟨n', hn'⟩ | ⟨u', hu'⟩ <;>
      simp_all [Value.sameKey, Value.same]
  rw [heq]
  constructor
  · exact List.inj_on_of_nodup_map (h.nodup_keys hchain) hr hother
  · rintro rfl
    rfl

-- What is bound in a row of the result set is a record of the table, and it
-- fits the entity.
theorem fits (h : Joins registry db p typeName rows) (hchain : p.Chain chain)
    (hr : r ∈ db (p.entityAt chain).table) :
    Regular (p.entityAt chain) ∧ Fits (p.entityAt chain) r ∧ (keyOf (p.entityAt chain) r).isNull = false := by
  obtain ⟨hmem, hkey⟩ := h.entity_mem hchain
  exact ⟨h.joinable.regular _ hmem, h.tables.cells _ hmem r hr, h.tables.present _ hmem hkey r hr⟩

theorem key?_eq (h : Joins registry db p typeName rows) (hchain : p.Chain chain) (hjoined : joined ∈ rows)
    (hcells : row.cells = (projection p).map fun c => joined.value c.column) :
    (ofPlan hashes p).key? ((ofPlan hashes p).binding (p.resultSet typeName rows).columns chain) row =
      (joined.recordAt chain).map (keyOf (p.entityAt chain)) := by
  have hbinds := h.binds hashes hchain hcells
  obtain ⟨f, hf⟩ := Option.isSome_iff_exists.mp (h.entity_mem hchain).2
  cases hrecord : joined.recordAt chain with
  | none =>
    rw [hrecord] at hbinds
    exact hbinds.shows_nothing
  | some r =>
    rw [hrecord] at hbinds
    obtain ⟨hregular, hfits, hpresent⟩ := h.fits hchain (h.mem_table hchain hjoined hrecord)
    exact hbinds.shows_key hregular hfits rfl hf hpresent

theorem isUnmatched_eq (h : Joins registry db p typeName rows) (hchain : p.Chain chain)
    (hjoined : joined ∈ rows) (hcells : row.cells = (projection p).map fun c => joined.value c.column) :
    row.isUnmatched ((ofPlan hashes p).binding (p.resultSet typeName rows).columns chain) =
      (joined.recordAt chain).isNone := by
  have hbinds := h.binds hashes hchain hcells
  obtain ⟨f, hf⟩ := Option.isSome_iff_exists.mp (h.entity_mem hchain).2
  cases hrecord : joined.recordAt chain with
  | none =>
    rw [hrecord] at hbinds
    exact hbinds.isUnmatched_none
  | some r =>
    rw [hrecord] at hbinds
    exact hbinds.isUnmatched_some hf (h.fits hchain (h.mem_table hchain hjoined hrecord)).2.2

theorem shownKey?_eq (h : Joins registry db p typeName rows) (hchain : p.Chain (chain ++ [n]))
    (hjoined : joined ∈ rows) (hcells : row.cells = (projection p).map fun c => joined.value c.column) :
    (ofPlan hashes p).shownKey? (p.resultSet typeName rows).columns row n =
      (joined.recordAt (chain ++ [n])).map (keyOf n.target) := by
  have hkey := h.key?_eq hashes hchain hjoined hcells
  have hmatched := h.isUnmatched_eq hashes hchain hjoined hcells
  rw [binding_append_singleton] at hkey hmatched
  rw [Plan.entityAt_append_singleton] at hkey
  rw [shownKey?, hmatched, hkey]
  cases joined.recordAt (chain ++ [n]) <;> rfl

-- A row shows the keys of the records that are joined in it.
theorem chainKey?_eq (h : Joins registry db p typeName rows) (hchain : p.Chain chain)
    (hjoined : joined ∈ rows) (hcells : row.cells = (projection p).map fun c => joined.value c.column) :
    (ofPlan hashes p).chainKey? (p.resultSet typeName rows).columns row chain =
      (joined.recordAt chain).map (keyOf (p.entityAt chain)) := by
  induction chain using List.reverseRecOn with
  | nil =>
    have hroot := h.key?_eq hashes hchain hjoined hcells
    rw [← hroot, chainKey?]
    simp only [descend, Option.bind_fun_some]
    rfl
  | append_singleton init n ih =>
    obtain ⟨hinit, hn, hparent⟩ := Plan.chain_append_singleton.mp hchain
    rw [chainKey?_append_singleton, ih hinit, h.shownKey?_eq hashes hchain hjoined hcells,
      Plan.entityAt_append_singleton]
    obtain ⟨hup, hself⟩ := Plan.recordAt_append_singleton joined hparent
    cases hrecord : joined.recordAt (init ++ [n]) with
    | none => simp
    | some r =>
      rw [hself] at hrecord
      obtain ⟨r₀, hr₀, -⟩ := h.sound.related_of_joined hn (h.rows.mem_iff.mp hjoined) hrecord
      rw [hup, hr₀]
      rfl

theorem exists_joined {index : Nat} (hrow : row ∈ rowsFrom index (p.resultSet typeName rows).rows) :
    ∃ joined ∈ rows, row.cells = (projection p).map fun c => joined.value c.column := by
  rw [rowsFrom, List.mem_map] at hrow
  obtain ⟨⟨cells, i⟩, hmem, rfl⟩ := hrow
  have hcells := List.fst_mem_of_mem_zipIdx hmem
  obtain ⟨joined, hjoined, rfl⟩ := List.mem_map.mp hcells
  exact ⟨joined, hjoined, rfl⟩

theorem exists_row (p : Plan) (typeName : SelectedColumn → Text) (hjoined : joined ∈ rows) :
    ∃ row ∈ rowsFrom 0 (p.resultSet typeName rows).rows,
      row.cells = (projection p).map fun c => joined.value c.column := by
  have hcells : (projection p).map (fun c => joined.value c.column) ∈ (p.resultSet typeName rows).rows :=
    List.mem_map_of_mem hjoined
  obtain ⟨i, hi⟩ := List.mem_iff_getElem?.mp hcells
  refine ⟨⟨i, _⟩, List.mem_map.mpr ⟨(_, i), ?_, rfl⟩, rfl⟩
  exact List.mk_mem_zipIdx_iff_getElem?.mpr hi

-- Where a row shows the key of a record, the record is joined in it.
theorem recordAt_of_shows (h : Joins registry db p typeName rows) (hchain : p.Chain chain)
    (hjoined : joined ∈ rows) (hcells : row.cells = (projection p).map fun c => joined.value c.column)
    (hr : r ∈ db (p.entityAt chain).table) :
    (ofPlan hashes p).shows (Value.sameKey hashes) (p.resultSet typeName rows).columns chain (keyOf (p.entityAt chain) r) row = true ↔
      joined.recordAt chain = some r := by
  rw [shows, h.chainKey?_eq hashes hchain hjoined hcells]
  cases hrecord : joined.recordAt chain with
  | none => simp
  | some other =>
    have hother := h.mem_table hchain hjoined hrecord
    rw [Option.map_some, Option.any_some, h.sameKey_iff hashes hchain hother hr, Option.some.injEq]

-- The keys that a page shows are those of the records that it shows.
theorem mem_chainKeys_page (h : Joins registry db p typeName rows) (hpage : page ⊆ rows)
    (hchain : p.Chain chain) (hshown : Shown page chain r) :
    keyOf (p.entityAt chain) r ∈ (ofPlan hashes p).chainKeys (p.resultSet typeName page).columns
      (rowsFrom 0 (p.resultSet typeName page).rows) chain := by
  obtain ⟨joined, hjoined, hrecord⟩ := hshown
  obtain ⟨row, hrow, hcells⟩ := exists_row p typeName hjoined
  refine mem_chainKeys.mpr ⟨row, hrow, ?_⟩
  have hkey := h.chainKey?_eq hashes hchain (hpage hjoined) hcells
  rw [hrecord] at hkey
  exact hkey

theorem mem_table_of_shown (h : Joins registry db p typeName rows) (hpage : page ⊆ rows)
    (hchain : p.Chain chain) (hshown : Shown page chain r) : r ∈ db (p.entityAt chain).table := by
  obtain ⟨joined, hjoined, hrecord⟩ := hshown
  exact h.mem_table hchain (hpage hjoined) hrecord

theorem shown_of_reached (h : Joins registry db p typeName rows) (hchain : p.Chain chain)
    (hr : r ∈ reached db p.root chain) : Shown rows chain r := by
  obtain ⟨joined, hjoined, hrecord⟩ := (h.sound.mem_reached_iff hchain).mp hr
  exact ⟨joined, h.rows.mem_iff.mpr hjoined, hrecord⟩

-- What is shown below a record is related to it.
theorem related_of_shownBelow (h : Joins registry db p typeName rows) (hpage : page ⊆ rows)
    (hchain : p.Chain (chain ++ [n])) (hshown : ShownBelow page chain n r other) :
    other ∈ related db n r := by
  obtain ⟨-, hn, hparent⟩ := Plan.chain_append_singleton.mp hchain
  obtain ⟨joined, hjoined, hr, hother⟩ := hshown
  obtain ⟨hup, hself⟩ := Plan.recordAt_append_singleton joined hparent
  rw [hself] at hother
  obtain ⟨r₀, hr₀, hrelated⟩ := h.sound.related_of_joined hn (h.rows.mem_iff.mp (hpage hjoined)) hother
  rw [hup, hr₀, Option.some.injEq] at hr
  exact hr ▸ hrelated

theorem shownBelow_of_related (h : Joins registry db p typeName rows) (hchain : p.Chain (chain ++ [n]))
    (hr : r ∈ reached db p.root chain) (hother : other ∈ related db n r) :
    ShownBelow rows chain n r other := by
  obtain ⟨hinit, hn, hparent⟩ := Plan.chain_append_singleton.mp hchain
  obtain ⟨joined, hjoined, hrecord⟩ := (h.sound.mem_reached_iff hinit).mp hr
  rw [(Plan.recordAt_append_singleton joined hparent).1] at hrecord
  obtain ⟨found, hfound, hup, hself⟩ := h.sound.joined_of_related hn hjoined hrecord hother
  obtain ⟨hat_up, hat_self⟩ := Plan.recordAt_append_singleton found hparent
  exact ⟨found, h.rows.mem_iff.mpr hfound, hat_up.trans hup, hat_self.trans hself⟩

-- Under a record the rows of a page show the keys of the records below it.
theorem mem_keysUnder_page (h : Joins registry db p typeName rows) (hpage : page ⊆ rows)
    (hchain : p.Chain (chain ++ [n])) (hr : r ∈ db (p.entityAt chain).table) (key : Value) :
    key ∈ (ofPlan hashes p).keysUnder (Value.sameKey hashes) (p.resultSet typeName page).columns
        (rowsFrom 0 (p.resultSet typeName page).rows) chain n (keyOf (p.entityAt chain) r) ↔
      ∃ other, ShownBelow page chain n r other ∧ keyOf n.target other = key := by
  have hinit := (Plan.chain_append_singleton.mp hchain).1
  rw [keysUnder, List.mem_filterMap]
  constructor
  · rintro ⟨row, hrow, hkey⟩
    obtain ⟨hrow, hshows⟩ := List.mem_filter.mp hrow
    obtain ⟨joined, hjoined, hcells⟩ := exists_joined hrow
    have hrecord := (h.recordAt_of_shows hashes hinit (hpage hjoined) hcells hr).mp hshows
    have hshown := h.shownKey?_eq hashes hchain (hpage hjoined) hcells
    obtain ⟨other, hother, hkey⟩ := Option.map_eq_some_iff.mp (hshown.symm.trans hkey)
    exact ⟨other, ⟨joined, hjoined, hrecord, hother⟩, hkey⟩
  · rintro ⟨other, ⟨joined, hjoined, hrecord, hother⟩, hkey⟩
    obtain ⟨row, hrow, hcells⟩ := exists_row p typeName hjoined
    have hshown := h.shownKey?_eq hashes hchain (hpage hjoined) hcells
    refine ⟨row, List.mem_filter.mpr ⟨hrow, ?_⟩, ?_⟩
    · exact (h.recordAt_of_shows hashes hinit (hpage hjoined) hcells hr).mpr hrecord
    · exact hshown.trans (by rw [hother, Option.map_some, hkey])

-- Under a record a row shows the keys of the related records.
theorem mem_keysUnder (h : Joins registry db p typeName rows) (hchain : p.Chain (chain ++ [n]))
    (hr : r ∈ reached db p.root chain) (key : Value) :
    key ∈ (ofPlan hashes p).keysUnder (Value.sameKey hashes) (p.resultSet typeName rows).columns
        (rowsFrom 0 (p.resultSet typeName rows).rows) chain n (keyOf (p.entityAt chain) r) ↔
      key ∈ (related db n r).map (keyOf n.target) := by
  rw [h.mem_keysUnder_page hashes (List.Subset.refl _) hchain (mem_table_of_reached hr), List.mem_map]
  refine exists_congr fun other => and_congr_left fun _ => ⟨?_, ?_⟩
  · exact h.related_of_shownBelow (List.Subset.refl _) hchain
  · exact h.shownBelow_of_related hchain hr

-- A key that is shown is the one of a record of the table.
theorem exists_record (h : Joins registry db p typeName rows) (hpage : page ⊆ rows)
    (hchain : p.Chain chain) (hrow : row ∈ rowsFrom 0 (p.resultSet typeName page).rows) {key : Value}
    (hkey : (ofPlan hashes p).key?
      ((ofPlan hashes p).binding (p.resultSet typeName page).columns chain) row = some key) :
    ∃ r ∈ db (p.entityAt chain).table, keyOf (p.entityAt chain) r = key := by
  obtain ⟨joined, hjoined, hcells⟩ := exists_joined hrow
  obtain ⟨r, hr, hrkey⟩ := Option.map_eq_some_iff.mp
    ((h.key?_eq hashes hchain (hpage hjoined) hcells).symm.trans hkey)
  exact ⟨r, h.mem_table hchain (hpage hjoined) hr, hrkey⟩

theorem showsKey_page (h : Joins registry db p typeName rows) (hpage : page ⊆ rows)
    (hchain : p.Chain chain) :
    (ofPlan hashes p).ShowsKey ((ofPlan hashes p).binding (p.resultSet typeName page).columns chain)
      (rowsFrom 0 (p.resultSet typeName page).rows) := by
  obtain ⟨f, hf⟩ := Option.isSome_iff_exists.mp (h.entity_mem hchain).2
  refine ⟨?_, ?_, ?_⟩
  · -- Any row at all has the key bound, be it one of nulls.
    have hnulls : Binds ((ofPlan hashes p).binding (p.resultSet typeName page).columns chain) (p.entityAt chain)
        ⟨0, (projection p).map fun c => Joined.value (fun _ => none) c.column⟩
        (Joined.recordAt (fun _ => none) chain) := h.binds hashes hchain rfl
    obtain ⟨c, -, hc, -⟩ := hnulls.key? hf
    rw [hc]
    rfl
  · intro row hrow hmatched column hcolumn
    obtain ⟨joined, hjoined, hcells⟩ := exists_joined hrow
    have hkey : (ofPlan hashes p).key? ((ofPlan hashes p).binding (p.resultSet typeName page).columns chain) row =
        (joined.recordAt chain).map (keyOf (p.entityAt chain)) := h.key?_eq hashes hchain (hpage hjoined) hcells
    have hsome := (h.isUnmatched_eq hashes hchain (hpage hjoined) hcells).symm.trans hmatched
    cases hrecord : joined.recordAt chain with
    | none => rw [hrecord] at hsome; cases hsome
    | some r =>
      rw [hrecord, Materializer.key?, hcolumn, Option.bind_eq_bind, Option.bind_some] at hkey
      cases hnull : (row.cell column.ordinal).isNull with
      | false => rfl
      | true => rw [if_pos hnull] at hkey; cases hkey
  · intro row hrow key hkey
    obtain ⟨r, hr, rfl⟩ := h.exists_record hashes hpage hchain hrow hkey
    exact (h.plain_key hchain hr).1

theorem gives_page (h : Joins registry db p typeName rows) (hpage : page ⊆ rows)
    (hchain : p.Chain chain) (hrow : row ∈ rowsFrom 0 (p.resultSet typeName page).rows)
    (hmatched : row.isUnmatched ((ofPlan hashes p).binding (p.resultSet typeName page).columns chain) = false) :
    (ofPlan hashes p).Gives ((ofPlan hashes p).binding (p.resultSet typeName page).columns chain) row := by
  obtain ⟨joined, hjoined, hcells⟩ := exists_joined hrow
  have hkey := h.key?_eq hashes hchain (hpage hjoined) hcells
  have hbinds := h.binds hashes hchain hcells
  have hsome := (h.isUnmatched_eq hashes hchain (hpage hjoined) hcells).symm.trans hmatched
  cases hrecord : joined.recordAt chain with
  | none => rw [hrecord] at hsome; cases hsome
  | some r =>
    rw [hrecord] at hkey hbinds
    obtain ⟨hregular, hfits, -⟩ := h.fits hchain (h.mem_table hchain (hpage hjoined) hrecord)
    obtain ⟨i, hi, -⟩ := hbinds.readInstance hregular hfits
    exact ⟨⟨_, hkey⟩, i, hi⟩

-- Every node of a plan ends a chain.
theorem exists_chain (h : p.Sound registry) (hn : n ∈ p.nodes) : ∃ chain, p.Chain (chain ++ [n]) := by
  induction hnumber : n.number using Nat.strongRecOn generalizing n with
  | ind number ih =>
    cases hparent : n.parent with
    | none => exact ⟨[], Plan.chain_append_singleton.mpr ⟨trivial, hn, hparent⟩⟩
    | some k =>
      obtain ⟨hlt, q, hq, hqnumber, -⟩ := (h.fits n hn).source_of_parent k hparent
      obtain ⟨chain, hchain⟩ := ih k (hnumber ▸ hlt) hq hqnumber
      refine ⟨chain ++ [q], Plan.chain_append_singleton.mpr ⟨hchain, hn, ?_⟩⟩
      rw [Include.site_append_singleton, hqnumber, hparent]

-- Any rows among the joined ones can be read.
theorem reads_page (h : Joins registry db p typeName rows) (hpage : page ⊆ rows) :
    (ofPlan hashes p).Reads registry p (p.resultSet typeName page).columns
      (rowsFrom 0 (p.resultSet typeName page).rows) where
  sound := h.sound
  root := rfl
  trees := rfl
  rootKey := by
    have hchain : p.Chain [] := trivial
    exact h.showsKey_page hashes hpage hchain
  nodeKeys := by
    intro n hn
    obtain ⟨chain, hchain⟩ := exists_chain h.sound hn
    have hkey := h.showsKey_page hashes hpage hchain
    rw [binding_append_singleton] at hkey
    exact hkey

-- So a table sorts the keys of the rows.
theorem transitiveOn_keysIn (h : Joins registry db p typeName rows) (hpage : page ⊆ rows) :
    TransitiveOn ((ofPlan hashes p).keysIn p (p.resultSet typeName page).columns
      (rowsFrom 0 (p.resultSet typeName page).rows)) (Value.sameKey hashes) := by
  have hplain : ∀ chain, p.Chain chain → ∀ row ∈ rowsFrom 0 (p.resultSet typeName page).rows,
      ∀ key, (ofPlan hashes p).key?
        ((ofPlan hashes p).binding (p.resultSet typeName page).columns chain) row = some key →
          key.holdsDocument = false := by
    intro chain hchain row hrow key hkey
    obtain ⟨r, hr, rfl⟩ := h.exists_record hashes hpage hchain hrow hkey
    exact (h.plain_key hchain hr).2
  refine transitiveOn_sameKey hashes fun key hkey => ?_
  obtain ⟨row, hrow, hroot | ⟨n, hn, hnode⟩⟩ := mem_keysIn.mp hkey
  · exact hplain [] trivial row hrow key hroot
  · obtain ⟨chain, hchain⟩ := exists_chain h.sound hn
    refine hplain (chain ++ [n]) hchain row hrow key ?_
    rw [binding_append_singleton]
    exact hnode

theorem reads (h : Joins registry db p typeName rows) :
    (ofPlan hashes p).Reads registry p (p.resultSet typeName rows).columns
      (rowsFrom 0 (p.resultSet typeName rows).rows) := h.reads_page hashes (List.Subset.refl _)

theorem exists_run_page (h : Joins registry db p typeName rows) (hpage : page ⊆ rows) {s : State}
    (hs : s.cancelled = false) :
    ∃ ids t, Yields ((ofPlan hashes p).read (p.resultSet typeName page)) s ids t := by
  refine exists_readRows_yields rfl (fun row hrow => ⟨?_, ?_⟩) hs
  · have hchain : p.Chain [] := trivial
    refine h.gives_page hashes hpage hchain hrow ?_
    obtain ⟨joined, hjoined, hcells⟩ := exists_joined hrow
    refine (h.isUnmatched_eq hashes hchain (hpage hjoined) hcells).trans ?_
    obtain ⟨r, hr⟩ := Plan.exists_recordAt_root h.sound (h.rows.mem_iff.mp (hpage hjoined))
    rw [hr]
    rfl
  · intro n hn hmatched
    have hmem : n ∈ p.nodes := p.flatten_trees_perm.mem_iff.mp hn
    obtain ⟨chain, hchain⟩ := exists_chain h.sound hmem
    have hgives := h.gives_page hashes hpage hchain hrow
    rw [binding_append_singleton] at hgives
    exact hgives hmatched

theorem exists_run (h : Joins registry db p typeName rows) {s : State} (hs : s.cancelled = false) :
    ∃ ids t, Yields ((ofPlan hashes p).read (p.resultSet typeName rows)) s ids t :=
  h.exists_run_page hashes (List.Subset.refl _) hs

end Joins

end Materializer

end EntitySql
