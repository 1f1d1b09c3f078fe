import EntitySql.Proofs.Conversion.Stored
import EntitySql.Proofs.Include.Projection
import EntitySql.Proofs.Include.Related
import EntitySql.Proofs.Rows.Values
import EntitySql.Proofs.Rows.Visits
import EntitySql.Proofs.Schema.Lookup
import EntitySql.Schema.Catalogue

-- Rows in which the fields of an entity are bound to the cells of a record:
-- they show its key, and they give an instance with its values. A materializer
-- finds the columns by name, and so binds every field of a plan to the place that
-- the plan selects it at.

namespace EntitySql

-- Where all fields are bound, so is the one of the key.
theorem EntityBinding.key?_of_fields {b : EntityBinding} (h : b.columns.map (·.field) = b.entity.fields)
    {f : Field} (hf : b.entity.primaryKey? = some f) : ∃ c ∈ b.columns, b.key? = some c ∧ c.field = f := by
  obtain ⟨c, hc, hfield⟩ := List.mem_map.mp (h ▸ Entity.mem_of_primaryKey? hf)
  have hfound : (b.columns.find? (·.field = f)).isSome :=
    List.find?_isSome.mpr ⟨c, hc, by simpa using hfield⟩
  obtain ⟨found, hfind⟩ := Option.isSome_iff_exists.mp hfound
  refine ⟨found, List.mem_of_find?_eq_some hfind, ?_, by simpa using List.find?_some hfind⟩
  simp only [EntityBinding.key?, hf, hfind]

namespace Materializer

open Include (keyOf)

-- All fields of an entity are bound, to the cells of a record or, if there
-- is none, to nulls.
structure Binds (b : EntityBinding) (e : Entity) (row : Row) (r : Option Record) : Prop where
  entity : b.entity = e
  fields : b.columns.map (·.field) = e.fields
  cells : ∀ c ∈ b.columns, row.cell c.ordinal = (r.map (·.cell c.field.column)).getD .null
  routes : ∀ c ∈ b.columns, Conversion.Route.classify c.field.type c.databaseType =
    Conversion.Route.classify c.field.type []

-- Entities whose fields have the types of their members, and whose keys are
-- integers or identifiers.
structure Regular (e : Entity) : Prop where
  properties : (e.fields.map Field.property).Nodup
  refines : ∀ f ∈ e.fields, Entity.refines f.member.fieldType f.type = true
  key : ∀ f ∈ e.primaryKey?, f.member = .int64 ∨ f.member = .uuid

-- Records with cells of the mapped types.
def Fits (e : Entity) (r : Record) : Prop :=
  ∀ f ∈ e.fields, (r.cell f.column).isNull = true ∨ f.member.Holds (r.cell f.column)

variable {b : EntityBinding} {e : Entity} {row : Row} {r : Record}

namespace Binds

theorem mem_fields {o : Option Record} (h : Binds b e row o) {c : ColumnBinding} (hc : c ∈ b.columns) :
    c.field ∈ e.fields := by
  rw [← h.fields]
  exact List.mem_map_of_mem hc

-- The key column is bound to the field of the key.
theorem key? {o : Option Record} (h : Binds b e row o) {f : Field} (hf : e.primaryKey? = some f) :
    ∃ c ∈ b.columns, b.key? = some c ∧ c.field = f := by
  have hfields : b.columns.map (·.field) = b.entity.fields := by rw [h.fields, h.entity]
  exact EntityBinding.key?_of_fields hfields (by rw [h.entity, hf])

theorem isUnmatched_none (h : Binds b e row none) : row.isUnmatched b = true := by
  rw [Row.isUnmatched, List.all_eq_true]
  intro c hc
  rw [h.cells c hc]
  rfl

theorem isUnmatched_some (h : Binds b e row (some r)) {f : Field} (hf : e.primaryKey? = some f)
    (hkey : (keyOf e r).isNull = false) : row.isUnmatched b = false := by
  obtain ⟨c, hc, -, rfl⟩ := h.key? hf
  rw [← Bool.not_eq_true, Row.isUnmatched, List.all_eq_true]
  intro hall
  have hnull := hall c hc
  rw [h.cells c hc] at hnull
  have hcell : keyOf e r = r.cell c.field.column := by simp [keyOf, Include.keyColumn, hf]
  rw [hcell] at hkey
  rw [Option.map_some, Option.getD_some, hkey] at hnull
  cases hnull

theorem readColumn (h : Binds b e row (some r)) (hregular : Regular e) (hfits : Fits e r) {c : ColumnBinding}
    (hc : c ∈ b.columns) : row.readColumn {} c = .ok (c.field.stored (r.cell c.field.column)) := by
  have hf := h.mem_fields hc
  have hcell := h.cells c hc
  rw [Option.map_some, Option.getD_some] at hcell
  rw [Row.readColumn, Row.readCell, hcell, Field.stored]
  cases hnull : (r.cell c.field.column).isNull with
  | true => rfl
  | false =>
    have hholds := (hfits c.field hf).resolve_left (by simp [hnull])
    have hconverted := Conversion.Converter.fromDatabase_of_holds hholds hnull
      (hregular.refines c.field hf) (h.routes c hc)
    rw [if_neg (by simp), if_neg (by simp), Field.element, hconverted]
    rfl

-- A row shows the key of the record as it is stored.
theorem shows_key (h : Binds b e row (some r)) (hregular : Regular e) (hfits : Fits e r) {m : Materializer}
    (hconverter : m.converter = {}) {f : Field} (hf : e.primaryKey? = some f)
    (hkey : (keyOf e r).isNull = false) : m.key? b row = some (keyOf e r) := by
  obtain ⟨c, hc, hfound, rfl⟩ := h.key? hf
  have hcell : keyOf e r = r.cell c.field.column := by simp [keyOf, Include.keyColumn, hf]
  rw [hcell] at hkey ⊢
  have hown := h.cells c hc
  rw [Option.map_some, Option.getD_some] at hown
  have hread := h.readColumn hregular hfits hc
  have hutc : (r.cell c.field.column).atUtc = r.cell c.field.column := by
    have hholds := (hfits c.field (h.mem_fields hc)).resolve_left (by simp [hkey])
    rcases hregular.key c.field hf with hmember | hmember <;> rw [hmember] at hholds <;>
      cases hvalue : r.cell c.field.column <;> rw [hvalue] at hholds <;>
        first
          | rfl
          | cases hholds
  rw [Field.stored, hkey, if_neg (by simp), hutc] at hread
  rw [Materializer.key?, hfound, Option.bind_eq_bind, Option.bind_some, hown, hkey, if_neg (by simp),
    hconverter, hread]
  rfl

theorem shows_nothing (h : Binds b e row none) {m : Materializer} : m.key? b row = none := by
  rw [Materializer.key?]
  cases hfound : b.key? with
  | none => rfl
  | some c =>
    have hc : c ∈ b.columns := by
      rw [EntityBinding.key?] at hfound
      split at hfound
      · cases hfound
      · exact List.mem_of_find?_eq_some hfound
    have hcell := h.cells c hc
    simp only [Option.bind_eq_bind, Option.bind_some, hcell]
    rfl

end Binds

-- Reading columns one after the other replaces the initial values one after
-- the other.
theorem foldlM_readInto {converter : Conversion.Converter} (value : Field → Value)
    {columns : List ColumnBinding}
    (hread : ∀ c ∈ columns, row.readColumn converter c = .ok (value c.field) ∧
      c.field.member.accept (value c.field) = .ok (value c.field))
    (before : List (Text × Value)) {i : Instance}
    (hvalues : i.values = before ++ columns.map fun c => (c.field.property, c.field.member.initial))
    (hnew : ∀ c ∈ columns, c.field.property ∉ before.map (·.1))
    (hnodup : (columns.map fun c => c.field.property).Nodup) :
    ∃ j, columns.foldlM (row.readInto converter) i = .ok j ∧
      j.values = before ++ columns.map fun c => (c.field.property, value c.field) := by
  induction columns generalizing before i with
  | nil => exact ⟨i, rfl, hvalues⟩
  | cons c rest ih =>
    obtain ⟨hcolumn, haccept⟩ := hread c (List.mem_cons_self ..)
    rw [List.map_cons, List.nodup_cons] at hnodup
    have hset : i.set c.field (value c.field) = .ok { i with
        values := before ++ (c.field.property, value c.field) ::
          rest.map fun c => (c.field.property, c.field.member.initial) } := by
      have hplace := hnew c (List.mem_cons_self ..)
      simp only [Instance.set, haccept, hvalues, List.map_cons, bind, Except.bind, pure, Except.pure,
        Instance.replace_append_cons hplace]
    have hfirst : row.readInto converter i c = .ok { i with
        values := before ++ (c.field.property, value c.field) ::
          rest.map fun c => (c.field.property, c.field.member.initial) } := by
      simp only [Row.readInto, hcolumn, hset, bind, Except.bind]
      rfl
    obtain ⟨j, hj, hjvalues⟩ := ih (fun d hd => hread d (List.mem_cons_of_mem c hd))
      (before ++ [(c.field.property, value c.field)])
      (i := { i with
        values := before ++ (c.field.property, value c.field) ::
          rest.map fun c => (c.field.property, c.field.member.initial) })
      (by simp)
      (by
        intro d hd
        have hbefore := hnew d (List.mem_cons_of_mem c hd)
        have hdiffer : d.field.property ≠ c.field.property := by
          intro heq
          exact hnodup.1 (heq ▸ List.mem_map_of_mem hd)
        rw [List.map_append, List.mem_append, not_or]
        exact ⟨hbefore, by simpa using hdiffer⟩)
      hnodup.2
    refine ⟨j, ?_, by simpa using hjvalues⟩
    rw [List.foldlM_cons, hfirst]
    exact hj

-- A row gives an instance with the values of the record.
theorem Binds.readInstance (h : Binds b e row (some r)) (hregular : Regular e) (hfits : Fits e r) :
    ∃ i, row.readInstance {} b = .ok i ∧ i.type = e.type ∧
      i.values = e.fields.map fun f => (f.property, f.stored (r.cell f.column)) := by
  have hread : ∀ c ∈ b.columns, row.readColumn {} c = .ok (c.field.stored (r.cell c.field.column)) ∧
      c.field.member.accept (c.field.stored (r.cell c.field.column)) =
        .ok (c.field.stored (r.cell c.field.column)) := by
    intro c hc
    refine ⟨h.readColumn hregular hfits hc, ?_⟩
    have hf := h.mem_fields hc
    rw [Field.stored]
    split
    · exact Field.accept_nullValue (hregular.refines c.field hf)
    · next hnull => exact MemberType.accept_of_holds ((hfits c.field hf).resolve_left hnull)
  have hinitial : (Instance.new b.entity).values =
      [] ++ b.columns.map fun c => (c.field.property, c.field.member.initial) := by
    rw [Instance.new, h.entity, ← h.fields, List.map_map]
    rfl
  have hnodup : (b.columns.map fun c => c.field.property).Nodup := by
    have hproperties := hregular.properties
    rw [← h.fields, List.map_map] at hproperties
    exact hproperties
  obtain ⟨i, hi, hvalues⟩ := foldlM_readInto (fun f => f.stored (r.cell f.column)) hread [] hinitial
    (by simp) hnodup
  refine ⟨i, hi, ?_, ?_⟩
  · rw [(Row.links_readInstance hi).1, h.entity]
  · rw [hvalues, ← h.fields, List.map_map]
    rfl

end Materializer

namespace EntityBinding

theorem bindField_of_getElem? {columns : List Column}
    (hnames : columns.Pairwise fun a b => Text.sameFolded a.name b.name = false) {aliasName : Option Text}
    {f : Field} {i : Nat} {c : Column} (hc : columns[i]? = some c) (hname : c.name = columnName aliasName f) :
    bindField columns aliasName f = some ⟨f, i, c.typeName⟩ := by
  have hordinal := Include.ordinal?_of_getElem? hnames hc
  rw [hname] at hordinal
  cases aliasName <;> simp only [columnName] at hordinal <;>
    simp [bindField, hordinal, hc]

-- All fields of the entity are bound, to consecutive columns.
structure Fills (b : EntityBinding) (start : Nat) : Prop where
  fields : b.columns.map (·.field) = b.entity.fields
  ordinals : b.columns.map (·.ordinal) = List.range' start b.entity.fields.length

variable {columns : List Column} {aliasName : Option Text} {before after : List Text}

-- By the fields: the column of the first one is as good as one that comes before.
theorem filterMap_bindField
    (hnames : columns.Pairwise fun a b => Text.sameFolded a.name b.name = false) (fields : List Field)
    (h : columns.map Column.name = before ++ fields.map (columnName aliasName) ++ after) :
    (fields.filterMap (bindField columns aliasName)).map (·.field) = fields ∧
      (fields.filterMap (bindField columns aliasName)).map (·.ordinal) =
        List.range' before.length fields.length := by
  induction fields generalizing before with
  | nil => simp
  | cons f rest ih =>
    have hplace : (columns.map Column.name)[before.length]? = some (columnName aliasName f) := by
      rw [h]
      simp
    rw [List.getElem?_map, Option.map_eq_some_iff] at hplace
    obtain ⟨c, hc, hname⟩ := hplace
    have hrest : columns.map Column.name =
        (before ++ [columnName aliasName f]) ++ rest.map (columnName aliasName) ++ after := by
      rw [h, List.map_cons, List.append_assoc before [_], List.singleton_append]
    obtain ⟨hfields, hordinals⟩ := ih hrest
    rw [List.filterMap_cons_some (bindField_of_getElem? hnames hc hname), List.map_cons, List.map_cons,
      hfields, hordinals, List.length_append, List.length_singleton, List.length_cons, List.range'_succ]
    exact ⟨rfl, rfl⟩

theorem fills_of_names (hnames : columns.Pairwise fun a b => Text.sameFolded a.name b.name = false)
    (e : Entity) (h : columns.map Column.name = before ++ e.fields.map (columnName aliasName) ++ after) :
    (bind columns e aliasName).Fills before.length := by
  obtain ⟨hfields, hordinals⟩ := filterMap_bindField hnames e.fields h
  exact ⟨hfields, hordinals⟩

end EntityBinding

namespace Include.Plan

open EntityBinding (columnName)

-- The bindings of the root and of all nodes in their order.
def bindings (p : Plan) (columns : List Column) : List EntityBinding :=
  EntityBinding.bind columns p.root none ::
    p.nodes.map fun n => EntityBinding.bind columns n.target (some n.aliasName)

-- The same for some nodes, whose columns follow those of others.
theorem fill_nodes {columns : List Column}
    (hnames : columns.Pairwise fun a b => Text.sameFolded a.name b.name = false) (nodes : List Node)
    (before : List Text)
    (h : columns.map Column.name =
      before ++ nodes.flatMap fun n => n.target.fields.map (columnName (some n.aliasName))) :
    (∀ n ∈ nodes, ∃ start, (EntityBinding.bind columns n.target (some n.aliasName)).Fills start) ∧
      ((nodes.map fun n => EntityBinding.bind columns n.target (some n.aliasName)).flatMap
          (·.columns)).map (·.ordinal) =
        List.range' before.length (columns.length - before.length) := by
  induction nodes generalizing before with
  | nil =>
    have hlength := congrArg List.length h
    simp only [List.length_map, List.flatMap_nil, List.append_nil] at hlength
    simp [hlength]
  | cons n rest ih =>
    have hlist : columns.map Column.name = before ++ n.target.fields.map (columnName (some n.aliasName)) ++
        rest.flatMap fun n => n.target.fields.map (columnName (some n.aliasName)) := by
      rw [h, List.flatMap_cons, List.append_assoc]
    have hfirst := EntityBinding.fills_of_names hnames n.target hlist
    obtain ⟨hrest, hordinals⟩ := ih (before ++ n.target.fields.map (columnName (some n.aliasName))) hlist
    refine ⟨List.forall_mem_cons.mpr ⟨⟨_, hfirst⟩, hrest⟩, ?_⟩
    have hlength := congrArg List.length h
    simp only [List.length_map, List.flatMap_cons, List.length_append] at hlength
    have hown : (EntityBinding.bind columns n.target (some n.aliasName)).columns.map (·.ordinal) =
        List.range' before.length n.target.fields.length := hfirst.ordinals
    rw [List.map_cons, List.flatMap_cons, List.map_append, hown, hordinals, List.length_append,
      List.length_map]
    exact (List.range'_append_1 ..).trans (by congr 1; omega)

variable {registry : Registry} {root : Entity} {depth : Int} {paths : List Text} {p : Plan}
  {columns : List Column}

-- In a result with the columns of a plan in their order, every field of the
-- root and of every node is bound, the k-th of them all to the k-th column,
-- and so are all keys.
theorem bindings_fill_columns (hplan : ofPaths registry depth root paths = .ok p)
    (hroot : root ∈ registry.entities) (hcolumns : ∀ e ∈ registry.entities, DistinctColumns e)
    (hunaliased : ∀ f ∈ root.fields, isAliased f.column = false)
    (hnames : columns.map Column.name = (projection p).map SelectedColumn.resultName) :
    ((p.bindings columns).map fun b => b.columns.map (·.field)) =
        root.fields :: p.nodes.map (·.target.fields) ∧
      ((p.bindings columns).flatMap (·.columns)).map (·.ordinal) = List.range columns.length ∧
      ∀ b ∈ p.bindings columns, ∀ f, b.entity.primaryKey? = some f →
        ∃ c ∈ b.columns, b.key? = some c ∧ c.field = f := by
  obtain ⟨hsound, rfl⟩ := sound_ofPaths hplan
  have hdiffer : columns.Pairwise fun a b => Text.sameFolded a.name b.name = false := by
    have hprojection := pairwise_projection hsound.numbered.increasing (hcolumns _ hroot) hunaliased
      fun n hn => hcolumns _ (hsound.target_mem hn)
    rw [← List.pairwise_map (R := fun a b : Text => Text.sameFolded a b = false), ← hnames,
      List.pairwise_map] at hprojection
    exact hprojection
  have hlist : columns.map Column.name = [] ++ p.root.fields.map (columnName none) ++
      p.nodes.flatMap fun n => n.target.fields.map (columnName (some n.aliasName)) := by
    rw [hnames, projection, List.map_append, List.map_map, List.map_flatMap]
    simp only [List.map_map]
    rfl
  have hfirst := EntityBinding.fills_of_names hdiffer p.root hlist
  obtain ⟨hnodes, hordinals⟩ := fill_nodes hdiffer p.nodes ([] ++ p.root.fields.map (columnName none)) hlist
  have hfields : ∀ b ∈ p.bindings columns, b.columns.map (·.field) = b.entity.fields := by
    intro b hb
    rcases List.mem_cons.mp hb with rfl | hb
    · exact hfirst.fields
    · obtain ⟨n, hn, rfl⟩ := List.mem_map.mp hb
      obtain ⟨_, hfills⟩ := hnodes n hn
      exact hfills.fields
  refine ⟨?_, ?_, fun b hb f hf => EntityBinding.key?_of_fields (hfields b hb) hf⟩
  · rw [List.map_congr_left hfields, bindings, List.map_cons, List.map_map]
    rfl
  · have hlength := congrArg List.length hlist
    simp only [List.length_map, List.length_append, List.length_nil] at hlength
    have hown : (EntityBinding.bind columns p.root none).columns.map (·.ordinal) =
        List.range' 0 p.root.fields.length := hfirst.ordinals
    have hrest : List.range' 0 p.root.fields.length ++
        List.range' p.root.fields.length (columns.length - p.root.fields.length) =
        List.range' 0 columns.length := by
      have hjoined := List.range'_append_1 (s := 0) (m := p.root.fields.length)
        (n := columns.length - p.root.fields.length)
      rw [Nat.zero_add] at hjoined
      rw [hjoined]
      congr 1
      omega
    rw [bindings, List.flatMap_cons, List.map_append, hown, hordinals, List.nil_append, List.length_map,
      hrest, List.range_eq_range']

-- An author with the company, and with the posts and their comments.
def authorPlan : Plan where
  root := Catalogue.authorEntity
  nodes :=
    [⟨1, none, "Company", ⟨"Company", Catalogue.company, .reference "company_id"⟩, Catalogue.authorEntity,
        Catalogue.companyEntity⟩,
      ⟨2, none, "Posts", ⟨"Posts", Catalogue.post, .collection "author_id"⟩, Catalogue.authorEntity,
        Catalogue.postEntity⟩,
      ⟨3, some 2, "Posts.Comments", ⟨"Comments", Catalogue.comment, .collection "post_id"⟩,
        Catalogue.postEntity, Catalogue.commentEntity⟩]

def authorColumns : List Column :=
  [⟨"id", "int8"⟩, ⟨"name", "text"⟩, ⟨"company_id", "int8"⟩, ⟨"t1_id", "int8"⟩, ⟨"t1_name", "text"⟩,
    ⟨"t2_id", "int8"⟩, ⟨"t2_title", "text"⟩, ⟨"t2_views", "int4"⟩, ⟨"t2_author_id", "int8"⟩,
    ⟨"t2_created_at", "timestamptz"⟩, ⟨"t2_rating", "float8"⟩, ⟨"t2_labels", "_text"⟩, ⟨"t3_id", "int8"⟩,
    ⟨"t3_post_id", "int8"⟩, ⟨"t3_body", "text"⟩]

theorem bindings_fill_authorColumns :
    ofPaths Catalogue.registry 5 Catalogue.authorEntity ["Company", "Posts.Comments"] = .ok authorPlan ∧
    (∀ e ∈ Catalogue.registry.entities, DistinctColumns e) ∧
    (∀ f ∈ Catalogue.authorEntity.fields, isAliased f.column = false) ∧
    authorColumns.map Column.name = (projection authorPlan).map SelectedColumn.resultName ∧
    ((authorPlan.bindings authorColumns).map fun b => b.columns.map (·.field)) =
      [Catalogue.authorEntity.fields, Catalogue.companyEntity.fields, Catalogue.postEntity.fields,
        Catalogue.commentEntity.fields] ∧
    ((authorPlan.bindings authorColumns).flatMap (·.columns)).map (·.ordinal) = List.range 15 := by
  have hroot : Catalogue.authorEntity ∈ Catalogue.registry.entities := by simp [Catalogue.registry]
  have hcolumns : ∀ e ∈ Catalogue.registry.entities, DistinctColumns e := by decide
  have hunaliased : ∀ f ∈ Catalogue.authorEntity.fields, isAliased f.column = false := by decide
  have hplan : ofPaths Catalogue.registry 5 Catalogue.authorEntity ["Company", "Posts.Comments"] =
      .ok authorPlan := by rfl
  have hnames : authorColumns.map Column.name = (projection authorPlan).map SelectedColumn.resultName := by
    rfl
  obtain ⟨hbound, hordinals, -⟩ := bindings_fill_columns hplan hroot hcolumns hunaliased hnames
  exact ⟨hplan, hcolumns, hunaliased, hnames, hbound, hordinals⟩

end Include.Plan

end EntitySql
