import EntitySql.Proofs.Include.Projection
import EntitySql.Proofs.Rows.Outcome
import EntitySql.Proofs.Rows.Parallel
import Mathlib.Logic.Relation

-- Columns are found by their names. Their order and the case of the names do
-- not matter, and nor do columns under other names.

namespace EntitySql

namespace Text

theorem sameFolded_congr {a b : Text} (h : sameFolded a b = true) (c : Text) :
    sameFolded a c = sameFolded b c := by
  rw [sameFolded, sameFolded, sameFolded_iff.mp h]

end Text

-- Where at most one entry passes, the order of the entries does not matter.
theorem find?_eq_of_perm {α : Type} {p : α → Bool} {l l' : List α} (h : l'.Perm l)
    (hone : l.countP p ≤ 1) : l'.find? p = l.find? p := by
  have hfilter := h.filter p
  rw [List.countP_eq_length_filter] at hone
  rw [← List.head?_filter, ← List.head?_filter]
  generalize l.filter p = passed at hfilter hone
  match passed with
  | [] => rw [List.perm_nil.mp hfilter]
  | [a] => rw [List.perm_singleton.mp hfilter]

namespace ResultSet

-- The columns with the cells of a row below them.
def table (cell : Nat → Value) (columns : List Column) : List (Column × Value) :=
  columns.mapIdx fun i c => (c, cell i)

-- What a row shows under a name, with the type of the column.
def seen? (cell : Nat → Value) (columns : List Column) (name : Text) : Option (Text × Value) :=
  ((table cell columns).find? fun e => Text.sameFolded e.1.name name).map fun e =>
    (e.1.typeName, e.2)

-- No second column has the name.
def Once (columns : List Column) (name : Text) : Prop :=
  columns.countP (fun c => Text.sameFolded c.name name) ≤ 1

-- The columns at the given places, in that order.
def arrange (places : List Nat) (set : ResultSet) : ResultSet :=
  { set with
    columns := places.map (set.columns.getD · { name := [] })
    rows := set.rows.map fun cells => places.map (cells.getD · .null) }

-- One more column, with a value for every row.
def insertColumn (place : Nat) (column : Column) (values : Nat → Value) (set : ResultSet) : ResultSet :=
  { set with
    columns := set.columns.insertIdx place column
    rows := set.rows.mapIdx fun i cells => cells.insertIdx place (values i) }

variable {columns columns' : List Column} {cell cell' : Nat → Value} {c : Column} {name : Text}

theorem seen?_cons (cell : Nat → Value) (c : Column) (rest : List Column) (name : Text) :
    seen? cell (c :: rest) name =
      if Text.sameFolded c.name name then some (c.typeName, cell 0)
      else seen? (fun i => cell (i + 1)) rest name := by
  rw [seen?, table, List.mapIdx_cons, List.find?_cons]
  cases Text.sameFolded c.name name <;> rfl

-- A name is looked up among the columns.
theorem seen?_eq (cell : Nat → Value) (columns : List Column) (name : Text) :
    seen? cell columns name =
      (ordinal? columns name).bind fun i => columns[i]?.map fun c => (c.typeName, cell i) := by
  induction columns generalizing cell with
  | nil => rfl
  | cons c rest ih =>
    rw [seen?_cons, ordinal?, List.findIdx?_cons]
    cases Text.sameFolded c.name name with
    | true => rfl
    | false =>
      rw [if_neg Bool.false_ne_true, ih, ordinal?]
      cases rest.findIdx? _ <;> rfl

theorem once_of_distinct
    (h : columns.Pairwise fun a b => Text.sameFolded a.name b.name = false) (name : Text) :
    Once columns name := by
  induction h with
  | nil => exact Nat.zero_le 1
  | @cons c rest hfirst _ ih =>
    rw [Once, List.countP_cons]
    cases hc : Text.sameFolded c.name name with
    | false => exact ih
    | true =>
      have hnone : rest.countP (fun d => Text.sameFolded d.name name) = 0 := by
        refine List.countP_eq_zero.mpr fun d hd hsame => ?_
        have hboth := Text.sameFolded_iff.mpr
          ((Text.sameFolded_iff.mp hc).trans (Text.sameFolded_iff.mp hsame).symm)
        rw [hfirst d hd] at hboth
        cases hboth
      rw [hnone]
      exact Nat.le_refl 1

section Arranged

variable {places : List Nat}

theorem arranged_range (columns : List Column) :
    (List.range columns.length).map (columns.getD · { name := [] }) = columns := by
  refine List.ext_getElem (by simp) fun i hi _ => ?_
  rw [List.length_map, List.length_range] at hi
  simp [hi]

theorem arranged_perm (h : places.Perm (List.range columns.length)) :
    (places.map (columns.getD · { name := [] })).Perm columns :=
  (h.map _).trans (.of_eq (arranged_range columns))

theorem once_arranged (h : places.Perm (List.range columns.length)) (hone : Once columns name) :
    Once (places.map (columns.getD · { name := [] })) name := by
  rw [Once, (arranged_perm h).countP_eq]
  exact hone

theorem table_arranged (places : List Nat) (columns : List Column) (cells : List Value) :
    table ((places.map (cells.getD · .null)).getD · .null)
        (places.map (columns.getD · { name := [] })) =
      places.map fun i => (columns.getD i { name := [] }, cells.getD i .null) := by
  refine List.ext_getElem (by simp [table]) fun i hi hi' => ?_
  rw [List.length_map] at hi'
  simp [table, hi']

theorem seen?_arranged (h : places.Perm (List.range columns.length)) (hone : Once columns name)
    (cells : List Value) :
    seen? ((places.map (cells.getD · .null)).getD · .null)
        (places.map (columns.getD · { name := [] })) name =
      seen? (cells.getD · .null) columns name := by
  have htable : table (cells.getD · .null) columns =
      (List.range columns.length).map fun i => (columns.getD i { name := [] }, cells.getD i .null) := by
    refine List.ext_getElem (by simp [table]) fun i hi _ => ?_
    rw [table, List.length_mapIdx] at hi
    simp [table, hi]
  have hcount : (table (cells.getD · .null) columns).countP
      (fun e => Text.sameFolded e.1.name name) ≤ 1 := by
    rw [htable, List.countP_map]
    rw [Once, ← arranged_range columns, List.countP_map] at hone
    exact hone
  rw [seen?, seen?, table_arranged, find?_eq_of_perm (htable ▸ h.map _) hcount]

end Arranged

section Recased

-- The same name but for case, and the same type.
def Recased (c c' : Column) : Prop :=
  Text.sameFolded c'.name c.name = true ∧ c'.typeName = c.typeName

theorem countP_recased (h : List.Forall₂ Recased columns columns') (name : Text) :
    columns'.countP (fun c => Text.sameFolded c.name name) =
      columns.countP fun c => Text.sameFolded c.name name := by
  induction h with
  | nil => rfl
  | cons hc _ ih => rw [List.countP_cons, List.countP_cons, ih, Text.sameFolded_congr hc.1]

theorem once_recased (h : List.Forall₂ Recased columns columns') (hone : Once columns name) :
    Once columns' name := by
  rw [Once, countP_recased h]
  exact hone

theorem seen?_recased (h : List.Forall₂ Recased columns columns') (cell : Nat → Value) (name : Text) :
    seen? cell columns' name = seen? cell columns name := by
  induction h generalizing cell with
  | nil => rfl
  | cons hc _ ih => rw [seen?_cons, seen?_cons, Text.sameFolded_congr hc.1, hc.2, ih]

end Recased

section Inserted

variable {place : Nat}

theorem once_inserted (hc : Text.sameFolded c.name name = false) (hone : Once columns name) :
    Once (columns.insertIdx place c) name := by
  by_cases hplace : place ≤ columns.length
  · rw [Once, (List.perm_insertIdx c columns hplace).countP_eq, List.countP_cons, if_neg (by simp [hc])]
    exact hone
  · rw [List.insertIdx_of_length_lt (by omega)]
    exact hone

-- By the columns in front of the new one.
theorem seen?_inserted (hc : Text.sameFolded c.name name = false)
    (hbefore : ∀ i < place, cell' i = cell i) (hbehind : ∀ i, place ≤ i → cell' (i + 1) = cell i) :
    seen? cell' (columns.insertIdx place c) name = seen? cell columns name := by
  induction columns generalizing place cell cell' with
  | nil =>
    cases place with
    | zero => rw [List.insertIdx_zero, seen?_cons, hc]; rfl
    | succ place => rfl
  | cons d rest ih =>
    cases place with
    | zero =>
      have hcells : (fun i => cell' (i + 1)) = cell := funext fun i => hbehind i (Nat.zero_le i)
      rw [List.insertIdx_zero, seen?_cons, hc, hcells]
      rfl
    | succ place =>
      rw [List.insertIdx_succ_cons, seen?_cons, seen?_cons, hbefore 0 (Nat.succ_pos place)]
      rw [ih (fun i hi => hbefore (i + 1) (by omega)) fun i hi => hbehind (i + 1) (by omega)]

theorem getD_insertIdx (cells : List Value) (place : Nat) (v : Value) :
    (∀ i < place, (cells.insertIdx place v).getD i .null = cells.getD i .null) ∧
      ∀ i, place ≤ i → (cells.insertIdx place v).getD (i + 1) .null = cells.getD i .null := by
  simp only [List.getD_eq_getElem?_getD, List.getElem?_insertIdx]
  refine ⟨fun i hi => by rw [if_pos hi], fun i hi => ?_⟩
  rw [if_neg (by omega), if_neg (by omega), Nat.add_sub_cancel]

end Inserted

end ResultSet

namespace EntityBinding

open ResultSet (seen?)

variable {columns columns' : List Column} {row row' : Row}

theorem bindField_alike {aliasName : Option Text} {f : Field}
    (h : seen? row'.cell columns' (columnName aliasName f) =
      seen? row.cell columns (columnName aliasName f)) :
    Option.Rel (ColumnBinding.Alike row row') (bindField columns aliasName f)
      (bindField columns' aliasName f) := by
  have hseen : ∀ (row : Row) columns, seen? row.cell columns (columnName aliasName f) =
      (bindField columns aliasName f).map fun b => (b.databaseType, row.cell b.ordinal) := by
    intro row columns
    rw [ResultSet.seen?_eq, bindField_eq, Option.map_bind]
    simp only [Function.comp_def, Option.map_map]
  have hfield : ∀ columns, ∀ b ∈ bindField columns aliasName f, b.field = f := by
    intro columns b hb
    rw [bindField_eq, Option.mem_def, Option.bind_eq_some_iff] at hb
    obtain ⟨i, -, hb⟩ := hb
    obtain ⟨c, -, rfl⟩ := Option.map_eq_some_iff.mp hb
    rfl
  rw [hseen row', hseen row] at h
  cases hb : bindField columns aliasName f with
  | none =>
    rw [hb, Option.map_none, Option.map_eq_none_iff] at h
    rw [h]
    exact .none
  | some b =>
    rw [hb, Option.map_some, Option.map_eq_some_iff] at h
    obtain ⟨b', hb', hsame⟩ := h
    rw [hb']
    exact .some ⟨(hfield columns' b' hb').trans (hfield columns b hb).symm, congrArg Prod.fst hsame,
      congrArg Prod.snd hsame⟩

-- A row that shows the same under the names of an entity.
theorem bind_alike {e : Entity} {aliasName : Option Text}
    (h : ∀ f ∈ e.fields, seen? row'.cell columns' (columnName aliasName f) =
      seen? row.cell columns (columnName aliasName f)) :
    (bind columns e aliasName).Alike row row' (bind columns' e aliasName) := by
  refine ⟨rfl, ?_⟩
  have hfields : List.Forall₂ (fun f f' => f = f' ∧ f ∈ e.fields) e.fields e.fields :=
    List.forall₂_same.mpr fun f hf => ⟨rfl, hf⟩
  refine List.rel_filterMap ?_ hfields
  rintro f _ ⟨rfl, hf⟩
  exact bindField_alike (h f hf)

end EntityBinding

namespace Materializer

open EntityBinding (columnName)
open ResultSet (seen?)

variable {m : Materializer} {set set' : ResultSet}

-- The names that columns are looked up by.
def boundNames (m : Materializer) : List Text :=
  m.root.fields.map (columnName none) ++
    (Include.flattenAll m.trees).flatMap fun n => n.target.fields.map (columnName (some n.aliasName))

-- Result sets that differ in what should not matter.
inductive Relaid (m : Materializer) : ResultSet → ResultSet → Prop where
  | permuted (set : ResultSet) (places : List Nat) (h : places.Perm (List.range set.columns.length)) :
    Relaid m set (set.arrange places)
  | recased (set : ResultSet) (columns : List Column)
      (h : List.Forall₂ ResultSet.Recased set.columns columns) :
    Relaid m set { set with columns }
  | inserted (set : ResultSet) (place : Nat) (c : Column) (values : Nat → Value)
      (h : ∀ name ∈ m.boundNames, Text.sameFolded c.name name = false) :
    Relaid m set (set.insertColumn place c values)

-- The outcome is fixed by what the rows show under these names.
theorem read_eq_of_seen (hcancel : set'.cancelAt = set.cancelAt)
    (h : List.Forall₂ (fun cells cells' => ∀ name ∈ m.boundNames,
      seen? (cells'.getD · .null) set'.columns name = seen? (cells.getD · .null) set.columns name)
      set.rows set'.rows) :
    m.read set' = m.read set := by
  have hrows : List.Forall₂ (fun cells cells' => ∀ i j,
      m.AlikeRows set.columns set'.columns ⟨i, cells⟩ ⟨j, cells'⟩) set.rows set'.rows := by
    refine h.imp fun cells cells' hseen i j => ⟨?_, fun n hn => ?_⟩
    · exact EntityBinding.bind_alike fun f hf => hseen _ (List.mem_append_left _ (List.mem_map_of_mem hf))
    · exact EntityBinding.bind_alike fun f hf => hseen _ (List.mem_append_right _
        (List.mem_flatMap.mpr ⟨n, hn, List.mem_map_of_mem hf⟩))
  have hids : List.map ((⟨[]⟩ : Store).size + ·) = id := funext fun ids => by simp [Store.size]
  have hbeside : Beside ⟨[]⟩ True (List.map ((⟨[]⟩ : Store).size + ·)) (m.read set) (m.read set') := by
    refine beside_readRows (fun _ => rfl) (fun i j hindex => ?_) hrows
    rw [hindex trivial]
    exact beside_advance hcancel i
  exact Beside.eq_of_empty (hids ▸ hbeside)

-- What a change of the layout keeps: no name is there twice, and all rows
-- show the same under it.
theorem Relaid.seen (h : m.Relaid set set')
    (hone : ∀ name ∈ m.boundNames, ResultSet.Once set.columns name) :
    (∀ name ∈ m.boundNames, ResultSet.Once set'.columns name) ∧ set'.cancelAt = set.cancelAt ∧
      List.Forall₂ (fun cells cells' => ∀ name ∈ m.boundNames,
        seen? (cells'.getD · .null) set'.columns name = seen? (cells.getD · .null) set.columns name)
        set.rows set'.rows := by
  cases h with
  | permuted places hplaces =>
    refine ⟨fun name hname => ResultSet.once_arranged hplaces (hone name hname), rfl, ?_⟩
    refine List.forall₂_map_right_iff.mpr (List.forall₂_same.mpr fun cells _ name hname => ?_)
    exact ResultSet.seen?_arranged hplaces (hone name hname) cells
  | recased columns hcolumns =>
    refine ⟨fun name hname => ResultSet.once_recased hcolumns (hone name hname), rfl, ?_⟩
    exact List.forall₂_same.mpr fun cells _ name _ => ResultSet.seen?_recased hcolumns _ name
  | inserted place c values hc =>
    refine ⟨fun name hname => ResultSet.once_inserted (hc name hname) (hone name hname), rfl, ?_⟩
    refine List.forall₂_iff_get.mpr ⟨(List.length_mapIdx).symm, fun i hi hi' name hname => ?_⟩
    obtain ⟨hbefore, hbehind⟩ := ResultSet.getD_insertIdx (set.rows.get ⟨i, hi⟩) place (values i)
    simp only [ResultSet.insertColumn, List.get_eq_getElem, List.getElem_mapIdx]
    exact ResultSet.seen?_inserted (hc name hname) hbefore hbehind

-- A result set may be laid out in any way: with the columns in another order,
-- with names in other case, and with further columns. The same graph is read
-- from it, or there is the same error.
theorem read_relaid
    (hdistinct : set.columns.Pairwise fun a b => Text.sameFolded a.name b.name = false)
    (h : Relation.ReflTransGen m.Relaid set set') : m.read set' = m.read set := by
  have hkept : (∀ name ∈ m.boundNames, ResultSet.Once set'.columns name) ∧
      m.read set' = m.read set := by
    induction h with
    | refl => exact ⟨fun name _ => ResultSet.once_of_distinct hdistinct name, rfl⟩
    | tail _ hstep ih =>
      obtain ⟨hone, hcancel, hseen⟩ := hstep.seen ih.1
      exact ⟨hone, (read_eq_of_seen hcancel hseen).trans ih.2⟩
  exact hkept.2

-- The posts of an author with the titles in front, and with a column of notes.
def relaidPosts : ResultSet where
  columns := [⟨"T1_Title", []⟩, ⟨"ID", []⟩, ⟨"note", "text"⟩, ⟨"t1_id", []⟩]
  rows :=
    [[.string "A", .int 1, .string "new", .int 10], [.string "B", .int 1, .string "new", .int 11],
      [.string "C", .int 1, .string "new", .int 10]]

theorem read_relaid_posts :
    (postsSet.columns.Pairwise fun a b => Text.sameFolded a.name b.name = false) ∧
      Relation.ReflTransGen postsMaterializer.Relaid postsSet relaidPosts ∧
      postsMaterializer.read relaidPosts = postsMaterializer.read postsSet := by
  have hdistinct : postsSet.columns.Pairwise fun a b => Text.sameFolded a.name b.name = false := by
    decide
  have hpermuted : postsMaterializer.Relaid postsSet (postsSet.arrange [2, 0, 1]) :=
    .permuted _ _ (by decide)
  have hrecased : postsMaterializer.Relaid (postsSet.arrange [2, 0, 1])
      { postsSet.arrange [2, 0, 1] with
        columns := [⟨"T1_Title", []⟩, ⟨"ID", []⟩, ⟨"t1_id", []⟩] } :=
    .recased _ _ (.cons ⟨by decide, rfl⟩ (.cons ⟨by decide, rfl⟩ (.cons ⟨by decide, rfl⟩ .nil)))
  have hinserted : postsMaterializer.Relaid
      { postsSet.arrange [2, 0, 1] with
        columns := [⟨"T1_Title", []⟩, ⟨"ID", []⟩, ⟨"t1_id", []⟩] } relaidPosts :=
    .inserted _ 2 ⟨"note", "text"⟩ (fun _ => .string "new") (by decide)
  have hrelaid : Relation.ReflTransGen postsMaterializer.Relaid postsSet relaidPosts :=
    ((Relation.ReflTransGen.single hpermuted).tail hrecased).tail hinserted
  exact ⟨hdistinct, hrelaid, read_relaid hdistinct hrelaid⟩

end Materializer

end EntitySql
