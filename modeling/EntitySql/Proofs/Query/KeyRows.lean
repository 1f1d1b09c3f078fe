import EntitySql.Proofs.Query.Groups
import EntitySql.Proofs.Rows.Values

-- The keys of groups as a database returns them. The statement for them selects
-- the columns of the fields, and a cell is converted to the very value that the
-- field of an entity is given from such a cell.

namespace EntitySql.Query

open Materializer (rowsFrom)
open Sql (Term Compiler)

variable {p : Plan} {fields : List Field} {s : Services} {env : Environment}

theorem selectedColumn?_member {c : Compiler} {e : Entity} (he : c.registry.find? e.type = some e)
    {f : Field} {name : Text} (hf : e.property? name = some f) {id owner : NodeId}
    {parameter : Text} {found : Option Term}
    (h : c.selectedColumn? (.member id (.parameter owner ⟨parameter, e.type, false⟩) name) =
      .ok found) : found = some (.column c.rootAlias? f.column) := by
  simp only [Compiler.selectedColumn?, Expr.body, Bool.false_eq_true, if_false, he,
    Option.bind_some, hf] at h
  cases hcolumn : c.rootColumn f.column with
  | error fault =>
    rw [hcolumn] at h
    cases h
  | ok t =>
    rw [hcolumn] at h
    cases h
    rw [Compiler.rootColumn, Compiler.column] at hcolumn
    split at hcolumn
    · cases hcolumn
    · cases hcolumn
      rfl

theorem Plan.KeyedBy.groupColumns (h : p.KeyedBy fields) {c : Compiler}
    (hroot : c.registry.find? p.root.type = some p.root) {columns : List Term}
    (hcolumns : p.clauses.groupColumns c = .ok columns) :
    columns = fields.map fun f => .column c.rootAlias? f.column := by
  have hselected : ∀ found, Clauses.selectedColumns? c p.clauses.groupKeys = .ok found →
      found = some (fields.map fun f => .column c.rootAlias? f.column) := by
    unfold KeyedBy at h
    clear hcolumns
    generalize p.clauses.groupKeys = keys at h
    induction h with
    | nil =>
      rintro found ⟨⟩
      rfl
    | cons hkey _ ih =>
      intro found hfound
      obtain ⟨id, owner, parameter, name, rfl, hf⟩ := hkey
      obtain ⟨first, hfirst, hfound⟩ := Result.bind_eq_ok.mp hfound
      obtain rfl := selectedColumn?_member hroot hf hfirst
      obtain ⟨others, hothers, hfound⟩ := Result.bind_eq_ok.mp hfound
      obtain rfl := ih others hothers
      cases hfound
      rfl
  rw [Clauses.groupColumns] at hcolumns
  cases hkeys : Clauses.selectedColumns? c p.clauses.groupKeys with
  | error fault =>
    rw [hkeys] at hcolumns
    cases hcolumns
  | ok found =>
    rw [hkeys, hselected found hkeys] at hcolumns
    cases hcolumns
    rfl

-- The columns of the statement for the keys are those of the fields.
theorem Plan.KeyedBy.projections (h : p.KeyedBy fields)
    (hroot : s.registry.find? p.root.type = some p.root) {before after : Sql.Compiler.State}
    {q : Select} {includes : Option Include.Plan}
    (hselect : Yields (select s env { keysOnly := true } p) before (q, includes) after) :
    q.parts.projections = fields.map fun f => .groupKey (.column none f.column) := by
  cases p with
  | mk clauses conditions operations =>
    obtain ⟨columns, projections, first, source, joins, filters, second, having, third, orders,
      fourth, combined, hincludes, hcolumns, hprojections, -, -, -, -, -, -, rfl⟩ :=
      clauses_of_yields hselect
    cases hincludes
    obtain rfl := h.groupColumns (c := s.compiler env clauses.root none) hroot hcolumns
    obtain ⟨rfl, -⟩ := yields_keyProjections hprojections
    exact List.map_map

namespace GroupRow

variable {converter : Conversion.Converter} {set : ResultSet}

theorem forall₂_readAll {fields : List (Option Field)} {cells : List (List Value)} {index : Nat}
    {rows : List GroupRow} {cancelled cancelled' : Bool}
    (h : Yields (readAll converter fields set index cells) cancelled rows cancelled') :
    List.Forall₂ (fun row r => read converter fields set row.index row.cells = .ok r)
      (rowsFrom index cells) rows := by
  induction cells generalizing index rows cancelled with
  | nil =>
    rw [readAll, Yields.get_bind_iff] at h
    obtain ⟨_, _, h⟩ := Yields.lift_bind_iff.mp h
    obtain ⟨_, _, _, h⟩ := Yields.bind_iff.mp h
    obtain ⟨rfl, -⟩ := Yields.pure_iff.mp h
    exact .nil
  | cons first rest ih =>
    rw [readAll, Yields.get_bind_iff] at h
    obtain ⟨_, _, h⟩ := Yields.lift_bind_iff.mp h
    obtain ⟨_, _, _, h⟩ := Yields.bind_iff.mp h
    obtain ⟨row, hrow, h⟩ := Yields.lift_bind_iff.mp h
    obtain ⟨others, _, hothers, h⟩ := Yields.bind_iff.mp h
    obtain ⟨rfl, rfl⟩ := Yields.pure_iff.mp h
    exact .cons hrow (ih hothers)

end GroupRow

-- The row of a group gives the key.
def KeyRow (converter : Conversion.Converter) (fields : List Field) (set : ResultSet) (row : Row)
    (key : Value) : Prop :=
  ∃ r, GroupRow.read converter (fields.map some) set row.index row.cells = .ok r ∧ r.key = key

-- A cell of the type stands in the row for the field of an entity.
def Delivers (b : EntityBinding) (row : Row) (f : Field) (column : Column) (v : Value) : Prop :=
  ∃ c ∈ b.columns, c.field = f ∧ c.databaseType = column.typeName ∧ row.cell c.ordinal = v

def SameCells (b : EntityBinding) (row : Row) : List Field → List Column → List Value → Prop
  | [], _, _ => True
  | f :: fields, column :: columns, v :: cells =>
    Delivers b row f column v ∧ SameCells b row fields columns cells
  | _ :: _, _, _ => False

section

variable {converter : Conversion.Converter} {e : Entity} {columns : List Column} {row : Row}
variable {i : Instance}

-- One cell, and the value on both of its ways.
theorem value_of_delivers (hconverter : converter.fallback.KeepsDoubles)
    (hproperties : (e.fields.map Field.property).Nodup)
    (hrefines : ∀ f ∈ e.fields, Entity.refines f.member.fieldType f.type = true)
    {f : Field} {column : Column} {v key : Value} {index : Nat}
    (hdelivers : Delivers (.bind columns e none) row f column v)
    (hkey : GroupRow.readCell converter index column (some f) v = .ok key)
    (hread : row.readInstance converter (.bind columns e none) = .ok i) : i.value f = key := by
  obtain ⟨c, hc, rfl, htype, rfl⟩ := hdelivers
  have hcell := Row.readCell_of_readInstance hconverter hproperties hrefines hread hc
  rw [GroupRow.readCell, ← htype] at hkey
  rw [Row.readCell] at hcell
  split at hkey
  · next hnull =>
    rw [if_pos hnull] at hcell
    exact Except.ok.inj (hcell.symm.trans hkey)
  · next hnull =>
    rw [if_neg hnull] at hcell
    exact Except.ok.inj (hcell.symm.trans (Row.ok_of_mapError hkey))

theorem values_of_sameCells (hconverter : converter.fallback.KeepsDoubles)
    (hproperties : (e.fields.map Field.property).Nodup)
    (hrefines : ∀ f ∈ e.fields, Entity.refines f.member.fieldType f.type = true)
    (hread : row.readInstance converter (.bind columns e none) = .ok i) {index : Nat}
    {keyColumns : List Column} {cells parts : List Value}
    (hsame : SameCells (.bind columns e none) row fields keyColumns cells)
    (hparts : GroupRow.readKeys converter index (fields.map some) keyColumns cells = .ok parts) :
    parts = fields.map i.value := by
  induction fields generalizing keyColumns cells parts with
  | nil =>
    cases hparts
    rfl
  | cons f rest ih =>
    match keyColumns, cells, hsame with
    | column :: keyColumns, v :: cells, ⟨hdelivers, hsame⟩ =>
      obtain ⟨key, hkey, hparts⟩ := Result.bind_eq_ok.mp hparts
      obtain ⟨keys, hkeys, hparts⟩ := Result.bind_eq_ok.mp hparts
      cases hparts
      rw [List.map_cons, ih hsame hkeys,
        value_of_delivers hconverter hproperties hrefines hdelivers hkey hread]

end

end EntitySql.Query
