import EntitySql.Include.Join
import EntitySql.Proofs.Include.Chain
import EntitySql.Proofs.Text.Join
import EntitySql.Proofs.Text.Numeral
import EntitySql.Rows

-- The columns of a joined result: those of the root under their own names,
-- those of every include under names that begin with its alias. No two of
-- the names are the same, also not but for case.

namespace EntitySql

namespace Text

theorem toLower_of_isDigit {c : UInt8} (h : Byte.isDigit c = true) : Byte.toLower c = c := by
  rw [Byte.toLower, if_neg]
  simp only [Byte.isDigit, Byte.isUpper, Bool.and_eq_true, decide_eq_true_eq, UInt8.le_iff_toNat_le] at h ⊢
  simp only [UInt8.reduceToNat] at h ⊢
  omega

theorem isDigit_toLower (c : UInt8) : Byte.isDigit (Byte.toLower c) = Byte.isDigit c := by
  rw [Byte.toLower]
  split
  · next h =>
    rw [Bool.eq_iff_iff]
    simp only [Byte.isDigit, Byte.isUpper, Bool.and_eq_true, decide_eq_true_eq, UInt8.le_iff_toNat_le,
      UInt8.toNat_add] at h ⊢
    simp only [UInt8.reduceToNat] at h ⊢
    omega
  · rfl

theorem lower_ofNat (n : Nat) : lower (ofNat n) = ofNat n := by
  have hsame : (ofNat n).map Byte.toLower = (ofNat n).map id :=
    List.map_congr_left fun c hc => toLower_of_isDigit (isDigit_of_mem_ofNat hc)
  rw [lower, hsame, List.map_id]

-- Digits end where something else begins.
theorem ofNat_append_inj {m n : Nat} {a b : UInt8} {s t : Text} (ha : Byte.isDigit a = false)
    (hb : Byte.isDigit b = false) (h : ofNat m ++ a :: s = ofNat n ++ b :: t) : m = n ∧ s = t := by
  have hcut : ∀ {k : Nat} {c : UInt8} {u : Text}, Byte.isDigit c = false →
      (ofNat k ++ c :: u).takeWhile Byte.isDigit = ofNat k := by
    intro k c u hc
    rw [List.takeWhile_append_of_pos fun d hd => isDigit_of_mem_ofNat hd, List.takeWhile_cons_of_neg
      (by simp [hc]), List.append_nil]
  have hdigits : ofNat m = ofNat n := by
    rw [← hcut (u := s) ha, h, hcut hb]
  rw [hdigits] at h
  exact ⟨ofNat_injective hdigits, (List.cons.inj (List.append_cancel_left h)).2⟩

end Text

namespace Include

namespace SelectedColumn

-- The name of a column in the result.
def resultName (c : SelectedColumn) : Text := c.name.getD c.column.2

end SelectedColumn

-- All selected columns of a plan, also of one without includes.
def projection (p : Plan) : List SelectedColumn :=
  p.root.fields.map rootColumn ++ p.nodes.flatMap fun n => n.target.fields.map (nodeColumn n)

-- Entities whose columns are told apart in a joined result: their names
-- differ, and none has a digit where an alias has one.
structure Separate (e : Entity) : Prop where
  columns : e.fields.Pairwise fun f g => Text.sameFolded f.column g.column = false
  unaliased : ∀ f ∈ e.fields, (f.column[1]?).all (fun c => !Byte.isDigit c) = true

theorem lower_columnAlias (number : Nat) (column : Text) :
    Text.lower (Plan.columnAlias (Node.aliasOf number) column) =
      (0x74 : UInt8) :: (Text.ofNat number ++ Byte.underscore :: Text.lower column) := by
  have ht : Text.ofString "t" = [0x74] := by decide
  rw [Plan.columnAlias, Node.aliasOf, ht, Text.lower, List.map_append, List.map_append]
  have hdigits := Text.lower_ofNat number
  rw [Text.lower] at hdigits
  rw [hdigits]
  rfl

theorem sameFolded_columnAlias {m n : Nat} {a b : Text}
    (h : Text.sameFolded (Plan.columnAlias (Node.aliasOf m) a) (Plan.columnAlias (Node.aliasOf n) b) = true) :
    m = n ∧ Text.sameFolded a b = true := by
  rw [Text.sameFolded_iff, lower_columnAlias, lower_columnAlias] at h
  obtain ⟨hnumber, hcolumn⟩ := Text.ofNat_append_inj (by decide) (by decide) (List.cons.inj h).2
  exact ⟨hnumber, Text.sameFolded_iff.mpr hcolumn⟩

-- Whether a name is a t, digits and an underscore, and whatever follows, be
-- the t of either case.
def isAliased (name : Text) : Bool :=
  match Text.lower name with
  | 0x74 :: rest =>
    !(rest.takeWhile Byte.isDigit).isEmpty && (rest.dropWhile Byte.isDigit).head? == some Byte.underscore
  | _ => false

theorem isAliased_iff {name : Text} : isAliased name = true ↔
    ∃ digits text, digits ≠ [] ∧ (∀ d ∈ digits, Byte.isDigit d = true) ∧
      Text.lower name = (0x74 : UInt8) :: (digits ++ Byte.underscore :: text) := by
  constructor
  · intro h
    rw [isAliased] at h
    split at h
    · next rest hname =>
      rw [Bool.and_eq_true, Bool.not_eq_true', List.isEmpty_eq_false_iff, beq_iff_eq,
        List.head?_eq_some_iff] at h
      obtain ⟨hdigits, text, htext⟩ := h
      refine ⟨rest.takeWhile Byte.isDigit, text, hdigits, List.all_eq_true.mp List.all_takeWhile, ?_⟩
      rw [hname, ← htext, List.takeWhile_append_dropWhile]
    · cases h
  · rintro ⟨digits, text, hne, hdigits, hname⟩
    have hstop : Byte.isDigit Byte.underscore = false := by decide
    simp only [isAliased, hname]
    rw [List.takeWhile_append_of_pos hdigits, List.dropWhile_append_of_pos hdigits,
      List.dropWhile_cons_of_neg (by simp [hstop])]
    simp [hne]

theorem isAliased_of_sameFolded {name column : Text} {n : Nat}
    (h : Text.sameFolded name (Plan.columnAlias (Node.aliasOf n) column) = true) : isAliased name = true := by
  rw [Text.sameFolded_iff, lower_columnAlias] at h
  exact isAliased_iff.mpr ⟨Text.ofNat n, _, Text.ofNat_ne_nil n, fun d hd => Text.isDigit_of_mem_ofNat hd, h⟩

-- No column of a separate entity is named like one behind an alias.
theorem Separate.isAliased_eq_false {e : Entity} (h : Separate e) {f : Field} (hf : f ∈ e.fields) :
    isAliased f.column = false := by
  rw [← Bool.not_eq_true, isAliased_iff]
  rintro ⟨digits, text, hne, hdigits, hname⟩
  obtain ⟨d, rest, rfl⟩ := List.exists_cons_of_ne_nil hne
  have hsecond : (Text.lower f.column)[1]? = some d := by rw [hname]; rfl
  rw [Text.lower, List.getElem?_map, Option.map_eq_some_iff] at hsecond
  obtain ⟨c, hc, rfl⟩ := hsecond
  have hno := h.unaliased f hf
  rw [hc, Option.all_some, ← Text.isDigit_toLower, hdigits _ (List.mem_cons_self ..)] at hno
  cases hno

-- No two columns of an entity have one name, also not but for case.
def DistinctColumns (e : Entity) : Prop :=
  e.fields.Pairwise fun f g => Text.sameFolded f.column g.column = false

instance (e : Entity) : Decidable (DistinctColumns e) :=
  inferInstanceAs (Decidable (e.fields.Pairwise _))

variable {registry : Registry} {p : Plan}

theorem pairwise_projection (hnumbers : p.nodes.Pairwise fun n m => n.number < m.number)
    (hroot : DistinctColumns p.root) (hunaliased : ∀ f ∈ p.root.fields, isAliased f.column = false)
    (hnodes : ∀ n ∈ p.nodes, DistinctColumns n.target) :
    (projection p).Pairwise fun a b => Text.sameFolded a.resultName b.resultName = false := by
  rw [projection, List.pairwise_append, List.pairwise_map, List.pairwise_flatMap]
  refine ⟨hroot, ⟨?_, ?_⟩, ?_⟩
  · intro n hn
    rw [List.pairwise_map]
    refine (hnodes n hn).imp fun {f g} hdiffer => ?_
    rw [← Bool.not_eq_true] at hdiffer ⊢
    intro hsame
    exact hdiffer (sameFolded_columnAlias hsame).2
  · refine hnumbers.imp fun {n m} hlt a ha b hb => ?_
    obtain ⟨f, -, rfl⟩ := List.mem_map.mp ha
    obtain ⟨g, -, rfl⟩ := List.mem_map.mp hb
    rw [← Bool.not_eq_true]
    intro hsame
    exact Nat.ne_of_lt hlt (sameFolded_columnAlias hsame).1
  · intro a ha b hb
    obtain ⟨f, hf, rfl⟩ := List.mem_map.mp ha
    obtain ⟨n, -, hb⟩ := List.mem_flatMap.mp hb
    obtain ⟨g, -, rfl⟩ := List.mem_map.mp hb
    rw [← Bool.not_eq_true]
    intro hsame
    have haliased : isAliased f.column = true := isAliased_of_sameFolded hsame
    rw [hunaliased f hf] at haliased
    cases haliased

-- A column is found under its name.
theorem ordinal?_of_getElem? {columns : List Column}
    (hnames : columns.Pairwise fun a b => Text.sameFolded a.name b.name = false) {i : Nat} {c : Column}
    (hc : columns[i]? = some c) : ResultSet.ordinal? columns c.name = some i := by
  obtain ⟨hlt, hget⟩ := List.getElem?_eq_some_iff.mp hc
  rw [ResultSet.ordinal?, List.findIdx?_eq_some_iff_getElem]
  refine ⟨hlt, ?_, ?_⟩
  · rw [hget, Text.sameFolded_iff]
  · intro j hj
    have hdiffer := List.pairwise_iff_getElem.mp hnames j i (Nat.lt_trans hj hlt) hlt hj
    rw [hget] at hdiffer
    rw [hdiffer]
    exact Bool.false_ne_true

end Include

end EntitySql
