import EntitySql.Proofs.Run
import EntitySql.Proofs.Schema.Lookup
import EntitySql.Proofs.Sql.Placeholders
import EntitySql.Query.Plan

-- The texts that a plan brings into its statements as they are: hand-written
-- SQL, names, and the strings in the defaults of its windows.

namespace EntitySql

mutual

def Value.strings : Value → List Text
  | .string t => [t]
  | .json j => [j.text]
  | .array items => stringsOf items
  | _ => []

def Value.stringsOf : List Value → List Text
  | [] => []
  | v :: rest => v.strings ++ stringsOf rest

end

namespace Query

def WindowFunction.fragments : WindowFunction → List Text
  | .rowNumber => []
  | .rank => []
  | .denseRank => []
  | .lead column _ default => column :: (default.map Value.strings).getD []
  | .lag column _ default => column :: (default.map Value.strings).getD []
  | .firstValue column => [column]
  | .lastValue column => [column]
  | .nthValue column _ => [column]
  | .sum column => [column]
  | .average column => [column]
  | .count column => [column]
  | .min column => [column]
  | .max column => [column]

def Window.fragments (w : Window) : List Text :=
  w.function.fragments ++ w.aliasName :: w.partitions ++ w.orders.map WindowOrder.column

def CommonTableBody.fragments : CommonTableBody → List Text
  | .plain sql => [sql]
  | .recursive anchor step => [anchor, step]

def CommonTable.fragments (t : CommonTable) : List Text := t.names ++ t.body.fragments

def Side.fragments : Side Expr → List Text
  | .raw sql => [sql]
  | .of _ => []

def Case.fragments (c : Case Expr) : List Text :=
  c.aliasName :: c.branches.flatMap fun b => b.1.fragments ++ b.2.fragments

def Clauses.fragments (c : Clauses) : List Text :=
  c.root.identifiers ++ c.tables.flatMap CommonTable.fragments ++
    c.windows.flatMap Window.fragments ++ c.cases.flatMap Case.fragments ++
    c.rawSelect :: c.rawFrom :: c.rawJoins

-- A filter with slots.
def Condition.slotted {π : Type} : Condition π → List Text
  | .raw sql _ => [sql]
  | _ => []

def Condition.fragments {π : Type} : Condition π → List Text
  | .raw sql _ => [sql]
  | .inRaw _ sql _ => [sql]
  | _ => []

def SetOperation.fragments {π : Type} (o : SetOperation π) : List Text :=
  match o.operand with
  | .query _ => []
  | .raw sql => [sql]

namespace Plan

mutual

-- The plan and all plans in its filters and set operations.
def nested : Plan → List Plan
  | ⟨clauses, conditions, operations⟩ =>
    ⟨clauses, conditions, operations⟩ :: (nestedInConditions conditions ++ nestedInOperations operations)

def nestedInCondition : Condition Plan → List Plan
  | .inQuery _ query _ => nested query
  | .exists query _ => nested query
  | _ => []

def nestedInConditions : List (Condition Plan) → List Plan
  | [] => []
  | c :: rest => nestedInCondition c ++ nestedInConditions rest

def nestedInOperand : Operand Plan → List Plan
  | .query q => nested q
  | .raw _ => []

def nestedInOperations : List (SetOperation Plan) → List Plan
  | [] => []
  | ⟨_, operand⟩ :: rest => nestedInOperand operand ++ nestedInOperations rest

end

def fragments (p : Plan) : List Text :=
  p.nested.flatMap fun q => q.clauses.fragments ++ q.conditions.flatMap Condition.fragments ++
    q.operations.flatMap SetOperation.fragments

def slotted (p : Plan) : List Text :=
  p.nested.flatMap fun q => q.conditions.flatMap Condition.slotted

end Plan

-- Without a marker in its fragments, no text below holds a placeholder.

open Sql

theorem placeholders_commaJoin {parts : List Text} (h : ∀ p ∈ parts, placeholders p = []) :
    placeholders (Text.commaJoin parts) = [] := by
  have hcomma : Parts ", " := by decide
  rw [Text.commaJoin, placeholders_join hcomma, List.flatMap_eq_nil_iff]
  exact h

theorem placeholders_identifier {name t : Text} (hname : Unmarked name)
    (h : identifier name = .ok t) : placeholders t = [] := by
  unfold identifier at h
  split at h
  · cases h
  · cases h
    exact placeholders_quoted (placeholders_of_unmarked hname)

theorem placeholders_ofInt (n : Int) : placeholders (Text.ofInt n) = [] :=
  placeholders_of_plain (.of_numeral (.ofInt n))

-- A literal in words and plain bytes.
theorem placeholders_enclosed_plain {before after : Text} (hbefore : atSign ∉ before)
    (hafter : Parts after) {t : Text} (ht : Text.Plain t) :
    placeholders (before ++ t ++ after) = [] := by
  rw [placeholders_enclosed hbefore hafter, placeholders_of_plain ht]

mutual

theorem placeholders_literal {v : Value} (hv : ∀ s ∈ v.strings, Unmarked s) {t : Text}
    (h : literal v = .ok t) : placeholders t = [] := by
  have hquote : atSign ∉ Text.ofString "'" := by decide
  cases v with
  | null =>
    cases h
    exact placeholders_of_not_mem (by decide)
  | bool b =>
    cases h
    exact placeholders_of_not_mem (by cases b <;> decide)
  | int n =>
    cases h
    exact placeholders_ofInt _
  | double x =>
    cases h
    unfold doubleLiteral
    split
    · exact placeholders_of_not_mem (by decide)
    · next negative _ => exact placeholders_of_not_mem (by cases negative <;> decide)
    · exact placeholders_of_plain (Text.Plain.seventeenDigits x)
  | string s =>
    exact placeholders_stringLiteral (placeholders_of_unmarked (hv s (by simp [Value.strings]))) h
  | uuid u =>
    cases h
    exact placeholders_enclosed_plain hquote (by decide) (Text.Plain.uuid u)
  | timestamp s =>
    cases h
    have hsuffix : Parts (Text.ofString "'::timestamp" ++
        if s.zoned then Text.ofString "tz" else []) := by
      cases s.zoned <;> decide
    rw [timestampLiteral, List.append_assoc _ (Text.ofString "'::timestamp")]
    exact placeholders_enclosed_plain hquote hsuffix (Text.Plain.timestamp s)
  | bytes b =>
    cases h
    exact placeholders_enclosed_plain (by decide) (by decide)
      (Text.Plain.hexBytes b)
  | array items =>
    rw [literal, Result.bind_eq_ok] at h
    obtain ⟨parts, hparts, h⟩ := h
    split at h
    · cases h
      exact placeholders_of_not_mem (by decide)
    · cases h
      rw [placeholders_enclosed (by decide) (by decide)]
      exact placeholders_commaJoin (placeholders_literals hv hparts)
  | json j =>
    rw [literal, Result.bind_eq_ok] at h
    obtain ⟨quoted, hquoted, h⟩ := h
    cases h
    rw [placeholders_before _ (by decide)]
    exact placeholders_stringLiteral
      (placeholders_of_unmarked (hv j.text (by simp [Value.strings]))) hquoted
  | inet a =>
    rw [literal, Result.bind_eq_ok] at h
    obtain ⟨quoted, hquoted, h⟩ := h
    cases h
    rw [placeholders_before _ (by decide)]
    exact placeholders_stringLiteral (placeholders_of_plain (Text.Plain.inet a)) hquoted
termination_by sizeOf v

theorem placeholders_literals {items : List Value} (hitems : ∀ s ∈ Value.stringsOf items, Unmarked s)
    {parts : List Text} (h : literals items = .ok parts) : ∀ p ∈ parts, placeholders p = [] := by
  cases items with
  | nil =>
    cases h
    simp
  | cons v rest =>
    rw [literals, Result.bind_eq_ok] at h
    obtain ⟨part, hpart, h⟩ := h
    obtain ⟨more, hmore, h⟩ := Result.bind_eq_ok.mp h
    cases h
    simp only [Value.stringsOf, List.mem_append, or_imp, forall_and] at hitems
    exact List.forall_mem_cons.mpr
      ⟨placeholders_literal hitems.1 hpart, placeholders_literals hitems.2 hmore⟩
termination_by sizeOf items

end

-- Windows.

theorem placeholders_offsetArguments {column : Text} {offset : Int} {default : Option Value}
    (h : ∀ s ∈ column :: (default.map Value.strings).getD [], Unmarked s) {t : Text}
    (ht : WindowFunction.offsetArguments column offset default = .ok t) : placeholders t = [] := by
  have hcomma : Parts ", " := by decide
  obtain ⟨hcolumn, hdefault⟩ := List.forall_mem_cons.mp h
  rw [WindowFunction.offsetArguments, Result.bind_eq_ok] at ht
  obtain ⟨name, hname, ht⟩ := ht
  have hfirst := placeholders_beside name (Text.ofInt offset) hcomma
  rw [placeholders_identifier hcolumn hname, placeholders_ofInt] at hfirst
  cases default with
  | none =>
    cases ht
    exact hfirst
  | some v =>
    obtain ⟨literal, hliteral, ht⟩ := Result.bind_eq_ok.mp ht
    cases ht
    rw [placeholders_beside _ _ hcomma, hfirst, placeholders_literal hdefault hliteral]
    rfl

theorem placeholders_arguments {f : WindowFunction} (h : ∀ s ∈ f.fragments, Unmarked s) {t : Text}
    (ht : f.arguments = .ok t) : placeholders t = [] := by
  have hstar : placeholders [Byte.star] = [] := placeholders_of_not_mem (by decide)
  have hrequired {column : Text} (hcolumn : Unmarked column)
      (hrequired : f.requiredColumn column = .ok t) : placeholders t = [] := by
    unfold WindowFunction.requiredColumn at hrequired
    split at hrequired
    · cases hrequired
    · exact placeholders_identifier hcolumn hrequired
  cases f with
  | rowNumber =>
    cases ht
    rfl
  | rank =>
    cases ht
    rfl
  | denseRank =>
    cases ht
    rfl
  | lead column offset default => exact placeholders_offsetArguments h ht
  | lag column offset default => exact placeholders_offsetArguments h ht
  | nthValue column position =>
    rw [WindowFunction.arguments, Result.bind_eq_ok] at ht
    obtain ⟨name, hname, ht⟩ := ht
    cases ht
    rw [placeholders_beside _ _ (by decide), placeholders_ofInt,
      placeholders_identifier (h column (by simp [WindowFunction.fragments])) hname]
    rfl
  | count column =>
    rw [WindowFunction.arguments] at ht
    split at ht
    · cases ht
      exact hstar
    · exact placeholders_identifier (h column (by simp [WindowFunction.fragments])) ht
  | firstValue column => exact hrequired (h column (by simp [WindowFunction.fragments])) ht
  | lastValue column => exact hrequired (h column (by simp [WindowFunction.fragments])) ht
  | sum column => exact hrequired (h column (by simp [WindowFunction.fragments])) ht
  | average column => exact hrequired (h column (by simp [WindowFunction.fragments])) ht
  | min column => exact hrequired (h column (by simp [WindowFunction.fragments])) ht
  | max column => exact hrequired (h column (by simp [WindowFunction.fragments])) ht

theorem placeholders_listClause {word : Text} (hword : atSign ∉ word) {items : List Text}
    (h : ∀ t ∈ items, placeholders t = []) :
    ∀ t ∈ Window.listClause word items, placeholders t = [] := by
  unfold Window.listClause
  split
  · simp
  · simp [placeholders_append_of_not_mem hword, placeholders_commaJoin h]

theorem not_mem_frameBound (b : FrameBound) : atSign ∉ b.text := by
  have hnumber (n : Int) : atSign ∉ Text.ofInt n := (Text.Plain.of_numeral (.ofInt n)).not_mem rfl
  cases b with
  | preceding n =>
    simp only [FrameBound.text, List.mem_append, hnumber, false_or]
    decide
  | following n =>
    simp only [FrameBound.text, List.mem_append, hnumber, false_or]
    decide
  | _ => decide

theorem not_mem_frame (f : Frame) : atSign ∉ f.text := by
  have hunit : atSign ∉ f.unit.text := by cases f.unit <;> decide
  have hbetween : atSign ∉ Text.ofString " BETWEEN " := by decide
  have hand : atSign ∉ Text.ofString " AND " := by decide
  simp [Frame.text, hunit, hbetween, hand, not_mem_frameBound]

theorem not_mem_name (f : WindowFunction) : atSign ∉ f.name := by
  cases f <;> rw [WindowFunction.name] <;> decide

theorem placeholders_windowOrder {o : WindowOrder} (h : Unmarked o.column) {t : Text}
    (ht : o.text = .ok t) : placeholders t = [] := by
  rw [WindowOrder.text, Result.bind_eq_ok] at ht
  obtain ⟨name, hname, ht⟩ := ht
  cases ht
  have hdirection : Parts (if o.ascending then Text.ofString " ASC" else Text.ofString " DESC") := by
    split <;> decide
  rw [placeholders_before _ hdirection]
  exact placeholders_identifier h hname

theorem placeholders_window {w : Window} (h : ∀ s ∈ w.fragments, Unmarked s) {t : Text}
    (ht : w.text = .ok t) : placeholders t = [] := by
  have hspace : Parts " " := by decide
  have hopen : atSign ∉ Text.ofString "(" := by decide
  simp only [Window.fragments, List.mem_append, List.mem_cons, List.mem_map, or_imp, forall_and,
    forall_eq, forall_exists_index, and_imp, forall_apply_eq_imp_iff₂] at h
  obtain ⟨⟨hfunction, halias, hpartitions⟩, horders⟩ := h
  rw [Window.text, Result.bind_eq_ok] at ht
  obtain ⟨arguments, harguments, ht⟩ := ht
  obtain ⟨partitions, hparts, ht⟩ := Result.bind_eq_ok.mp ht
  obtain ⟨orders, hords, ht⟩ := Result.bind_eq_ok.mp ht
  have hpartition := Result.forall_of_mapM
    (fun name hmem t ht => placeholders_identifier (hpartitions name hmem) ht) hparts
  have horder := Result.forall_of_mapM
    (fun o hmem t ht => placeholders_windowOrder (horders o hmem) ht) hords
  have hframe : ∀ t ∈ w.frameClause, placeholders t = [] := by
    unfold Window.frameClause
    split
    · simp
    · next f _ =>
      split
      · simp
      · simp [placeholders_of_not_mem (not_mem_frame f)]
  have hclauses : placeholders (Text.join " " (Window.listClause "PARTITION BY " partitions ++
      Window.listClause "ORDER BY " orders ++ w.frameClause)) = [] := by
    rw [placeholders_join hspace, List.flatMap_eq_nil_iff]
    intro t ht
    rw [List.mem_append, List.mem_append] at ht
    rcases ht with (ht | ht) | ht
    · exact placeholders_listClause (by decide) hpartition t ht
    · exact placeholders_listClause (by decide) horder t ht
    · exact hframe t ht
  have hcall : placeholders (w.function.name ++ Text.ofString "(" ++ arguments ++
      Text.ofString ") OVER (" ++ Text.join " " (Window.listClause "PARTITION BY " partitions ++
        Window.listClause "ORDER BY " orders ++ w.frameClause) ++ Text.ofString ")") = [] := by
    rw [placeholders_before _ (by decide), placeholders_beside _ _ (by decide),
      hclauses, List.append_nil, List.append_assoc,
      placeholders_append_of_not_mem (not_mem_name w.function), placeholders_append_of_not_mem hopen]
    exact placeholders_arguments hfunction harguments
  by_cases hempty : w.aliasName.isEmpty
  · rw [if_pos hempty] at ht
    cases ht
    exact hcall
  · rw [if_neg hempty, Result.bind_eq_ok] at ht
    obtain ⟨aliasName, haliasName, ht⟩ := ht
    cases ht
    rw [placeholders_beside _ _ (by decide), hcall,
      placeholders_identifier halias haliasName]
    rfl

end Query

end EntitySql
