import EntitySql.Proofs.Sql.Placeholders
import EntitySql.Sql.Compiler.Reference

-- The placeholders of terms. The text of a compound term is made of words and
-- of the texts of the terms right below it, so its placeholders are theirs.

namespace EntitySql.Sql

-- The words that terms print hold no at sign.

theorem Operator.not_mem_text (op : Operator) : atSign ∉ op.text := by
  cases op with
  | compare c => cases c <;> decide
  | arithmetic a => cases a <;> decide
  | _ => decide

theorem Function.not_mem_text (f : Function) : atSign ∉ f.text := by
  cases f <;> decide

theorem Aggregate.not_mem_text (f : Aggregate) : atSign ∉ f.text := by
  cases f <;> decide

theorem CastType.not_mem_text (type : CastType) : atSign ∉ type.text := by
  cases type <;> decide

theorem not_mem_partText (part : Eval.DatePart) : atSign ∉ partText part := by
  cases part <;> decide

theorem not_mem_unitText (unit : Eval.Interval) : atSign ∉ unitText unit := by
  cases unit <;> decide

namespace Term

theorem parts_nullTest (negated : Bool) : Parts (nullTest negated) := by
  cases negated <;> decide

theorem not_mem_likeWord (ignoreCase : Bool) : atSign ∉ likeWord ignoreCase := by
  cases ignoreCase <;> decide

theorem texts_eq_map (items : List Term) : texts items = items.map text := by
  induction items with
  | nil => rfl
  | cons item rest ih => rw [texts, ih, List.map_cons]

def placeholders (t : Term) : List Text := Sql.placeholders t.text

theorem placeholders_commaJoin (items : List Term) :
    Sql.placeholders (Text.commaJoin (items.map text)) = items.flatMap placeholders := by
  have hcomma : Parts ", " := by decide
  rw [Text.commaJoin, placeholders_join hcomma, List.flatMap_map]
  rfl

-- The terms right below a term, in the order of the text.
def operands : Term → List Term
  | .array items => items
  | .operation _ l r => [l, r]
  | .isNull t _ => [t]
  | .coalesce l r => [l, r]
  | .not t => [t]
  | .negate t => [t]
  | .cast t _ => [t]
  | .conditional test a b => [test, a, b]
  | .apply _ t => [t]
  | .substring t start => [t, start]
  | .substringFor t start count => [t, start, count]
  | .extract _ t => [t]
  | .addInterval t _ _ => [t]
  | .addIntervals t amount _ => [t, amount]
  | .round t => [t]
  | .roundTo t digits => [t, digits]
  | .countWhere t => [t]
  | .aggregate _ t => [t]
  | .isIn item items => item :: items
  | .isElement item items => [item, items]
  | .like _ l r => [l, r]
  | .pattern _ _ t => [t]
  | _ => []

-- Whether the text consists of words and of the texts of the operands.
def isCompound : Term → Bool
  | .value _ => false
  | .placeholder _ => false
  | .column _ _ => false
  | .groupKey _ => false
  | .addInterval _ amount _ => !amount.elem atSign
  | _ => true

theorem placeholders_patternText (leading trailing : Bool) (t : Text) :
    Sql.placeholders (patternText leading trailing t) = Sql.placeholders t := by
  have hlead : atSign ∉ (if leading then "'%'" ++ beside else []) := by
    cases leading <;> decide
  have htrail : Parts (beside ++ "'%'") := by decide
  rw [patternText, List.append_assoc, placeholders_append_of_not_mem hlead]
  cases trailing with
  | false => rw [if_neg Bool.false_ne_true, List.append_nil]
  | true => rw [if_pos rfl, placeholders_before t htrail]

theorem placeholders_of_isCompound {t : Term} (h : t.isCompound = true) :
    t.placeholders = t.operands.flatMap placeholders := by
  have hopen : atSign ∉ Text.ofString "(" := by decide
  have hclose : Parts ")" := by decide
  have hspace : Parts " " := by decide
  have hcomma : Parts ", " := by decide
  unfold placeholders
  cases t with
  | value literal => cases h
  | placeholder index => cases h
  | column table name => cases h
  | groupKey sql => cases h
  | null => exact placeholders_of_not_mem (by decide)
  | currentTimestamp => exact placeholders_of_not_mem (by decide)
  | falsity => exact placeholders_of_not_mem (by decide)
  | countRows => exact placeholders_of_not_mem (by decide)
  | array items =>
    rw [text]
    by_cases hempty : items.isEmpty
    · rw [if_pos hempty, List.isEmpty_iff.mp hempty]
      exact placeholders_of_not_mem (by decide)
    · rw [if_neg hempty, placeholders_enclosed (by decide) (by decide),
        texts_eq_map, placeholders_commaJoin]
      rfl
  | operation op l r =>
    rw [text, placeholders_before _ hclose, placeholders_beside _ _ hspace,
      placeholders_beside _ _ hspace, placeholders_append_of_not_mem hopen,
      placeholders_of_not_mem op.not_mem_text]
    simp [operands]
  | isNull t negated =>
    rw [text, placeholders_before _ (parts_nullTest negated)]
    simp [operands]
  | coalesce l r =>
    rw [text, placeholders_before _ hclose, placeholders_beside _ _ hcomma,
      placeholders_append_of_not_mem (by decide)]
    simp [operands]
  | not t =>
    rw [text, placeholders_enclosed (by decide) hclose]
    simp [operands]
  | negate t =>
    rw [text, placeholders_append_of_not_mem (by decide)]
    simp [operands]
  | cast t type =>
    rw [text, placeholders_before _ hclose, placeholders_beside _ _ (by decide),
      placeholders_append_of_not_mem (by decide), placeholders_of_not_mem type.not_mem_text]
    simp [operands]
  | conditional test a b =>
    rw [text, placeholders_before _ (by decide), placeholders_beside _ _ (by decide),
      placeholders_beside _ _ (by decide), placeholders_append_of_not_mem (by decide)]
    simp [operands]
  | apply f t =>
    have hname : atSign ∉ f.text ++ Text.ofString "(" := by
      simp [f.not_mem_text, hopen]
    rw [text, placeholders_enclosed hname hclose]
    simp [operands]
  | substring t start =>
    rw [text, placeholders_before _ (by decide), placeholders_beside _ _ (by decide),
      placeholders_append_of_not_mem (by decide)]
    simp [operands]
  | substringFor t start count =>
    rw [text, placeholders_before _ hclose, placeholders_beside _ _ (by decide),
      placeholders_beside _ _ (by decide), placeholders_append_of_not_mem (by decide)]
    simp [operands]
  | extract part t =>
    rw [text, placeholders_before _ hclose, placeholders_beside _ _ (by decide),
      placeholders_append_of_not_mem (by decide),
      placeholders_of_not_mem (not_mem_partText part)]
    simp [operands]
  | addInterval t amount unit =>
    have hamount : atSign ∉ amount := by simpa [isCompound] using h
    rw [text, placeholders_before _ (by decide), placeholders_beside _ _ hspace,
      placeholders_beside _ _ (by decide), placeholders_append_of_not_mem hopen,
      placeholders_of_not_mem hamount, placeholders_of_not_mem (not_mem_unitText unit)]
    simp [operands]
  | addIntervals t amount unit =>
    rw [text, placeholders_before _ (by decide), placeholders_beside _ _ (by decide),
      placeholders_beside _ _ (by decide), placeholders_append_of_not_mem hopen,
      placeholders_of_not_mem (not_mem_unitText unit)]
    simp [operands]
  | round t =>
    rw [text, placeholders_enclosed (by decide) hclose]
    simp [operands]
  | roundTo t digits =>
    rw [text, placeholders_before _ hclose, placeholders_beside _ _ (by decide),
      placeholders_append_of_not_mem (by decide)]
    simp [operands]
  | countWhere t =>
    rw [text, placeholders_enclosed (by decide) hclose]
    simp [operands]
  | aggregate f t =>
    have hname : atSign ∉ f.text ++ Text.ofString "(" := by
      simp [f.not_mem_text, hopen]
    rw [text, placeholders_enclosed hname hclose]
    simp [operands]
  | isIn item items =>
    rw [text, placeholders_before _ hclose, placeholders_beside _ _ (by decide),
      texts_eq_map, placeholders_commaJoin]
    rfl
  | isElement item items =>
    rw [text, placeholders_before _ hclose, placeholders_beside _ _ (by decide)]
    simp [operands]
  | like ignoreCase l r =>
    rw [text, placeholders_beside _ _ hspace, placeholders_beside _ _ hspace,
      placeholders_of_not_mem (not_mem_likeWord ignoreCase)]
    simp [operands]
  | pattern leading trailing t =>
    rw [text, placeholders_patternText]
    simp [operands]

end Term

-- Columns.

theorem Compiler.eq_of_column {table : Option Text} {name : Text} {t : Term}
    (h : column table name = .ok t) : t = .column table name := by
  unfold column at h
  split at h
  · cases h
  · cases h
    rfl

theorem Compiler.placeholders_of_column {table : Option Text} {name : Text} {t : Term}
    (h : column table name = .ok t) (htable : ∀ aliasName ∈ table, placeholders aliasName = [])
    (hname : Unmarked name) : t.placeholders = [] := by
  rw [eq_of_column h]
  exact placeholders_columnText htable (placeholders_of_unmarked hname)

-- The only member of a group is its one column.
theorem Compiler.exists_groupKey_of_groupMember {group : GroupColumns} {source owner : Expr}
    {name : Text} {t : Term} (h : groupMember group source owner name = .ok t) :
    ∃ column, group = some [column] ∧ t = .groupKey column := by
  unfold groupMember at h
  split at h
  · split at h
    · cases h
    · cases h
    · next column =>
      cases h
      exact ⟨column, rfl, rfl⟩
    · cases h
  · cases h

end EntitySql.Sql
