import EntitySql.Proofs.Sql.Terms

-- The text of a term as words around the texts of its operands. What holds of
-- all texts of terms can be proved of the words and carried over the operands.

namespace EntitySql.Sql.Term

-- Items with a separator between them and a last word behind them.
def separated (separator last : Text) : List Term → List (Term × Text)
  | [] => []
  | [t] => [(t, last)]
  | t :: rest => (t, separator) :: separated separator last rest

-- What a term prints in front of its operands.
def opening : Term → Text
  | .null => "NULL"
  | .value literal => literal
  | .placeholder index => parameterName index
  | .currentTimestamp => Sql.currentTimestamp
  | .column table name => columnText table name
  | .groupKey sql => sql
  | .array items => if items.isEmpty then emptyArray else "ARRAY["
  | .falsity => "FALSE"
  | .operation .. => "("
  | .coalesce .. => "COALESCE("
  | .not _ => "NOT ("
  | .negate _ => "-"
  | .cast .. => "CAST("
  | .conditional .. => "CASE WHEN "
  | .apply f _ => f.text ++ "("
  | .substring .. => "SUBSTRING("
  | .substringFor .. => "SUBSTRING("
  | .extract part _ => "EXTRACT(" ++ partText part ++ " FROM "
  | .addInterval .. => "("
  | .addIntervals .. => "("
  | .round _ => "ROUND("
  | .roundTo .. => "ROUND(("
  | .countRows => "COUNT(*)"
  | .countWhere _ => "COUNT(*) FILTER (WHERE "
  | .aggregate f _ => f.text ++ "("
  | .pattern leading _ _ => if leading then "'%'" ++ beside else []
  | _ => []

-- Its operands, each with what is printed behind it.
def behind : Term → List (Term × Text)
  | .array items => separated ", " "]" items
  | .operation op l r => [(l, " " ++ op.text ++ " "), (r, ")")]
  | .isNull t negated => [(t, nullTest negated)]
  | .coalesce l r => [(l, ", "), (r, ")")]
  | .not t => [(t, ")")]
  | .negate t => [(t, [])]
  | .cast t type => [(t, " AS " ++ type.text ++ ")")]
  | .conditional test a b => [(test, " THEN "), (a, " ELSE "), (b, " END")]
  | .apply _ t => [(t, ")")]
  | .substring t start => [(t, " FROM ("), (start, " + 1))")]
  | .substringFor t start count => [(t, " FROM ("), (start, " + 1) FOR "), (count, ")")]
  | .extract _ t => [(t, ")")]
  | .addInterval t amount unit =>
    [(t, " + INTERVAL '" ++ amount ++ " " ++ unitText unit ++ "')")]
  | .addIntervals t amount unit =>
    [(t, " + ("), (amount, ") * INTERVAL '1 " ++ unitText unit ++ "')")]
  | .round t => [(t, ")")]
  | .roundTo t digits => [(t, ")::numeric, "), (digits, ")")]
  | .countWhere t => [(t, ")")]
  | .aggregate _ t => [(t, ")")]
  | .isIn item [] => [(item, " IN ()")]
  | .isIn item (first :: items) => (item, " IN (") :: separated ", " ")" (first :: items)
  | .isElement item items => [(item, " = ANY("), (items, ")")]
  | .like ignoreCase l r => [(l, " " ++ likeWord ignoreCase ++ " "), (r, [])]
  | .pattern _ trailing t => [(t, if trailing then beside ++ "'%'" else [])]
  | _ => []

def spread (parts : List (Term × Text)) : Text := parts.flatMap fun p => p.1.text ++ p.2

theorem map_fst_separated (separator last : Text) (items : List Term) :
    (separated separator last items).map Prod.fst = items := by
  induction items with
  | nil => rfl
  | cons t rest ih =>
    cases rest with
    | nil => rfl
    | cons u rest => rw [separated, List.map_cons, ih]; simp

theorem spread_separated (separator last : Text) {items : List Term} (hne : items ≠ []) :
    spread (separated separator last items) = Text.join separator (items.map text) ++ last := by
  induction items with
  | nil => exact absurd rfl hne
  | cons t rest ih =>
    cases rest with
    | nil => simp [separated, spread, Text.join]
    | cons u rest =>
      have hrest := ih (List.cons_ne_nil u rest)
      rw [separated, spread, List.flatMap_cons, ← spread, hrest]
      · simp [Text.join]
      · simp

theorem map_fst_behind (t : Term) : t.behind.map Prod.fst = t.operands := by
  cases t with
  | array items => exact map_fst_separated _ _ items
  | isIn item items =>
    cases items with
    | nil => rfl
    | cons first items => exact congrArg (item :: ·) (map_fst_separated _ _ (first :: items))
  | _ => rfl

-- A term prints its operands between words.
theorem text_eq_spread (t : Term) : t.text = t.opening ++ spread t.behind := by
  cases t with
  | array items =>
    rw [text, opening, behind]
    by_cases hempty : items = []
    · simp [hempty, spread, separated]
    · rw [spread_separated _ _ hempty, texts_eq_map]
      simp [hempty, Text.commaJoin]
  | isIn item items =>
    cases items with
    | nil =>
      have hin : Text.ofString " IN ()" = Text.ofString " IN (" ++ ")" := by decide
      simp [text, texts, opening, behind, spread, hin, Text.commaJoin, Text.join]
    | cons first items =>
      rw [behind, spread, List.flatMap_cons, ← spread, spread_separated _ _ (by simp), text,
        texts_eq_map]
      simp [opening, Text.commaJoin]
  | _ => simp [text, opening, behind, spread, patternText]

end EntitySql.Sql.Term
