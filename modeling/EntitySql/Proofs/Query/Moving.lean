import EntitySql.Proofs.Query.Numbering
import EntitySql.Proofs.Sql.Moving
import EntitySql.Query.Statement

-- The same clauses in two statements. Whatever is compiled once behind some
-- placeholders can be compiled behind others, with joins or without, and the
-- statements differ in nothing but the numbers of the placeholders and the
-- table before the columns of the root.

namespace EntitySql.Query

open Sql (Term Compiler)
open Sql.Compiler (Step State Naming Honest Follows Shifted Beside)

-- Statements with related terms in the same places.

inductive RawPiece.Rel (R : Term → Term → Prop) : RawPiece → RawPiece → Prop where
  | byte (c : UInt8) : Rel R (.byte c) (.byte c)
  | term {t t' : Term} (h : R t t') : Rel R (.term t) (.term t')

inductive Side.Rel (R : Term → Term → Prop) : Side Term → Side Term → Prop where
  | raw (sql : Text) : Rel R (.raw sql) (.raw sql)
  | of {t t' : Term} (h : R t t') : Rel R (.of t) (.of t')

def Case.RelBranch (R : Term → Term → Prop) (b b' : Side Term × Side Term) : Prop :=
  b.1.Rel R b'.1 ∧ b.2.Rel R b'.2

structure Case.Rel (R : Term → Term → Prop) (e e' : Case Term) : Prop where
  branches : List.Forall₂ (RelBranch R) e.branches e'.branches
  otherwise : Option.Rel R e.otherwise e'.otherwise
  aliasName : e.aliasName = e'.aliasName

inductive Projection.Rel (R : Term → Term → Prop) : Projection → Projection → Prop where
  | raw (sql : Text) : Rel R (.raw sql) (.raw sql)
  | allColumns : Rel R .allColumns .allColumns
  | allColumnsOf (table : Text) : Rel R (.allColumnsOf table) (.allColumnsOf table)
  | column (c : Include.SelectedColumn) : Rel R (.column c) (.column c)
  | groupKey {t t' : Term} (h : R t t') : Rel R (.groupKey t) (.groupKey t')
  | aggregate {t t' : Term} (h : R t t') (aliasName : Text) :
      Rel R (.aggregate t aliasName) (.aggregate t' aliasName)
  | window (sql : Text) : Rel R (.window sql) (.window sql)
  | case {e e' : Case Term} (h : e.Rel R e') : Rel R (.case e) (.case e')

def SelectParts.RelOrder (R : Term → Term → Prop) (o o' : Term × Bool) : Prop :=
  R o.1 o'.1 ∧ o.2 = o'.2

structure SelectParts.Rel (R : Term → Term → Prop) (p p' : SelectParts) : Prop where
  tables : p.tables = p'.tables
  distinct : p.distinct = p'.distinct
  projections : List.Forall₂ (Projection.Rel R) p.projections p'.projections
  source : p.source = p'.source
  joins : p.joins = p'.joins
  rawJoins : p.rawJoins = p'.rawJoins
  groupKeys : List.Forall₂ R p.groupKeys p'.groupKeys
  having : List.Forall₂ R p.having p'.having
  orders : List.Forall₂ (RelOrder R) p.orders p'.orders
  limit : p.limit = p'.limit
  offset : p.offset = p'.offset

section

variable {σ : Type} (S : σ → σ → Prop)

inductive Filter.Rel (R : Term → Term → Prop) : Filter σ → Filter σ → Prop where
  | term {t t' : Term} (h : R t t') : Rel R (.term t) (.term t')
  | raw {pieces pieces' : List RawPiece} (h : List.Forall₂ (RawPiece.Rel R) pieces pieces') :
      Rel R (.raw pieces) (.raw pieces')
  | truth (value : Bool) : Rel R (.truth value) (.truth value)
  | inTerms {column column' : Term} (hcolumn : R column column') {items items' : List Term}
      (hitems : List.Forall₂ R items items') (negated : Bool) :
      Rel R (.inTerms column items negated) (.inTerms column' items' negated)
  | inQuery {column column' : Term} (hcolumn : R column column') {q q' : σ} (hquery : S q q')
      (negated : Bool) : Rel R (.inQuery column q negated) (.inQuery column' q' negated)
  | inRaw {column column' : Term} (hcolumn : R column column') (sql : Text) (negated : Bool) :
      Rel R (.inRaw column sql negated) (.inRaw column' sql negated)
  | exists {q q' : σ} (hquery : S q q') (negated : Bool) :
      Rel R (.exists q negated) (.exists q' negated)

inductive Operand.Rel : Operand σ → Operand σ → Prop where
  | query {q q' : σ} (h : S q q') : Rel (.query q) (.query q')
  | raw (sql : Text) : Rel (.raw sql) (.raw sql)

inductive SetOperation.Rel : SetOperation σ → SetOperation σ → Prop where
  | mk (operator : SetOperator) {operand operand' : Operand σ} (h : operand.Rel S operand') :
      Rel ⟨operator, operand⟩ ⟨operator, operand'⟩

end

inductive Select.Rel (R : Term → Term → Prop) : Select → Select → Prop where
  | mk {parts parts' : SelectParts} (hparts : parts.Rel R parts')
      {filters filters' : List (Filter Select)}
      (hfilters : List.Forall₂ (Filter.Rel (Select.Rel R) R) filters filters')
      {operations operations' : List (SetOperation Select)}
      (hoperations : List.Forall₂ (SetOperation.Rel (Select.Rel R)) operations operations') :
      Rel R ⟨parts, filters, operations⟩ ⟨parts', filters', operations'⟩

-- In a subquery, no table comes before the columns that have none.
def Select.Moves (shift bound : Nat) : Select → Select → Prop :=
  Select.Rel (Term.Moves shift none bound)

def Filter.Moves (shift : Nat) (table : Option Text) (bound : Nat) :
    Filter Select → Filter Select → Prop :=
  Filter.Rel (Select.Moves shift bound) (Term.Moves shift table bound)

-- Every node of the expressions has a name of its own.

def Named (names : Naming) (e : Expr) : Prop := ∀ n ∈ e.nodes, names n.id = some n

def Side.expressions : Side Expr → List Expr
  | .raw _ => []
  | .of e => [e]

def Case.expressions (e : Case Expr) : List Expr :=
  e.branches.flatMap (fun b => b.1.expressions ++ b.2.expressions) ++ e.otherwise.toList

def Condition.expressions {π : Type} : Condition π → List Expr
  | .predicate e => [e]
  | _ => []

-- The expressions of one plan, apart from the plans within it.
structure Plan.NamesOwn (names : Naming) (p : Plan) : Prop where
  groupKeys : ∀ e ∈ p.clauses.groupKeys, Named names e
  having : ∀ e ∈ p.clauses.having, Named names e
  orders : ∀ o ∈ p.clauses.orders, Named names o.selector
  cases : ∀ e ∈ p.clauses.cases, ∀ x ∈ e.expressions, Named names x
  conditions : ∀ c ∈ p.conditions, ∀ e ∈ c.expressions, Named names e

def Plan.Named (names : Naming) (p : Plan) : Prop := ∀ q ∈ p.nested, q.NamesOwn names

def Variant.expressions (v : Variant) : List Expr := v.aggregates.flatMap (·.2.toList)

def Plan.ownExpressions (p : Plan) : List Expr :=
  p.clauses.groupKeys ++ p.clauses.having ++ p.clauses.orders.map Order.selector ++
    p.clauses.cases.flatMap Case.expressions ++ p.conditions.flatMap Condition.expressions

-- The expressions of a plan and of all plans within it.
def Plan.expressions (p : Plan) : List Expr := p.nested.flatMap ownExpressions

theorem named_of_expressions {names : Naming} {p : Plan}
    (h : ∀ e ∈ p.expressions, Named names e) : p.Named names := by
  intro q hq
  have hown : ∀ e ∈ q.ownExpressions, Named names e :=
    fun e he => h e (List.mem_flatMap.mpr ⟨q, hq, he⟩)
  simp only [Plan.ownExpressions, List.mem_append, or_imp, forall_and] at hown
  obtain ⟨⟨⟨⟨hkeys, hhaving⟩, horders⟩, hcases⟩, hconditions⟩ := hown
  exact
    { groupKeys := hkeys
      having := hhaving
      orders := fun o ho => horders _ (List.mem_map_of_mem ho)
      cases := fun e he x hx => hcases x (List.mem_flatMap.mpr ⟨e, he, hx⟩)
      conditions := fun c hc e he => hconditions e (List.mem_flatMap.mpr ⟨c, hc, he⟩) }

-- The second step does behind other placeholders what the first one does.
abbrev Behind (names : Naming) (registry : Registry) (shift : Nat) (P : List Sql.Binding → Prop)
    {α : Type} (R : Nat → α → α → Prop) (x y : Step α) : Prop :=
  Follows (Shifted names registry shift) P (fun bindings => R bindings.length) x y

variable {names : Naming} {shift : Nat} {table : Option Text} {P : List Sql.Binding → Prop}
variable {c c' : Compiler}

theorem behind_expression (h : c.Beside table c') {e : Expr} (he : Named names e) :
    Behind names c.registry shift P (Term.Moves shift table) (c.expression (some e))
      (c'.expression (some e)) :=
  ((Compiler.moving h names shift none).simulates_term e he).within

theorem behind_having {e : Expr} (he : Named names e) (columns : List Text) :
    Behind names c.registry shift P (Term.Moves shift none) (c.having (some e) columns)
      (c.having (some e) columns) := by
  unfold Compiler.having
  refine .ite (fun _ => .throw) fun _ => ?_
  exact ((Compiler.moving .same names shift (some columns)).simulates_term e he).within

-- Raw text is filled alike wherever constants are compiled alike.
theorem follows_fillSlots_of_constant {I : Sql.Compiler.State → Sql.Compiler.State → Prop}
    {R : List Sql.Binding → Term → Term → Prop} {S : List Sql.Binding → RawPiece → RawPiece → Prop}
    (hbyte : ∀ bindings b, S bindings (.byte b) (.byte b))
    (hterm : ∀ {bindings t t'}, R bindings t t' → S bindings (.term t) (.term t'))
    (hconstant : ∀ v, Follows I (fun _ => True) R (c.constant v) (c'.constant v))
    (sql : Text) (values : List Value) :
    Follows I P (fun bindings => List.Forall₂ (S bindings)) (fillSlots c sql values)
      (fillSlots c' sql values) := by
  refine .mapM fun token _ => ?_
  cases token with
  | byte b => exact .pure fun bindings _ => hbyte bindings b
  | slot digits =>
    refine .lift_bind fun v hv => ⟨v, hv, ?_⟩
    exact .bind (hconstant v) fun t t' _ => .pure fun bindings ht => hterm ht.2

theorem behind_fillSlots (h : c.Beside table c') (sql : Text) (values : List Value) :
    Behind names c.registry shift P
      (fun bound => List.Forall₂ (RawPiece.Rel (Term.Moves shift table bound)))
      (fillSlots c sql values) (fillSlots c' sql values) :=
  follows_fillSlots_of_constant (fun _ => .byte) .term h.follows_constant sql values

namespace Clauses

-- Columns.

theorem exists_column_of_selectedColumn {selector : Expr} {t : Term}
    (h : c.selectedColumn? selector = .ok (some t)) :
    ∃ aliasName column, t = .column aliasName column := by
  unfold Compiler.selectedColumn? at h
  split at h
  · split at h
    · cases h
    · next f _ =>
      cases hroot : c.rootColumn f.column with
      | error e =>
        rw [hroot] at h
        cases h
      | ok u =>
        rw [hroot] at h
        cases h
        exact ⟨_, _, Compiler.eq_of_column hroot⟩
  · cases h

theorem exists_column_of_groupColumns {clauses : Clauses} {columns : List Term}
    (h : clauses.groupColumns c = .ok columns) :
    ∀ t ∈ columns, ∃ aliasName column, t = .column aliasName column :=
  forall_of_groupColumns exists_column_of_selectedColumn h

-- Where no table is put before them, columns stay as they are.
theorem moves_columns {columns : List Term}
    (h : ∀ t ∈ columns, ∃ aliasName column, t = .column aliasName column) (shift bound : Nat) :
    List.Forall₂ (Term.Moves shift none bound) columns columns := by
  rw [List.forall₂_same]
  intro t ht
  obtain ⟨aliasName, column, rfl⟩ := h t ht
  cases aliasName with
  | none => exact .column column
  | some aliasName => exact .qualified aliasName column

theorem moves_namedColumn (h : c.Beside table c') {clauses : Clauses} {name : Text} {t : Term}
    (ht : clauses.namedColumn c name = .ok t) :
    ∃ t', clauses.namedColumn c' name = .ok t' ∧ ∀ bound, t.Moves shift table bound t' := by
  unfold namedColumn at ht ⊢
  split at ht
  · cases ht
  · exact h.moves_rowMember ht

-- Projections.

theorem behind_aggregate {a : Text × Option Expr} (ha : ∀ e ∈ a.2, Named names e)
    (columns : List Term) :
    Behind names c.registry shift P (fun bound => Projection.Rel (Term.Moves shift none bound))
      (aggregate c columns a) (aggregate c columns a) := by
  unfold aggregate
  split
  · exact .throw
  · next e he =>
    refine .lift_bind fun name hname => ⟨name, hname, ?_⟩
    exact .bind (behind_having (ha e he) _) fun t t' _ =>
      .pure fun bindings ht => .aggregate ht.2 a.1

theorem behind_keyProjections {v : Variant} (hv : ∀ a ∈ v.aggregates, ∀ e ∈ a.2, Named names e)
    {columns : List Term} (hcolumns : ∀ bound,
      List.Forall₂ (Term.Moves shift none bound) columns columns) :
    Behind names c.registry shift P
      (fun bound => List.Forall₂ (Projection.Rel (Term.Moves shift none bound)))
      (keyProjections c v columns) (keyProjections c v columns) := by
  unfold keyProjections
  refine .ite (fun _ => .throw_bind) fun _ => ?_
  refine .bind (.mapM fun a ha => behind_aggregate (hv a ha) columns) fun as as' _ => .pure ?_
  rintro bindings ⟨-, haggregates⟩
  refine List.rel_append ?_ haggregates
  rw [List.forall₂_map_left_iff, List.forall₂_map_right_iff]
  exact (hcolumns bindings.length).imp fun _ _ => .groupKey

theorem behind_side {e : Side Expr} (he : ∀ x ∈ e.expressions, Named names x) :
    Behind names c.registry shift P (fun bound => Side.Rel (Term.Moves shift none bound))
      (side c e) (side c e) := by
  cases e with
  | raw sql => exact .pure fun _ _ => .raw sql
  | of e =>
    exact .bind (behind_expression .same (he e (by simp [Side.expressions]))) fun t t' _ =>
      .pure fun bindings ht => .of ht.2

theorem behind_branch {b : Side Expr × Side Expr}
    (hb : ∀ x ∈ b.1.expressions ++ b.2.expressions, Named names x) :
    Behind names c.registry shift P (fun bound => Case.RelBranch (Term.Moves shift none bound))
      (branch c b) (branch c b) := by
  simp only [List.mem_append, or_imp, forall_and] at hb
  refine .bind (behind_side hb.1) fun condition condition' _ => ?_
  refine .bind (behind_side hb.2) fun result result' _ => .pure ?_
  rintro bindings ⟨⟨-, hcondition⟩, hresult⟩
  exact ⟨hcondition, hresult⟩

theorem behind_otherwise {otherwise : Option Expr} (h : ∀ x ∈ otherwise, Named names x) :
    Behind names c.registry shift P (fun bound => Option.Rel (Term.Moves shift none bound))
      (otherwise.mapM fun e => c.expression (some e))
      (otherwise.mapM fun e => c.expression (some e)) := by
  cases otherwise with
  | none => exact .pure fun _ _ => .none
  | some e => exact .map (behind_expression .same (h e rfl)) fun _ _ _ ht => .some ht

theorem behind_case {e : Case Expr} (he : ∀ x ∈ e.expressions, Named names x) :
    Behind names c.registry shift P (fun bound => Projection.Rel (Term.Moves shift none bound))
      (case c e) (case c e) := by
  simp only [Case.expressions, List.mem_append (t := e.otherwise.toList), Option.mem_toList, or_imp,
    forall_and] at he
  obtain ⟨hbranches, hotherwise⟩ := he
  have hbranch : ∀ b ∈ e.branches, ∀ x ∈ b.1.expressions ++ b.2.expressions, Named names x :=
    fun b hb x hx => hbranches x (List.mem_flatMap.mpr ⟨b, hb, hx⟩)
  unfold case
  refine .bind (.mapM fun b hb => behind_branch (hbranch b hb)) fun branches branches' _ => ?_
  refine .bind (behind_otherwise hotherwise) fun otherwise otherwise' _ => ?_
  refine .ite (fun _ => .lift_bind fun name hname => ⟨name, hname, .pure ?_⟩) fun _ => .pure ?_
  all_goals
    rintro bindings ⟨⟨-, hbranches⟩, hotherwise⟩
    exact .case ⟨hbranches, hotherwise, rfl⟩

theorem rel_rowColumns {clauses : Clauses} {columns : List Projection}
    (h : clauses.rowColumns c = .ok columns) (R : Term → Term → Prop) :
    List.Forall₂ (Projection.Rel R) columns columns := by
  rw [List.forall₂_same]
  unfold rowColumns at h
  split at h
  · cases h
    simpa using .raw clauses.rawSelect
  split at h
  · next plan _ =>
    obtain ⟨_, -, h⟩ := Result.bind_eq_ok.mp h
    cases h
    intro p hp
    obtain ⟨column, -, rfl⟩ := List.mem_map.mp hp
    exact .column column
  split at h
  · obtain ⟨_, -, h⟩ := Result.bind_eq_ok.mp h
    cases h
    simpa using .allColumnsOf clauses.root.table
  · cases h
    simpa using .allColumns

theorem behind_windows (windows : List Window) :
    Behind names c.registry shift P
      (fun bound => List.Forall₂ (Projection.Rel (Term.Moves shift none bound)))
      (windows.mapM fun w => do return Projection.window (← w.text))
      (windows.mapM fun w => do return Projection.window (← w.text)) :=
  .mapM fun _ _ => .lift_bind fun t ht => ⟨t, ht, .pure fun _ _ => .window t⟩

theorem behind_rowProjections {clauses : Clauses}
    (hcases : ∀ e ∈ clauses.cases, ∀ x ∈ e.expressions, Named names x) (v : Variant) :
    Behind names c.registry shift P
      (fun bound => List.Forall₂ (Projection.Rel (Term.Moves shift none bound)))
      (clauses.rowProjections c v) (clauses.rowProjections c v) := by
  unfold rowProjections
  refine .ite (fun _ => .throw_bind) fun _ => .lift_bind fun columns hcolumns => ?_
  refine ⟨columns, hcolumns, .bind (behind_windows _) fun windows windows' _ => ?_⟩
  refine .bind (.mapM fun e he => behind_case (hcases e he)) fun cases cases' _ => .pure ?_
  rintro bindings ⟨⟨-, hwindows⟩, hcases⟩
  exact List.rel_append (List.rel_append (rel_rowColumns hcolumns _) hwindows) hcases

theorem behind_projections {clauses : Clauses}
    (hcases : ∀ e ∈ clauses.cases, ∀ x ∈ e.expressions, Named names x) {v : Variant}
    (hv : ∀ a ∈ v.aggregates, ∀ e ∈ a.2, Named names e) {columns : List Term}
    (hcolumns : ∀ bound, List.Forall₂ (Term.Moves shift none bound) columns columns) :
    Behind names c.registry shift P
      (fun bound => List.Forall₂ (Projection.Rel (Term.Moves shift none bound)))
      (clauses.projections c v columns) (clauses.projections c v columns) :=
  .ite (fun _ => behind_keyProjections hv hcolumns) fun _ => behind_rowProjections hcases v

-- The clauses behind the filters.

theorem behind_havingTerms {clauses : Clauses} (h : ∀ e ∈ clauses.having, Named names e)
    (v : Variant) (columns : List Term) :
    Behind names c.registry shift P (fun bound => List.Forall₂ (Term.Moves shift none bound))
      (clauses.havingTerms c v columns) (clauses.havingTerms c v columns) := by
  unfold havingTerms
  refine .ite (fun _ => .pure fun _ _ => .nil) fun _ => .ite (fun _ => .throw_bind) fun _ => ?_
  exact .mapM fun e he => behind_having (h e he) _

theorem behind_orderTerms {clauses : Clauses} (h : ∀ o ∈ clauses.orders, Named names o.selector)
    (v : Variant) :
    Behind names c.registry shift P
      (fun bound => List.Forall₂ (SelectParts.RelOrder (Term.Moves shift none bound)))
      (clauses.orderTerms c v) (clauses.orderTerms c v) := by
  unfold orderTerms
  refine .ite (fun _ => .pure fun _ _ => .nil) fun _ => .mapM fun o ho => ?_
  exact .bind (behind_expression .same (h o ho)) fun t t' _ => .pure fun bindings ht => ⟨ht.2, rfl⟩

end Clauses

theorem rel_statementParts {R : Term → Term → Prop} (v : Variant) (clauses : Clauses)
    {projections projections' : List Projection}
    (hprojections : List.Forall₂ (Projection.Rel R) projections projections') (source : Source)
    (joins : List Include.Join) {columns having having' : List Term}
    (hcolumns : List.Forall₂ R columns columns) (hhaving : List.Forall₂ R having having')
    {orders orders' : List (Term × Bool)}
    (horders : List.Forall₂ (SelectParts.RelOrder R) orders orders') :
    (statementParts v clauses projections source joins columns having orders).Rel R
      (statementParts v clauses projections' source joins columns having' orders') where
  tables := rfl
  distinct := rfl
  projections := hprojections
  source := rfl
  joins := rfl
  rawJoins := rfl
  groupKeys := by
    unfold statementParts
    split
    · exact .nil
    · exact hcolumns
  having := hhaving
  orders := horders
  limit := rfl
  offset := rfl

variable {s : Services} {env : Environment}

mutual

-- By the recursion of the plans in filters and set operations.
theorem behind_select {v : Variant} (hv : ∀ a ∈ v.aggregates, ∀ e ∈ a.2, Named names e) (p : Plan)
    (hp : p.Named names) :
    Behind names s.registry shift (fun _ => True)
      (fun bound r r' => r.2 = r'.2 ∧ Select.Moves shift bound r.1 r'.1)
      (select s env v p) (select s env v p) := by
  cases p with
  | mk clauses conditions operations =>
    simp only [Plan.Named, Plan.nested, List.forall_mem_cons, List.mem_append, or_imp,
      forall_and] at hp
    obtain ⟨hown, hconditions, hoperations⟩ := hp
    rw [select]
    refine .ite (fun _ => .throw_bind) fun _ => .lift_bind fun includes hincludes => ?_
    refine ⟨includes, hincludes, .lift_bind fun columns hcolumns => ⟨columns, hcolumns, ?_⟩⟩
    have hmoves := Clauses.moves_columns (Clauses.exists_column_of_groupColumns hcolumns) shift
    refine .bind (Clauses.behind_projections (c := s.compiler env clauses.root includes) hown.cases
      hv hmoves) fun projections projections' _ => ?_
    refine .lift_bind fun source hsource => ⟨source, hsource, ?_⟩
    refine .lift_bind fun joins hjoins => ⟨joins, hjoins, ?_⟩
    refine .bind (behind_filters .same rfl conditions hown.conditions hconditions).within
      fun filters filters' _ => ?_
    refine .bind (Clauses.behind_havingTerms (c := s.compiler env clauses.root includes)
      hown.having v columns) fun having having' _ => ?_
    refine .bind (Clauses.behind_orderTerms (c := s.compiler env clauses.root includes)
      hown.orders v) fun orders orders' _ => ?_
    have hnone (P : List Sql.Binding → Prop) : Behind names s.registry shift P
        (fun bound => List.Forall₂ (SetOperation.Rel (Select.Moves shift bound)))
        (pure []) (pure []) := .pure fun _ _ => .nil
    refine .ite (fun _ => .bind (hnone _) fun operations operations' _ => ?_) fun _ =>
      .bind (behind_operands operations hoperations).within fun operations operations' _ => ?_
    all_goals
      refine .lift_bind fun checked hchecked => ⟨checked, hchecked, .pure ?_⟩
      rintro bindings ⟨⟨⟨⟨⟨-, hprojections⟩, hfilters⟩, hhaving⟩, horders⟩, hoperations⟩
      exact ⟨rfl, .mk (rel_statementParts v clauses hprojections source joins (hmoves _) hhaving
        horders) hfilters hoperations⟩
termination_by sizeOf p

theorem behind_filter {c c' : Compiler} {table : Option Text} (h : c.Beside table c')
    (hc : c.registry = s.registry) {clauses : Clauses} (condition : Condition Plan)
    (hown : ∀ e ∈ condition.expressions, Named names e)
    (hnested : ∀ q ∈ Plan.nestedInCondition condition, q.NamesOwn names) :
    Behind names s.registry shift (fun _ => True) (Filter.Moves shift table)
      (filter s env clauses c condition) (filter s env clauses c' condition) := by
  cases condition with
  | predicate e =>
    rw [filter, filter, ← hc]
    refine .bind (behind_expression h (hown e (by simp [Condition.expressions]))) fun t t' _ => ?_
    exact .pure fun bindings ht => .term ht.2
  | raw sql values =>
    rw [filter, filter, ← hc]
    refine .bind (behind_fillSlots h sql values) fun pieces pieces' _ => ?_
    exact .pure fun bindings hpieces => .raw hpieces.2
  | inValues column values negated =>
    rw [filter, filter, ← hc]
    refine .lift_bind fun t ht => ?_
    obtain ⟨t', ht', hmoves⟩ := Clauses.moves_namedColumn h ht
    refine ⟨t', ht', .ite (fun _ => .pure fun _ _ => .truth negated) fun _ => ?_⟩
    refine .bind (.mapM fun v _ => h.follows_constant v) fun items items' _ => ?_
    exact .pure fun bindings hitems => .inTerms (hmoves _) hitems.2 negated
  | inQuery column query negated =>
    rw [filter, filter]
    refine .lift_bind fun t ht => ?_
    obtain ⟨t', ht', hmoves⟩ := Clauses.moves_namedColumn h ht
    refine ⟨t', ht', .bind (behind_select (by simp) query hnested) fun r r' _ => ?_⟩
    exact .pure fun bindings hquery => .inQuery (hmoves _) hquery.2.2 negated
  | inRaw column sql negated =>
    rw [filter, filter]
    refine .lift_bind fun t ht => ?_
    obtain ⟨t', ht', hmoves⟩ := Clauses.moves_namedColumn h ht
    exact ⟨t', ht', .pure fun bindings _ => .inRaw (hmoves _) sql negated⟩
  | «exists» query negated =>
    rw [filter, filter]
    refine .bind (behind_select (by simp) query hnested) fun r r' _ => ?_
    exact .pure fun bindings hquery => .exists hquery.2.2 negated
termination_by sizeOf condition

theorem behind_filters {c c' : Compiler} {table : Option Text} (h : c.Beside table c')
    (hc : c.registry = s.registry) {clauses : Clauses} (conditions : List (Condition Plan))
    (hown : ∀ d ∈ conditions, ∀ e ∈ d.expressions, Named names e)
    (hnested : ∀ q ∈ Plan.nestedInConditions conditions, q.NamesOwn names) :
    Behind names s.registry shift (fun _ => True)
      (fun bound => List.Forall₂ (Filter.Moves shift table bound))
      (filters s env clauses c conditions) (filters s env clauses c' conditions) := by
  cases conditions with
  | nil =>
    rw [filters, filters]
    exact .pure fun _ _ => .nil
  | cons condition rest =>
    rw [filters, filters]
    simp only [Plan.nestedInConditions, List.mem_append, or_imp, forall_and] at hnested
    obtain ⟨hfirst, hothers⟩ := List.forall_mem_cons.mp hown
    refine .bind (behind_filter h hc condition hfirst hnested.1) fun first first' _ => ?_
    refine .bind (behind_filters h hc rest hothers hnested.2).within fun others others' _ => ?_
    refine .pure ?_
    rintro bindings ⟨⟨-, hfirst⟩, hothers⟩
    exact .cons hfirst hothers
termination_by sizeOf conditions

theorem behind_operand (operand : Operand Plan)
    (hnested : ∀ q ∈ Plan.nestedInOperand operand, q.NamesOwn names) :
    Behind names s.registry shift (fun _ => True)
      (fun bound => Operand.Rel (Select.Moves shift bound))
      (Query.operand s env operand) (Query.operand s env operand) := by
  cases operand with
  | query q =>
    rw [Query.operand]
    refine .bind (behind_select (by simp) q hnested) fun r r' _ => ?_
    exact .pure fun bindings hquery => .query hquery.2.2
  | raw sql =>
    rw [Query.operand]
    exact .pure fun _ _ => .raw sql
termination_by sizeOf operand

theorem behind_operands (operations : List (SetOperation Plan))
    (hnested : ∀ q ∈ Plan.nestedInOperations operations, q.NamesOwn names) :
    Behind names s.registry shift (fun _ => True)
      (fun bound => List.Forall₂ (SetOperation.Rel (Select.Moves shift bound)))
      (operands s env operations) (operands s env operations) := by
  match operations, hnested with
  | [], _ =>
    rw [operands]
    exact .pure fun _ _ => .nil
  | ⟨operator, q⟩ :: rest, hnested =>
    rw [operands]
    simp only [Plan.nestedInOperations, List.mem_append, or_imp, forall_and] at hnested
    refine .bind (behind_operand q hnested.1) fun first first' _ => ?_
    refine .bind (behind_operands rest hnested.2).within fun others others' _ => .pure ?_
    rintro bindings ⟨⟨-, hfirst⟩, hothers⟩
    exact .cons (.mk operator hfirst) hothers
termination_by sizeOf operations

end

end EntitySql.Query
