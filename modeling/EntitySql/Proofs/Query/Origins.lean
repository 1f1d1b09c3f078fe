import EntitySql.Proofs.Query.Phases

-- Where the terms of a statement come from. Every SELECT in it is made from one
-- plan, by a compiler of its own, and its terms are compiled from expressions of
-- that plan, from values, from its group keys, or from columns that it names.

namespace EntitySql.Query

open Sql (Term Compiler)
open Sql.Compiler (Step State)

-- The terms of a SELECT, apart from the SELECTs within it.

def RawPiece.terms : RawPiece → List Term
  | .byte _ => []
  | .term t => [t]

def Side.terms : Side Term → List Term
  | .raw _ => []
  | .of t => [t]

def Case.terms (e : Case Term) : List Term :=
  e.branches.flatMap (fun b => b.1.terms ++ b.2.terms) ++ e.otherwise.toList

def Projection.terms : Projection → List Term
  | .groupKey t => [t]
  | .aggregate t _ => [t]
  | .case e => e.terms
  | _ => []

def Filter.terms {σ : Type} : Filter σ → List Term
  | .term t => [t]
  | .raw pieces => pieces.flatMap RawPiece.terms
  | .truth _ => []
  | .inTerms column items _ => column :: items
  | .inQuery column _ _ => [column]
  | .inRaw column _ _ => [column]
  | .exists _ _ => []

def Projection.windows : Projection → List Text
  | .window sql => [sql]
  | _ => []

def SelectParts.terms (p : SelectParts) : List Term :=
  p.projections.flatMap Projection.terms ++ p.groupKeys ++ p.having ++ p.orders.map (·.1)

def SelectParts.windows (p : SelectParts) : List Text := p.projections.flatMap Projection.windows

namespace Select

def terms (q : Select) : List Term := q.parts.terms ++ q.filters.flatMap Filter.terms

mutual

-- The statement and all statements in its filters and set operations.
def nested : Select → List Select
  | ⟨parts, filters, operations⟩ =>
    ⟨parts, filters, operations⟩ :: (nestedInFilters filters ++ nestedInOperations operations)

def nestedInFilter : Filter Select → List Select
  | .inQuery _ query _ => nested query
  | .exists query _ => nested query
  | _ => []

def nestedInFilters : List (Filter Select) → List Select
  | [] => []
  | f :: rest => nestedInFilter f ++ nestedInFilters rest

def nestedInOperand : Operand Select → List Select
  | .query q => nested q
  | .raw _ => []

def nestedInOperations : List (SetOperation Select) → List Select
  | [] => []
  | ⟨_, operand⟩ :: rest => nestedInOperand operand ++ nestedInOperations rest

end

def inner (q : Select) : List Select := nestedInFilters q.filters ++ nestedInOperations q.operations

theorem nested_eq (q : Select) : q.nested = q :: q.inner := by
  cases q
  rfl

end Select

-- The plans within a plan.
def Plan.subplans (p : Plan) : List Plan :=
  nestedInConditions p.conditions ++ nestedInOperations p.operations

theorem Plan.nested_eq (p : Plan) : p.nested = p :: p.subplans := by
  cases p
  rfl

-- The columns that a filter names.
def Condition.columns {π : Type} : Condition π → List Text
  | .inValues column _ _ => [column]
  | .inQuery column _ _ => [column]
  | .inRaw column _ _ => [column]
  | _ => []

-- The column of a group key.
def KeyColumn (c : Compiler) (p : Plan) (t : Term) : Prop :=
  ∃ key ∈ p.clauses.groupKeys, c.selectedColumn? key = .ok (some t)

def KeyText (c : Compiler) (p : Plan) (sql : Text) : Prop := ∃ t, KeyColumn c p t ∧ t.text = sql

inductive Origin (c : Compiler) (p : Plan) (expressions : List Expr) (t : Term) : Prop where
  | expression {group e before after} (he : e ∈ expressions)
      (hgroup : ∀ sql ∈ group.getD [], KeyText c p sql)
      (h : Yields (c.term group e) before t after)
  | constant {v before after} (h : Yields (c.constant v) before t after)
  | groupKey (h : KeyColumn c p t)
  | named {name} (hname : name ∈ p.conditions.flatMap Condition.columns)
      (h : p.clauses.namedColumn c name = .ok t)

structure Projection.CameFrom (c : Compiler) (p : Plan) (expressions : List Expr)
    (r : Projection) : Prop where
  terms : ∀ t ∈ r.terms, Origin c p expressions t
  windows : ∀ sql ∈ r.windows, ∃ w ∈ p.clauses.windows, w.text = .ok sql

variable {s : Services} {env : Environment} {c : Compiler} {expressions : List Expr} {p : Plan}
variable {before after : State}

theorem Origin.of_compiled {e : Expr} {t : Term} (he : e ∈ expressions)
    (h : Yields (c.expression (some e)) before t after) : Origin c p expressions t :=
  .expression he (by simp) h

theorem Origin.of_having {e : Expr} {columns : List Text} {t : Term} (he : e ∈ expressions)
    (hcolumns : ∀ sql ∈ columns, KeyText c p sql)
    (h : Yields (c.having (some e) columns) before t after) : Origin c p expressions t := by
  unfold Compiler.having at h
  obtain ⟨-, h⟩ | ⟨-, h⟩ := Yields.ite_iff.mp h
  · exact absurd h Yields.throw_iff
  · exact @Origin.expression c p expressions t (some columns) e _ _ he hcolumns h

theorem origin_fillSlots {sql : Text} {values : List Value} {pieces : List RawPiece}
    (h : Yields (fillSlots c sql values) before pieces after) :
    ∀ t ∈ pieces.flatMap RawPiece.terms, Origin c p expressions t := by
  have hpieces : ∀ piece ∈ pieces, ∀ t ∈ piece.terms, Origin c p expressions t := by
    refine Yields.forall_of_mapM (fun token _ s piece u hpiece => ?_) h
    cases token with
    | byte b =>
      obtain ⟨rfl, -⟩ := Yields.pure_iff.mp hpiece
      simp [RawPiece.terms]
    | slot digits =>
      obtain ⟨v, -, hpiece⟩ := Yields.lift_bind_iff.mp hpiece
      obtain ⟨t, _, ht, hpiece⟩ := Yields.bind_iff.mp hpiece
      obtain ⟨rfl, -⟩ := Yields.pure_iff.mp hpiece
      exact List.forall_mem_singleton.mpr (.constant ht)
  exact List.forall_mem_flatMap.mpr hpieces

namespace Clauses

theorem origin_side {e : Side Expr} (he : ∀ x ∈ e.expressions, x ∈ expressions) {r : Side Term}
    (h : Yields (side c e) before r after) : ∀ t ∈ r.terms, Origin c p expressions t := by
  cases e with
  | raw sql =>
    obtain ⟨rfl, -⟩ := Yields.pure_iff.mp h
    simp [Side.terms]
  | of e =>
    obtain ⟨t, _, ht, h⟩ := Yields.bind_iff.mp h
    obtain ⟨rfl, -⟩ := Yields.pure_iff.mp h
    exact List.forall_mem_singleton.mpr (.of_compiled (he e (List.mem_singleton_self e)) ht)

theorem origin_branch {b : Side Expr × Side Expr}
    (hb : ∀ x ∈ b.1.expressions ++ b.2.expressions, x ∈ expressions) {r : Side Term × Side Term}
    (h : Yields (branch c b) before r after) :
    ∀ t ∈ r.1.terms ++ r.2.terms, Origin c p expressions t := by
  simp only [List.mem_append, or_imp, forall_and] at hb
  obtain ⟨condition, _, hcondition, h⟩ := Yields.bind_iff.mp h
  obtain ⟨result, _, hresult, h⟩ := Yields.bind_iff.mp h
  obtain ⟨rfl, -⟩ := Yields.pure_iff.mp h
  exact List.forall_mem_append.mpr ⟨origin_side hb.1 hcondition, origin_side hb.2 hresult⟩

theorem origin_case {e : Case Expr} (he : ∀ x ∈ e.expressions, x ∈ expressions) {r : Projection}
    (h : Yields (case c e) before r after) : r.CameFrom c p expressions := by
  simp only [Case.expressions, List.mem_append (t := e.otherwise.toList), Option.mem_toList, or_imp,
    forall_and] at he
  obtain ⟨hbranches, hotherwise⟩ := he
  obtain ⟨branches, second, hmade, h⟩ := Yields.bind_iff.mp h
  obtain ⟨otherwise, _, helse, h⟩ := Yields.bind_iff.mp h
  have hterms : ∀ b ∈ branches, ∀ t ∈ b.1.terms ++ b.2.terms, Origin c p expressions t :=
    Yields.forall_of_mapM (fun b hb _ r _ hr =>
      origin_branch (fun x hx => hbranches x (List.mem_flatMap.mpr ⟨b, hb, hx⟩)) hr) hmade
  have hlast : ∀ t ∈ otherwise, Origin c p expressions t := by
    cases hfound : e.otherwise with
    | none =>
      rw [hfound] at helse
      obtain ⟨rfl, -⟩ := Yields.pure_iff.mp helse
      simp
    | some x =>
      rw [hfound] at helse
      obtain ⟨t, ht, rfl⟩ := Yields.map_iff.mp helse
      rintro t' ⟨⟩
      exact .of_compiled (hotherwise x hfound) ht
  have hall : (Projection.case ⟨branches, otherwise, e.aliasName⟩).CameFrom c p expressions := by
    refine ⟨List.forall_mem_append.mpr ⟨List.forall_mem_flatMap.mpr hterms, ?_⟩, by
      simp [Projection.windows]⟩
    exact fun t ht => hlast t (Option.mem_toList.mp ht)
  obtain ⟨-, h⟩ | ⟨-, h⟩ := Yields.ite_iff.mp h
  · obtain ⟨_, -, h⟩ := Yields.lift_bind_iff.mp h
    obtain ⟨rfl, -⟩ := Yields.pure_iff.mp h
    exact hall
  · obtain ⟨rfl, -⟩ := Yields.pure_iff.mp h
    exact hall

theorem keyColumn_of_selectedColumns {keys : List Expr} {columns : List Term}
    (h : selectedColumns? c keys = .ok (some columns)) :
    ∀ t ∈ columns, ∃ key ∈ keys, c.selectedColumn? key = .ok (some t) := by
  induction keys generalizing columns with
  | nil =>
    cases h
    simp
  | cons key rest ih =>
    rw [selectedColumns?, Result.bind_eq_ok] at h
    obtain ⟨first, hfirst, h⟩ := h
    cases first with
    | none => cases h
    | some t =>
      obtain ⟨others, hothers, h⟩ := Result.bind_eq_ok.mp h
      cases others with
      | none => cases h
      | some others =>
        cases h
        have hrest : ∀ u ∈ others, ∃ k ∈ key :: rest, c.selectedColumn? k = .ok (some u) := by
          intro u hu
          obtain ⟨k, hk, hu⟩ := ih hothers u hu
          exact ⟨k, List.mem_cons_of_mem key hk, hu⟩
        exact List.forall_mem_cons.mpr ⟨⟨key, List.mem_cons_self, hfirst⟩, hrest⟩

theorem keyColumn_of_groupColumns {columns : List Term}
    (h : p.clauses.groupColumns c = .ok columns) : ∀ t ∈ columns, KeyColumn c p t := by
  unfold groupColumns at h
  cases hselected : selectedColumns? c p.clauses.groupKeys with
  | error e =>
    rw [hselected] at h
    cases h
  | ok found =>
    rw [hselected] at h
    cases h
    cases found with
    | none => simp
    | some columns => exact keyColumn_of_selectedColumns hselected

theorem keyText_of_mem {columns : List Term} (h : ∀ t ∈ columns, KeyColumn c p t) :
    ∀ sql ∈ columns.map Term.text, KeyText c p sql := by
  intro sql hsql
  obtain ⟨t, ht, rfl⟩ := List.mem_map.mp hsql
  exact ⟨t, h t ht, rfl⟩

variable {columns : List Term}

theorem origin_aggregate (hcolumns : ∀ t ∈ columns, KeyColumn c p t) {a : Text × Option Expr}
    (ha : ∀ x ∈ a.2, x ∈ expressions) {r : Projection}
    (h : Yields (aggregate c columns a) before r after) : r.CameFrom c p expressions := by
  unfold aggregate at h
  split at h
  · exact absurd h Yields.throw_iff
  · next e he =>
    obtain ⟨_, -, h⟩ := Yields.lift_bind_iff.mp h
    obtain ⟨t, _, ht, h⟩ := Yields.bind_iff.mp h
    obtain ⟨rfl, -⟩ := Yields.pure_iff.mp h
    refine ⟨List.forall_mem_singleton.mpr ?_, by simp [Projection.windows]⟩
    exact .of_having (ha e he) (keyText_of_mem hcolumns) ht

theorem origin_keyProjections (hcolumns : ∀ t ∈ columns, KeyColumn c p t) {v : Variant}
    (hv : ∀ x ∈ v.expressions, x ∈ expressions) {projections : List Projection}
    (h : Yields (keyProjections c v columns) before projections after) :
    ∀ r ∈ projections, r.CameFrom c p expressions := by
  unfold keyProjections at h
  obtain ⟨-, h⟩ := Yields.guard_iff.mp h
  obtain ⟨aggregates, _, haggregates, h⟩ := Yields.bind_iff.mp h
  obtain ⟨rfl, -⟩ := Yields.pure_iff.mp h
  have hall : ∀ r ∈ aggregates, r.CameFrom c p expressions :=
    Yields.forall_of_mapM (fun a ha _ r _ hr => origin_aggregate hcolumns
      (fun x hx => hv x (List.mem_flatMap.mpr ⟨a, ha, Option.mem_toList.mpr hx⟩)) hr) haggregates
  refine List.forall_mem_append.mpr ⟨fun r hr => ?_, hall⟩
  obtain ⟨t, ht, rfl⟩ := List.mem_map.mp hr
  exact ⟨List.forall_mem_singleton.mpr (.groupKey (hcolumns t ht)), by simp [Projection.windows]⟩

theorem origin_rowColumns {clauses : Clauses} {projections : List Projection}
    (h : clauses.rowColumns c = .ok projections) :
    ∀ r ∈ projections, r.CameFrom c p expressions := by
  have hplain {r : Projection} (hterms : r.terms = []) (hwindows : r.windows = []) :
      r.CameFrom c p expressions := ⟨by simp [hterms], by simp [hwindows]⟩
  unfold rowColumns at h
  split at h
  · cases h
    exact List.forall_mem_singleton.mpr (hplain rfl rfl)
  split at h
  · obtain ⟨_, -, h⟩ := Result.bind_eq_ok.mp h
    cases h
    intro r hr
    obtain ⟨column, -, rfl⟩ := List.mem_map.mp hr
    exact hplain rfl rfl
  split at h
  · obtain ⟨_, -, h⟩ := Result.bind_eq_ok.mp h
    cases h
    exact List.forall_mem_singleton.mpr (hplain rfl rfl)
  · cases h
    exact List.forall_mem_singleton.mpr (hplain rfl rfl)

theorem origin_window {w : Window} (hw : w ∈ p.clauses.windows) {r : Projection}
    (h : Yields (do return Projection.window (← w.text) : Step Projection) before r after) :
    r.CameFrom c p expressions := by
  obtain ⟨sql, hsql, h⟩ := Yields.lift_bind_iff.mp h
  obtain ⟨rfl, -⟩ := Yields.pure_iff.mp h
  exact ⟨by simp [Projection.terms], List.forall_mem_singleton.mpr ⟨w, hw, hsql⟩⟩

theorem origin_rowProjections (hcases : ∀ e ∈ p.clauses.cases, ∀ x ∈ e.expressions, x ∈ expressions)
    {v : Variant} {projections : List Projection}
    (h : Yields (p.clauses.rowProjections c v) before projections after) :
    ∀ r ∈ projections, r.CameFrom c p expressions := by
  unfold rowProjections at h
  obtain ⟨-, h⟩ := Yields.guard_iff.mp h
  obtain ⟨columns, hcolumns, h⟩ := Yields.lift_bind_iff.mp h
  obtain ⟨windows, _, hwindows, h⟩ := Yields.bind_iff.mp h
  obtain ⟨cases, _, hmade, h⟩ := Yields.bind_iff.mp h
  obtain ⟨rfl, -⟩ := Yields.pure_iff.mp h
  refine List.forall_mem_append.mpr ⟨List.forall_mem_append.mpr ⟨origin_rowColumns hcolumns, ?_⟩, ?_⟩
  · exact Yields.forall_of_mapM (fun w hw _ r _ hr => origin_window hw hr) hwindows
  · exact Yields.forall_of_mapM (fun e he _ r _ hr => origin_case (hcases e he) hr) hmade

theorem origin_projections (hcolumns : ∀ t ∈ columns, KeyColumn c p t) {v : Variant}
    (hv : ∀ x ∈ v.expressions, x ∈ expressions)
    (hcases : ∀ e ∈ p.clauses.cases, ∀ x ∈ e.expressions, x ∈ expressions)
    {projections : List Projection}
    (h : Yields (p.clauses.projections c v columns) before projections after) :
    ∀ r ∈ projections, r.CameFrom c p expressions := by
  unfold Clauses.projections at h
  obtain ⟨-, h⟩ | ⟨-, h⟩ := Yields.ite_iff.mp h
  · exact origin_keyProjections hcolumns hv h
  · exact origin_rowProjections hcases h

theorem origin_havingTerms (hcolumns : ∀ t ∈ columns, KeyColumn c p t)
    (hhaving : ∀ e ∈ p.clauses.having, e ∈ expressions) {v : Variant} {terms : List Term}
    (h : Yields (p.clauses.havingTerms c v columns) before terms after) :
    ∀ t ∈ terms, Origin c p expressions t := by
  unfold havingTerms at h
  obtain ⟨-, h⟩ | ⟨-, h⟩ := Yields.ite_iff.mp h
  · obtain ⟨rfl, -⟩ := Yields.pure_iff.mp h
    simp
  · obtain ⟨-, h⟩ := Yields.guard_iff.mp h
    exact Yields.forall_of_mapM (fun e he _ t _ ht =>
      .of_having (hhaving e he) (keyText_of_mem hcolumns) ht) h

theorem origin_orderTerms (horders : ∀ o ∈ p.clauses.orders, o.selector ∈ expressions) {v : Variant}
    {orders : List (Term × Bool)} (h : Yields (p.clauses.orderTerms c v) before orders after) :
    ∀ o ∈ orders, Origin c p expressions o.1 := by
  unfold orderTerms at h
  obtain ⟨-, h⟩ | ⟨-, h⟩ := Yields.ite_iff.mp h
  · obtain ⟨rfl, -⟩ := Yields.pure_iff.mp h
    simp
  · refine Yields.forall_of_mapM (fun o ho _ r _ hr => ?_) h
    obtain ⟨t, _, ht, hr⟩ := Yields.bind_iff.mp hr
    obtain ⟨rfl, -⟩ := Yields.pure_iff.mp hr
    exact .of_compiled (horders o ho) ht

end Clauses

-- A SELECT that is made from a plan, apart from the SELECTs within it.
structure Select.MadeFrom (s : Services) (env : Environment) (v : Variant) (p : Plan)
    (q : Select) : Prop where
  exists_compiler : ∃ includes, p.clauses.includePlan s v = .ok includes ∧
    p.clauses.source (s.compiler env p.root includes).rootAlias? = .ok q.parts.source ∧
    ∀ t ∈ q.terms, Origin (s.compiler env p.root includes) p (p.ownExpressions ++ v.expressions) t
  windows : ∀ sql ∈ q.parts.windows, ∃ w ∈ p.clauses.windows, w.text = .ok sql

def Select.MadeWithin (s : Services) (env : Environment) (plans : List Plan) (q : Select) : Prop :=
  ∃ p ∈ plans, q.MadeFrom s env {} p

theorem Select.MadeWithin.of_subset {plans more : List Plan} {q : Select}
    (h : q.MadeWithin s env plans) (hsubset : plans ⊆ more) : q.MadeWithin s env more := by
  obtain ⟨p, hp, hmade⟩ := h
  exact ⟨p, hsubset hp, hmade⟩

namespace Plan

theorem mem_having (p : Plan) {e : Expr} (h : e ∈ p.clauses.having) : e ∈ p.ownExpressions := by
  simp [ownExpressions, h]

theorem mem_order (p : Plan) {o : Order} (h : o ∈ p.clauses.orders) :
    o.selector ∈ p.ownExpressions := by
  have hmem : o.selector ∈ p.clauses.orders.map Order.selector := List.mem_map_of_mem h
  simp only [ownExpressions, List.mem_append, hmem, or_true, true_or]

theorem mem_case (p : Plan) {e : Case Expr} (he : e ∈ p.clauses.cases) {x : Expr}
    (hx : x ∈ e.expressions) : x ∈ p.ownExpressions := by
  have hmem : x ∈ p.clauses.cases.flatMap Case.expressions := List.mem_flatMap.mpr ⟨e, he, hx⟩
  simp only [ownExpressions, List.mem_append, hmem, or_true, true_or]

end Plan

theorem Select.MadeWithin.of_nested {p : Plan} {q : Select} (hq : q.MadeFrom s env {} p)
    (hinner : ∀ r ∈ q.inner, r.MadeWithin s env p.subplans) :
    ∀ r ∈ q.nested, r.MadeWithin s env p.nested := by
  rw [q.nested_eq, p.nested_eq]
  refine List.forall_mem_cons.mpr ⟨⟨p, List.mem_cons_self, hq⟩, fun r hr => ?_⟩
  exact (hinner r hr).of_subset (List.subset_cons_self p _)

theorem Select.madeFrom_statementParts {v : Variant} {includes : Option Include.Plan}
    (hincludes : p.clauses.includePlan s v = .ok includes) {columns : List Term}
    (hcolumns : ∀ t ∈ columns, KeyColumn (s.compiler env p.root includes) p t)
    {projections : List Projection}
    (hprojections : ∀ r ∈ projections, r.CameFrom (s.compiler env p.root includes) p
      (p.ownExpressions ++ v.expressions)) {source : Source}
    (hsource : p.clauses.source (s.compiler env p.root includes).rootAlias? = .ok source)
    {filters : List (Filter Select)}
    (hfilters : ∀ f ∈ filters, ∀ t ∈ f.terms, Origin (s.compiler env p.root includes) p
      (p.ownExpressions ++ v.expressions) t) {having : List Term}
    (hhaving : ∀ t ∈ having, Origin (s.compiler env p.root includes) p
      (p.ownExpressions ++ v.expressions) t) {orders : List (Term × Bool)}
    (horders : ∀ o ∈ orders, Origin (s.compiler env p.root includes) p
      (p.ownExpressions ++ v.expressions) o.1) (joins : List Include.Join)
    (operations : List (SetOperation Select)) :
    Select.MadeFrom s env v p ⟨statementParts v p.clauses projections source joins columns having
      orders, filters, operations⟩ where
  exists_compiler := by
    refine ⟨includes, hincludes, hsource, fun t ht => ?_⟩
    simp only [Select.terms, SelectParts.terms, statementParts, List.mem_append, List.mem_flatMap,
      List.mem_map] at ht
    rcases ht with (((⟨r, hr, ht⟩ | ht) | ht) | ⟨o, ho, rfl⟩) | ⟨f, hf, ht⟩
    · exact (hprojections r hr).terms t ht
    · refine .groupKey (hcolumns t ?_)
      split at ht
      · cases ht
      · exact ht
    · exact hhaving t ht
    · exact horders o ho
    · exact hfilters f hf t ht
  windows := by
    intro sql hsql
    obtain ⟨r, hr, hsql⟩ := List.mem_flatMap.mp hsql
    exact (hprojections r hr).windows sql hsql

mutual

-- By the recursion of the plans in filters and set operations.
theorem origins_select {v : Variant} (p : Plan) {before after : State} {q : Select}
    {includes : Option Include.Plan} (h : Yields (select s env v p) before (q, includes) after) :
    q.MadeFrom s env v p ∧ ∀ r ∈ q.inner, r.MadeWithin s env p.subplans := by
  cases p with
  | mk clauses conditions operations =>
    obtain ⟨columns, projections, first, source, joins, filters, second, having, third, orders,
      fourth, combined, hincludes, hcolumns, hprojections, hsource, -, hfilters, hhaving, horders,
      hcombined, rfl⟩ := clauses_of_yields h
    have hkeys := Clauses.keyColumn_of_groupColumns (p := ⟨clauses, conditions, operations⟩) hcolumns
    have hown : ∀ e ∈ conditions.flatMap Condition.expressions,
        e ∈ Plan.ownExpressions ⟨clauses, conditions, operations⟩ ++ v.expressions :=
      fun e he => List.mem_append_left _ (List.mem_append_right _ he)
    obtain ⟨hterms, hnested⟩ := origins_filters ⟨clauses, conditions, operations⟩ conditions
      (List.Subset.refl _) hown hfilters
    refine ⟨Select.madeFrom_statementParts hincludes hkeys ?_ hsource hterms ?_ ?_ _ _, ?_⟩
    · exact Clauses.origin_projections hkeys (List.subset_append_right _ _)
        (fun e he x hx => List.mem_append_left _ (Plan.mem_case _ he hx)) hprojections
    · exact Clauses.origin_havingTerms hkeys
        (fun e he => List.mem_append_left _ (Plan.mem_having _ he)) hhaving
    · exact Clauses.origin_orderTerms
        (fun o ho => List.mem_append_left _ (Plan.mem_order _ ho)) horders
    · refine List.forall_mem_append.mpr ⟨fun r hr => ?_, fun r hr => ?_⟩
      · exact (hnested r hr).of_subset (List.subset_append_left _ _)
      · refine Select.MadeWithin.of_subset ?_ (List.subset_append_right _ _)
        obtain ⟨-, hcombined⟩ | ⟨-, hcombined⟩ := Yields.ite_iff.mp hcombined
        · obtain ⟨rfl, -⟩ := Yields.pure_iff.mp hcombined
          cases hr
        · exact origins_operands operations hcombined r hr
termination_by sizeOf p

theorem origins_filter {c : Compiler} {expressions : List Expr} (p : Plan)
    (condition : Condition Plan)
    (hcolumns : condition.columns ⊆ p.conditions.flatMap Condition.columns)
    (he : ∀ e ∈ condition.expressions, e ∈ expressions) {before after : State}
    {f : Filter Select} (h : Yields (filter s env p.clauses c condition) before f after) :
    (∀ t ∈ f.terms, Origin c p expressions t) ∧
      ∀ r ∈ Select.nestedInFilter f, r.MadeWithin s env (Plan.nestedInCondition condition) := by
  have hnamed {name : Text} {t : Term} (hname : name ∈ condition.columns)
      (ht : p.clauses.namedColumn c name = .ok t) : Origin c p expressions t :=
    .named (hcolumns hname) ht
  cases condition with
  | predicate e =>
    rw [filter] at h
    obtain ⟨t, _, ht, h⟩ := Yields.bind_iff.mp h
    obtain ⟨rfl, -⟩ := Yields.pure_iff.mp h
    refine ⟨List.forall_mem_singleton.mpr ?_, by simp [Select.nestedInFilter]⟩
    exact .of_compiled (he e (List.mem_singleton_self e)) ht
  | raw sql values =>
    rw [filter] at h
    obtain ⟨pieces, _, hpieces, h⟩ := Yields.bind_iff.mp h
    obtain ⟨rfl, -⟩ := Yields.pure_iff.mp h
    exact ⟨origin_fillSlots hpieces, by simp [Select.nestedInFilter]⟩
  | inValues column values negated =>
    rw [filter] at h
    obtain ⟨t, ht, h⟩ := Yields.lift_bind_iff.mp h
    obtain ⟨-, h⟩ | ⟨-, h⟩ := Yields.ite_iff.mp h
    · obtain ⟨rfl, -⟩ := Yields.pure_iff.mp h
      exact ⟨by simp [Filter.terms], by simp [Select.nestedInFilter]⟩
    · obtain ⟨items, _, hitems, h⟩ := Yields.bind_iff.mp h
      obtain ⟨rfl, -⟩ := Yields.pure_iff.mp h
      refine ⟨List.forall_mem_cons.mpr ⟨hnamed (List.mem_singleton_self _) ht, ?_⟩, by
        simp [Select.nestedInFilter]⟩
      exact Yields.forall_of_mapM (fun v _ _ t _ ht => .constant ht) hitems
  | inQuery column query negated =>
    rw [filter] at h
    obtain ⟨t, ht, h⟩ := Yields.lift_bind_iff.mp h
    obtain ⟨⟨q, includes⟩, _, hq, h⟩ := Yields.bind_iff.mp h
    obtain ⟨rfl, -⟩ := Yields.pure_iff.mp h
    obtain ⟨hmade, hinner⟩ := origins_select query hq
    refine ⟨List.forall_mem_singleton.mpr (hnamed (List.mem_singleton_self _) ht), ?_⟩
    exact Select.MadeWithin.of_nested hmade hinner
  | inRaw column sql negated =>
    rw [filter] at h
    obtain ⟨t, ht, h⟩ := Yields.lift_bind_iff.mp h
    obtain ⟨rfl, -⟩ := Yields.pure_iff.mp h
    refine ⟨List.forall_mem_singleton.mpr (hnamed (List.mem_singleton_self _) ht), ?_⟩
    simp [Select.nestedInFilter]
  | «exists» query negated =>
    rw [filter] at h
    obtain ⟨⟨q, includes⟩, _, hq, h⟩ := Yields.bind_iff.mp h
    obtain ⟨rfl, -⟩ := Yields.pure_iff.mp h
    obtain ⟨hmade, hinner⟩ := origins_select query hq
    exact ⟨by simp [Filter.terms], Select.MadeWithin.of_nested hmade hinner⟩
termination_by sizeOf condition

theorem origins_filters {c : Compiler} {expressions : List Expr} (p : Plan)
    (conditions : List (Condition Plan))
    (hcolumns : conditions.flatMap Condition.columns ⊆ p.conditions.flatMap Condition.columns)
    (he : ∀ e ∈ conditions.flatMap Condition.expressions, e ∈ expressions) {before after : State}
    {filters : List (Filter Select)}
    (h : Yields (Query.filters s env p.clauses c conditions) before filters after) :
    (∀ f ∈ filters, ∀ t ∈ f.terms, Origin c p expressions t) ∧
      ∀ r ∈ Select.nestedInFilters filters,
        r.MadeWithin s env (Plan.nestedInConditions conditions) := by
  cases conditions with
  | nil =>
    rw [Query.filters] at h
    obtain ⟨rfl, -⟩ := Yields.pure_iff.mp h
    exact ⟨by simp, by simp [Select.nestedInFilters]⟩
  | cons condition rest =>
    rw [Query.filters] at h
    obtain ⟨f, _, hf, h⟩ := Yields.bind_iff.mp h
    obtain ⟨others, _, hothers, h⟩ := Yields.bind_iff.mp h
    obtain ⟨rfl, -⟩ := Yields.pure_iff.mp h
    rw [List.flatMap_cons, List.append_subset] at hcolumns
    rw [List.flatMap_cons, List.forall_mem_append] at he
    obtain ⟨hterms, hnested⟩ := origins_filter p condition hcolumns.1 he.1 hf
    obtain ⟨hterms', hnested'⟩ := origins_filters p rest hcolumns.2 he.2 hothers
    refine ⟨List.forall_mem_cons.mpr ⟨hterms, hterms'⟩, List.forall_mem_append.mpr
      ⟨fun r hr => ?_, fun r hr => ?_⟩⟩
    · exact (hnested r hr).of_subset (List.subset_append_left _ _)
    · exact (hnested' r hr).of_subset (List.subset_append_right _ _)
termination_by sizeOf conditions

theorem origins_operand (operand : Operand Plan) {before after : State} {made : Operand Select}
    (h : Yields (Query.operand s env operand) before made after) :
    ∀ r ∈ Select.nestedInOperand made, r.MadeWithin s env (Plan.nestedInOperand operand) := by
  cases operand with
  | query p =>
    rw [Query.operand] at h
    obtain ⟨⟨q, includes⟩, _, hq, h⟩ := Yields.bind_iff.mp h
    obtain ⟨rfl, -⟩ := Yields.pure_iff.mp h
    obtain ⟨hmade, hinner⟩ := origins_select p hq
    exact Select.MadeWithin.of_nested hmade hinner
  | raw sql =>
    rw [Query.operand] at h
    obtain ⟨rfl, -⟩ := Yields.pure_iff.mp h
    simp [Select.nestedInOperand]
termination_by sizeOf operand

theorem origins_operands (operations : List (SetOperation Plan)) {before after : State}
    {made : List (SetOperation Select)}
    (h : Yields (operands s env operations) before made after) :
    ∀ r ∈ Select.nestedInOperations made,
      r.MadeWithin s env (Plan.nestedInOperations operations) := by
  match operations, h with
  | [], h =>
    rw [operands] at h
    obtain ⟨rfl, -⟩ := Yields.pure_iff.mp h
    simp [Select.nestedInOperations]
  | ⟨operator, operand⟩ :: rest, h =>
    rw [operands] at h
    obtain ⟨first, _, hfirst, h⟩ := Yields.bind_iff.mp h
    obtain ⟨others, _, hothers, h⟩ := Yields.bind_iff.mp h
    obtain ⟨rfl, -⟩ := Yields.pure_iff.mp h
    refine List.forall_mem_append.mpr ⟨fun r hr => ?_, fun r hr => ?_⟩
    · exact (origins_operand operand hfirst r hr).of_subset (List.subset_append_left _ _)
    · exact (origins_operands rest hothers r hr).of_subset (List.subset_append_right _ _)
termination_by sizeOf operations

end

end EntitySql.Query
