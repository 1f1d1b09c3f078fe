import EntitySql.Proofs.Query.Attribution
import EntitySql.Proofs.Query.Phases
import EntitySql.Proofs.Rows.Paging

-- Ordering and paging of a query with includes. LIMIT and OFFSET stand behind
-- the joins, so they count joined rows: a record of the root counts as often
-- as it fans out.

namespace EntitySql.Query

open Include (Node Joined SelectedColumn joinAll)
open Materializer (Mirrors Complete)
open Sql (Term Compiler)
open Sql.Compiler (State)

-- How a database orders rows: what it computes in a row, and how it compares
-- two values. A column without a table is one of the root.
structure Sorting where
  value : Term → Joined → Value
  compare : Value → Value → Ordering
  value_column : ∀ table column row,
    value (.column table column) row = row.value (table.getD Node.rootAlias, column)
  swap_compare : ∀ a b, (compare a b).swap = compare b a

namespace Sorting

-- The first term that tells two rows apart decides.
def order (d : Sorting) : List (Term × Bool) → Joined → Joined → Ordering
  | [], _, _ => .eq
  | (t, ascending) :: rest, a, b =>
    let first := d.compare (d.value t a) (d.value t b)
    (if ascending then first else first.swap).then (d.order rest a b)

def Sorted (d : Sorting) (orders : List (Term × Bool)) (rows : List Joined) : Prop :=
  rows.Pairwise fun a b => (d.order orders a b).isLE

variable {d : Sorting} {orders : List (Term × Bool)} {a b : Joined}

theorem swap_order (d : Sorting) (orders : List (Term × Bool)) (a b : Joined) :
    (d.order orders a b).swap = d.order orders b a := by
  induction orders with
  | nil => rfl
  | cons o rest ih =>
    obtain ⟨t, ascending⟩ := o
    simp only [order]
    rw [Ordering.swap_then, ih]
    cases ascending <;> simp [d.swap_compare]

theorem order_self (d : Sorting) (orders : List (Term × Bool)) (a : Joined) :
    d.order orders a a = .eq := by
  have hswap := d.swap_order orders a a
  cases h : d.order orders a a <;> rw [h] at hswap <;> first | rfl | cases hswap

theorem order_eq_of_isLE (h : (d.order orders a b).isLE) (h' : (d.order orders b a).isLE) :
    d.order orders a b = .eq := by
  rw [← d.swap_order, Ordering.isLE_swap] at h'
  cases horder : d.order orders a b with
  | lt =>
    rw [horder] at h'
    cases h'
  | eq => rfl
  | gt =>
    rw [horder] at h
    cases h

-- The terms are columns of the root.
def OnRoot (orders : List (Term × Bool)) : Prop :=
  ∀ o ∈ orders, ∃ table column,
    o.1 = .column table column ∧ table.getD Node.rootAlias = Node.rootAlias

-- Such terms only see the record behind the root.
theorem order_congr (h : OnRoot orders) {a' b' : Joined} (ha : a Node.rootAlias = a' Node.rootAlias)
    (hb : b Node.rootAlias = b' Node.rootAlias) : d.order orders a b = d.order orders a' b' := by
  induction orders with
  | nil => rfl
  | cons o rest ih =>
    obtain ⟨⟨table, column, hterm, halias⟩, hrest⟩ := List.forall_mem_cons.mp h
    obtain ⟨t, ascending⟩ := o
    obtain rfl : t = .column table column := hterm
    simp only [order, d.value_column, halias, Joined.value, ha, hb, ih hrest]

end Sorting

-- A statement that reads joined rows alone, and neither filters nor groups
-- them.
structure Select.Plain (q : Select) : Prop where
  tables : q.parts.tables = []
  distinct : q.parts.distinct = false
  rawJoins : q.parts.rawJoins = []
  groupKeys : q.parts.groupKeys = []
  having : q.parts.having = []
  filters : q.filters = []
  operations : q.operations = []

-- The rows of a table that no other is joined to yet. Without an alias it goes
-- by that of the root.
def startRows (db : EntitySql.Database) (name : Text) (aliasName : Option Text) : List Joined :=
  (db name).map fun r => Joined.bind (fun _ => none) (aliasName.getD Node.rootAlias) (some r)

-- The rows that a plain statement returns, its clauses applied as they are
-- written: the joins, then ORDER BY, then LIMIT and OFFSET. Rows between which
-- the terms do not decide come in any order.
def Select.Returns (d : Sorting) (db : EntitySql.Database) (q : Select) (page : List Joined) :
    Prop :=
  q.Plain ∧ ∃ name aliasName ordered, q.parts.source = .table name aliasName ∧
    ordered.Perm (joinAll db q.parts.joins (startRows db name aliasName)) ∧
    d.Sorted q.parts.orders ordered ∧ page = Database.page q.parts ordered

-- The mapped columns that a projection shows. A star shows those of the root.
def Projection.columns (root : Entity) : Projection → List SelectedColumn
  | .column c => [c]
  | .allColumnsOf _ => root.fields.map Include.rootColumn
  | _ => []

def Select.resultSet (q : Select) (root : Entity) (typeName : SelectedColumn → Text)
    (page : List Joined) : ResultSet :=
  let columns := q.parts.projections.flatMap (Projection.columns root)
  { columns := columns.map fun c => ⟨c.resultName, typeName c⟩
    rows := page.map fun row => columns.map fun c => row.value c.column }

-- A query that only includes, orders and pages.
def Plan.paged (root : Entity) (depth : Int) (includes : List Text) (orders : List Order)
    (limit offset : Nat) : Plan where
  clauses :=
    { root, maxIncludeDepth := depth, includes, orders, limit := some limit, offset := some offset }

-- An order by a member of the row.
def Order.OfMember (o : Order) : Prop :=
  ∃ id owner x member, o.selector = .member id (.parameter owner x) member ∧ x.group = false

namespace Database

theorem page_map {α β : Type} (p : SelectParts) (f : α → β) (rows : List α) :
    page p (rows.map f) = (page p rows).map f := by
  unfold page
  cases p.limit <;> simp

theorem exists_append_page {α : Type} (p : SelectParts) (rows : List α) :
    ∃ before after, rows = before ++ page p rows ++ after := by
  unfold page
  cases p.limit with
  | none => exact ⟨rows.take (p.offset.getD 0).toNat, [], by simp⟩
  | some n =>
    refine ⟨rows.take (p.offset.getD 0).toNat,
      (rows.drop (p.offset.getD 0).toNat).drop n.toNat, ?_⟩
    rw [List.append_assoc, List.take_append_drop, List.take_append_drop]

theorem page_sublist {α : Type} (p : SelectParts) (rows : List α) : (page p rows).Sublist rows := by
  obtain ⟨before, after, hrows⟩ := exists_append_page p rows
  have hpage : (page p rows).Sublist (before ++ page p rows ++ after) :=
    (List.sublist_append_right before _).trans (List.sublist_append_left _ after)
  rwa [← hrows] at hpage

end Database

-- A statement over the joins of an include plan, ordered by columns of the
-- root.
structure Select.Spans (q : Select) (registry : Registry) (plan : Include.Plan) : Prop where
  sound : plan.Sound registry
  plain : q.Plain
  source : ∃ aliasName, q.parts.source = .table plan.root.table aliasName ∧
    aliasName.getD Node.rootAlias = Node.rootAlias
  joins : q.parts.joins = Include.joins plan
  columns : q.parts.projections.flatMap (Projection.columns plan.root) = Include.projection plan
  orders : Sorting.OnRoot q.parts.orders

variable {s : Services} {env : Environment} {root : Entity} {clauses : Clauses}
variable {before after : State} {q : Select} {included : Option Include.Plan}

theorem rootAlias?_getD (c : Compiler) : c.rootAlias?.getD Node.rootAlias = Node.rootAlias := by
  rcases rootAlias?_eq c with h | h <;> rw [h] <;> rfl

theorem onRoot_orderTerms {c : Compiler} {v : Variant} {orders : List (Term × Bool)}
    (hmembers : ∀ o ∈ clauses.orders, o.OfMember)
    (h : Yields (clauses.orderTerms c v) before orders after) : Sorting.OnRoot orders := by
  unfold Clauses.orderTerms at h
  split at h
  · obtain ⟨rfl, -⟩ := Yields.pure_iff.mp h
    exact fun _ ho => absurd ho List.not_mem_nil
  · refine Yields.forall_of_mapM (fun o ho s a t hterm => ?_) h
    obtain ⟨id, owner, x, member, hselector, hx⟩ := hmembers o ho
    obtain ⟨term, _, hmember, hpure⟩ := Yields.bind_iff.mp hterm
    obtain ⟨rfl, -⟩ := Yields.pure_iff.mp hpure
    rw [hselector] at hmember
    obtain ⟨⟨_, column, -, -, -, rfl⟩, -⟩ := (Compiler.yields_parameterMember hx).mp hmember
    exact ⟨c.rootAlias?, column, rfl, rootAlias?_getD c⟩

-- The columns of the rows are those of the plan.
theorem columns_rowColumns {c : Compiler} {projections : List Projection}
    (hselect : clauses.rawSelect = []) (hfrom : clauses.rawFrom = [])
    (hnodes : ∀ plan ∈ c.includes, plan.nodes ≠ [] ∧ plan.root = clauses.root)
    (h : clauses.rowColumns c = .ok projections) :
    projections.flatMap (Projection.columns clauses.root) =
      Include.projection (c.includes.getD { root := clauses.root }) := by
  unfold Clauses.rowColumns at h
  rw [if_neg (by simp [hselect])] at h
  split at h
  · next plan hplan =>
    obtain ⟨_, -, h⟩ := Result.bind_eq_ok.mp h
    cases h
    obtain ⟨hne, hroot⟩ := hnodes plan hplan
    have hempty : ¬plan.isEmpty := by simp [Include.Plan.isEmpty, hne]
    rw [hplan, Option.getD_some, Include.selectedColumns, if_neg hempty, List.flatMap_map]
    exact List.flatMap_singleton' _
  · next hnone =>
    rw [if_pos (by simp [hfrom])] at h
    obtain ⟨_, -, h⟩ := Result.bind_eq_ok.mp h
    cases h
    rw [hnone]
    simp [Projection.columns, Include.projection]

theorem yields_rowProjections {c : Compiler} {projections : List Projection}
    (hwindows : clauses.windows = []) (hcases : clauses.cases = [])
    (h : Yields (clauses.rowProjections c {}) before projections after) :
    clauses.rowColumns c = .ok projections := by
  unfold Clauses.rowProjections at h
  obtain ⟨-, h⟩ := Yields.guard_iff.mp h
  obtain ⟨columns, hcolumns, h⟩ := Yields.lift_bind_iff.mp h
  rw [hwindows, hcases] at h
  obtain ⟨windows, _, hwindows, h⟩ := Yields.bind_iff.mp h
  obtain ⟨rfl, rfl⟩ := Yields.pure_iff.mp hwindows
  obtain ⟨cases, _, hcases, h⟩ := Yields.bind_iff.mp h
  obtain ⟨rfl, rfl⟩ := Yields.pure_iff.mp hcases
  obtain ⟨rfl, -⟩ := Yields.pure_iff.mp h
  simpa using hcolumns

-- The statement of a query that includes, orders and pages.
theorem spans_paged {depth : Int} {includes : List Text} {orders : List Order} {limit offset : Nat}
    (horders : ∀ o ∈ orders, o.OfMember)
    (h : Yields (select s env {} (.paged root depth includes orders limit offset)) before
      (q, included) after) :
    q.Spans s.registry (included.getD { root }) ∧ (included.getD { root }).root = root ∧
      ∀ {α : Type} (rows : List α), Database.page q.parts rows = (rows.drop offset).take limit := by
  obtain ⟨columns, projections, first, source, joins, filters, second, having, third, orders',
    fourth, combined, hincludes, hcolumns, hprojections, hsource, hjoins, hfilters, hhaving,
    horders', hcombined, rfl⟩ := clauses_of_yields h
  obtain ⟨hsound, hroot, hnodes⟩ := includePlan_spec hincludes
  obtain rfl : [] = columns := Except.ok.inj hcolumns
  obtain rfl := source_eq_table rfl hsource
  obtain ⟨rfl, rfl⟩ := Yields.pure_iff.mp hfilters
  obtain ⟨rfl, rfl⟩ := Yields.pure_iff.mp hhaving
  obtain ⟨rfl, rfl⟩ := Yields.pure_iff.mp hcombined
  have hselected := columns_rowColumns rfl rfl hnodes (yields_rowProjections rfl rfl hprojections)
  have halias := rootAlias?_getD (s.compiler env root included)
  refine ⟨⟨hsound, ⟨rfl, rfl, rfl, rfl, rfl, rfl, rfl⟩, ⟨_, ?_, halias⟩, ?_, ?_, ?_⟩, hroot,
    fun _ => rfl⟩
  · rw [hroot]
    rfl
  · exact joins_eq hjoins root
  · rw [hroot]
    exact hselected
  · exact onRoot_orderTerms horders horders'

-- The rows that a statement over the joins of a plan returns are a page of
-- the joined rows of the plan, in the order of the records of the root.
theorem Select.Spans.page {registry : Registry} {plan : Include.Plan} (h : q.Spans registry plan)
    {d : Sorting} {db : EntitySql.Database} {page : List Joined} (hpage : q.Returns d db page) :
    ∃ ordered : List Joined, ordered.Perm (plan.joined db) ∧ page = Database.page q.parts ordered ∧
      ordered.Pairwise fun j k => ∀ a ∈ j.recordAt [], ∀ b ∈ k.recordAt [],
        (d.order q.parts.orders (.alone a) (.alone b)).isLE := by
  obtain ⟨-, name, aliasName, ordered, hsource, hperm, hsorted, hpage⟩ := hpage
  obtain ⟨_, hsource', halias⟩ := h.source
  cases hsource.symm.trans hsource'
  rw [startRows, halias, h.joins] at hperm
  refine ⟨ordered, hperm, hpage, hsorted.imp fun {j k} hle a ha b hb => ?_⟩
  have hcell : ∀ {row : Joined} {r : Record}, row.recordAt [] = some r →
      row Node.rootAlias = Joined.alone r Node.rootAlias := by
    intro row r hr
    rw [Joined.alone, Joined.bind_self, Node.rootAlias_eq]
    exact hr
  rwa [Sorting.order_congr h.orders (hcell ha) (hcell hb)] at hle

theorem Sorting.ordered (d : Sorting) {orders : List (Term × Bool)} {plan : Include.Plan}
    {db : EntitySql.Database} {roots : List Record} {ordered : List Joined}
    (hroots : roots.Perm (db plan.root.table)) (hsorted : d.Sorted orders (roots.map .alone))
    (htotal : ∀ a ∈ roots, ∀ b ∈ roots, d.order orders (.alone a) (.alone b) = .eq → a = b)
    (hordered : ordered.Pairwise fun j k => ∀ a ∈ j.recordAt [], ∀ b ∈ k.recordAt [],
      (d.order orders (.alone a) (.alone b)).isLE) :
    Materializer.Joins.Ordered db plan
      (fun a b => (d.order orders (.alone a) (.alone b)).isLE) roots ordered where
  perm := hroots
  refl a := by rw [d.order_self]; rfl
  antisymm a ha b hb hle hge := htotal a ha b hb (Sorting.order_eq_of_isLE hle hge)
  rootsSorted := List.pairwise_map.mp hsorted
  rowsSorted := hordered

-- What stands in the store for a page of joined rows, given the records of the
-- root in their order. A record counts as often as it fans out, and the found
-- ones are those that are counted into the page. All of them but the first and
-- the last are complete. If every record has one row, as where only references
-- are included, the found ones are the page of the records, and all complete.
structure CountsRows (db : EntitySql.Database) (plan : Include.Plan) (roots : List Record)
    (limit offset : Nat) (page : List Joined) (store : Store)
    (stands : List Node → Record → InstanceId) (found : List Record) : Prop where
  mirrors : Mirrors db plan page store stands
  sublist : found.Sublist roots
  counted : ∀ r, r ∈ found ↔ r ∈ ((roots.flatMap fun r =>
    List.replicate (plan.fanOut db r) r).drop offset).take limit
  inner : ∀ earlier r later, found = earlier ++ r :: later → earlier ≠ [] → later ≠ [] →
    Complete db plan store stands r
  references : (∀ n ∈ plan.nodes, ¬n.isCollection) → ∀ r ∈ roots, plan.fanOut db r = 1
  single : (∀ r ∈ roots, plan.fanOut db r = 1) →
    found = (roots.drop offset).take limit ∧ ∀ r ∈ found, Complete db plan store stands r

def firstPost : Record := ⟨[("id", .int 1)]⟩

def secondPost : Record := ⟨[("id", .int 2)]⟩

def firstComments : List Record :=
  [⟨[("id", .int 10), ("post_id", .int 1)]⟩, ⟨[("id", .int 11), ("post_id", .int 1)]⟩,
    ⟨[("id", .int 12), ("post_id", .int 1)]⟩]

def discussedTables : EntitySql.Database := fun table =>
  if table = Catalogue.postEntity.table then [firstPost, secondPost]
  else if table = Catalogue.commentEntity.table then firstComments
  else []

def commentsNode : Node :=
  ⟨1, none, "Comments", ⟨"Comments", Catalogue.comment, .collection "post_id"⟩,
    Catalogue.postEntity, Catalogue.commentEntity⟩

def commentsPlan : Include.Plan := ⟨Catalogue.postEntity, [commentsNode]⟩

-- Numbers in their usual order; nothing else is compared.
def byNumber : Sorting where
  value t row :=
    match t with
    | .column table column => row.value (table.getD Node.rootAlias, column)
    | _ => .null
  compare a b :=
    match a, b with
    | .int m, .int n => Ord.compare m.toInt n.toInt
    | _, _ => .eq
  value_column _ _ _ := rfl
  swap_compare a b := by
    cases a <;> cases b <;> first | rfl | exact Std.OrientedOrd.eq_swap.symm

def discussedPosts : Plan :=
  .paged Catalogue.postEntity 5 ["Comments"]
    [⟨.member 1 (.parameter 0 ⟨"p", Catalogue.post, false⟩) "Id", true⟩] 2 0

def discussedPage : List Joined := (commentsPlan.joined discussedTables).take 2

-- The statement puts the rows in the order of the posts and returns the
-- first two of them, both of the first post.
theorem selects_discussedPosts : ∃ q after,
    Yields (select readServices readEnvironment {} discussedPosts) {} (q, some commentsPlan) after ∧
    q.Returns byNumber discussedTables discussedPage ∧
    byNumber.Sorted q.parts.orders ([firstPost, secondPost].map .alone) ∧
    (∀ a ∈ [firstPost, secondPost], ∀ b ∈ [firstPost, secondPost],
      byNumber.order q.parts.orders (.alone a) (.alone b) = .eq → a = b) ∧
    q.resultSet Catalogue.postEntity (fun _ => []) discussedPage =
      commentsPlan.resultSet (fun _ => []) discussedPage := by
  refine ⟨_, _, rfl, ⟨⟨rfl, rfl, rfl, rfl, rfl, rfl, rfl⟩, _, _,
    commentsPlan.joined discussedTables, rfl, .refl _, ?_, rfl⟩, ?_, ?_, rfl⟩
  · unfold Sorting.Sorted
    decide
  · unfold Sorting.Sorted
    decide
  · intro a ha b hb horder
    simp only [List.mem_cons, List.not_mem_nil, or_false] at ha hb
    rcases ha with rfl | rfl <;> rcases hb with rfl | rfl <;>
      first | rfl | exact absurd horder (by decide)

theorem discussedTables_wellFormed : discussedTables.WellFormed Catalogue.registry := by
  have hempty : ∀ e ∈ Catalogue.registry.entities,
      e ∈ [Catalogue.postEntity, Catalogue.commentEntity] ∨ (discussedTables e.table).isEmpty := by
    decide
  refine Database.wellFormed_of_filled hempty ?_ (by decide) (by decide)
  intro e he r hr f hf
  simp only [List.mem_cons, List.not_mem_nil, or_false] at he
  rcases he with rfl | rfl
  · have hrow : r = firstPost ∨ r = secondPost := List.mem_pair.mp hr
    simp only [Catalogue.postEntity, List.mem_cons, List.not_mem_nil, or_false] at hf
    rcases hrow with rfl | rfl <;> rcases hf with rfl | rfl | rfl | rfl | rfl | rfl | rfl <;>
      first | exact .inl rfl | exact .inr trivial
  · have hrow : r ∈ firstComments := hr
    simp only [firstComments, List.mem_cons, List.not_mem_nil, or_false] at hrow
    simp only [Catalogue.commentEntity, List.mem_cons, List.not_mem_nil, or_false] at hf
    rcases hrow with rfl | rfl | rfl <;> rcases hf with rfl | rfl | rfl <;>
      first | exact .inl rfl | exact .inr trivial

end EntitySql.Query
