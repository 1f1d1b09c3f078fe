import EntitySql.Proofs.Include.Sound
import EntitySql.Proofs.Run
import EntitySql.Proofs.Sql.Ledger
import EntitySql.Proofs.Sql.Placeholders
import EntitySql.Sql.Compiler

-- How steps of the compiler number what they bind. Bindings are only added,
-- each one is named by its place, and a text names new bindings from left to
-- right, whatever is compiled.

namespace EntitySql.Sql

structure Numbers (before after : List Binding) (names : List Text) : Prop where
  kept : before <+: after
  named : ∀ i b, before.length ≤ i → after[i]? = some b → b.name = parameterName i
  ordered : ∃ indices : List Nat, names = indices.map parameterName ∧
    indices.Pairwise (· < ·) ∧ ∀ i ∈ indices, before.length ≤ i ∧ i < after.length

namespace Numbers

variable {before between after : List Binding} {names others : List Text}

theorem refl (bindings : List Binding) : Numbers bindings bindings [] where
  kept := List.prefix_rfl
  named := by
    intro i b hle hb
    rw [List.getElem?_eq_none hle] at hb
    cases hb
  ordered := ⟨[], rfl, .nil, by simp⟩

theorem trans (h : Numbers before between names) (h' : Numbers between after others) :
    Numbers before after (names ++ others) where
  kept := h.kept.trans h'.kept
  named := by
    intro i b hle hb
    by_cases hi : i < between.length
    · obtain ⟨more, rfl⟩ := h'.kept
      rw [List.getElem?_append_left hi] at hb
      exact h.named i b hle hb
    · exact h'.named i b (by omega) hb
  ordered := by
    obtain ⟨first, hfirst, hsorted, hbounds⟩ := h.ordered
    obtain ⟨second, hsecond, hsorted', hbounds'⟩ := h'.ordered
    have hle := h.kept.length_le
    have hle' := h'.kept.length_le
    refine ⟨first ++ second, by rw [hfirst, hsecond, List.map_append],
      List.pairwise_append.mpr ⟨hsorted, hsorted', fun i hi j hj => ?_⟩, fun i hi => ?_⟩
    · have hlt := (hbounds i hi).2
      have hge := (hbounds' j hj).1
      omega
    · rcases List.mem_append.mp hi with hi | hi
      · obtain ⟨hge, hlt⟩ := hbounds i hi
        exact ⟨hge, by omega⟩
      · obtain ⟨hge, hlt⟩ := hbounds' i hi
        exact ⟨by omega, hlt⟩

-- What is bound need not be named.
theorem sublist (h : Numbers before after names) (hsublist : others.Sublist names) :
    Numbers before after others where
  kept := h.kept
  named := h.named
  ordered := by
    obtain ⟨indices, rfl, hsorted, hbounds⟩ := h.ordered
    obtain ⟨fewer, hfewer, rfl⟩ := List.sublist_map_iff.mp hsublist
    exact ⟨fewer, rfl, hsorted.sublist hfewer, fun i hi => hbounds i (hfewer.subset hi)⟩

theorem push (bindings : List Binding) (v : Value) :
    Numbers bindings (bindings ++ [⟨parameterName bindings.length, v⟩])
      [parameterName bindings.length] where
  kept := List.prefix_append _ _
  named := by
    intro i b hle hb
    obtain ⟨hlt, -⟩ := List.getElem?_eq_some_iff.mp hb
    have hi : i = bindings.length := by
      rw [List.length_append, List.length_singleton] at hlt
      omega
    rw [hi, List.getElem?_concat_length] at hb
    rw [← Option.some.inj hb, hi]
  ordered := ⟨[bindings.length], rfl, List.pairwise_singleton _ _, by simp⟩

end Numbers

namespace Compiler

variable {α β : Type}

-- Behind texts with the given placeholders, the step leads to a result up to
-- which the placeholders are the named ones.
def Numbered (pre : List Text) (x : Step α) (names : α → List Text) : Prop :=
  ∀ before s a s', Numbers before s.bindings pre → Yields x s a s' →
    Numbers before s'.bindings (names a)

namespace Numbered

variable {pre : List Text} {x : Step α} {names : α → List Text} {others : β → List Text}

theorem numbers (h : Numbered [] x names) {s s' : State} {a : α} (ha : Yields x s a s') :
    Numbers s.bindings s'.bindings (names a) := h _ s a s' (.refl _) ha

-- It is enough to look at the step alone.
theorem of_numbers
    (h : ∀ s a s', Yields x s a s' → Numbers s.bindings s'.bindings (names a)) :
    Numbered pre x fun a => pre ++ names a :=
  fun _ s a s' hbefore ha => hbefore.trans (h s a s' ha)

theorem behind (h : Numbered [] x names) (pre : List Text) :
    Numbered pre x fun a => pre ++ names a :=
  of_numbers fun _ _ _ ha => h.numbers ha

theorem congr {same : α → List Text} (h : Numbered pre x names)
    (hsame : ∀ s a s', Yields x s a s' → same a = names a) : Numbered pre x same := by
  intro before s a s' hbefore ha
  rw [hsame s a s' ha]
  exact h before s a s' hbefore ha

protected theorem pure {a : α} (h : (names a).Sublist pre) : Numbered pre (pure a) names := by
  intro before s b s' hbefore hb
  obtain ⟨rfl, rfl⟩ := Yields.pure_iff.mp hb
  exact hbefore.sublist h

protected theorem bind {f : α → Step β} (hx : Numbered pre x names)
    (hf : ∀ a, Numbered (names a) (f a) others) : Numbered pre (x >>= f) others := by
  intro before s b s' hbefore hb
  obtain ⟨a, u, ha, hb⟩ := Yields.bind_iff.mp hb
  exact hf a before u b s' (hx before s a u hbefore ha) hb

protected theorem map {f : α → β} (hx : Numbered pre x fun a => others (f a)) :
    Numbered pre (f <$> x) others := by
  intro before s b s' hbefore hb
  obtain ⟨a, ha, rfl⟩ := Yields.map_iff.mp hb
  exact hx before s a s' hbefore ha

-- What a computation without a state has to say is known behind it.
theorem lift_bind {r : Result α} {f : α → Step β}
    (hf : ∀ a, r = .ok a → Numbered pre (f a) others) :
    Numbered pre ((liftM r : Step α) >>= f) others := by
  intro before s b s' hbefore hb
  obtain ⟨a, hr, hb⟩ := Yields.lift_bind_iff.mp hb
  exact hf a hr before s b s' hbefore hb

protected theorem throw {e : Error} : Numbered pre (throw e : Step α) names :=
  fun _ _ _ _ _ h => absurd h Yields.throw_iff

theorem throw_bind {e : Error} {f : α → Step β} :
    Numbered pre ((throw e : Step α) >>= f) others := by
  intro before s b s' hbefore hb
  obtain ⟨a, u, ha, -⟩ := Yields.bind_iff.mp hb
  exact absurd ha Yields.throw_iff

protected theorem ite {c : Prop} [Decidable c] {y : Step α} (hx : c → Numbered pre x names)
    (hy : ¬c → Numbered pre y names) : Numbered pre (if c then x else y) names := by
  by_cases h : c
  · rw [if_pos h]
    exact hx h
  · rw [if_neg h]
    exact hy h

protected theorem mapM {f : β → Step α} {items : List β}
    (h : ∀ b ∈ items, Numbered [] (f b) names) :
    Numbered [] (items.mapM f) fun results => results.flatMap names := by
  induction items with
  | nil => exact .pure (by simp)
  | cons b rest ih =>
    rw [List.mapM_cons]
    refine .bind (h b (by simp)) fun a => ?_
    refine .bind ((ih fun d hd => h d (List.mem_cons_of_mem b hd)).behind _) fun results => ?_
    exact .pure (by simp)

end Numbered

variable {c : Compiler}

-- The values are bound, and no name that is written holds a marker.
structure Unmarked (c : Compiler) : Prop where
  mode : c.mode = .parameterized
  registry : ∀ t ∈ c.registry.identifiers, Sql.Unmarked t
  includes : ∀ p ∈ c.includes, ∀ n ∈ p.nodes, ∀ t ∈ n.target.identifiers, Sql.Unmarked t

-- Values.

theorem numbered_placeholder (v : Value) : Numbered [] (placeholder v) Term.placeholders := by
  intro before s t u hbefore h
  obtain ⟨rfl, rfl⟩ := h.unique (yields_placeholder v s)
  rw [Term.placeholders, Term.text, placeholders_parameterName]
  exact hbefore.trans (.push s.bindings v)

theorem numbered_constant (hmode : c.mode = .parameterized) (v : Value) :
    Numbered [] (c.constant v) Term.placeholders := by
  have hword {t : Term} (ht : atSign ∉ t.text) : Numbered [] (Pure.pure t) Term.placeholders :=
    .pure (by rw [Term.placeholders, placeholders_of_not_mem ht])
  unfold constant
  simp only [hmode]
  exact .ite (fun _ => hword (by decide)) fun _ =>
    .ite (fun _ => hword (by decide)) fun _ => numbered_placeholder v

-- Columns.

theorem Unmarked.registered (hc : c.Unmarked) {type : EntityType} {e : Entity}
    (he : c.registry.get type = .ok e) {name : Text} (hname : name ∈ e.identifiers) :
    Sql.Unmarked name :=
  hc.registry name (Registry.mem_identifiers (Registry.mem_of_get he) hname)

theorem placeholders_rootColumn {name : Text} (hname : Sql.Unmarked name) {t : Term}
    (h : c.rootColumn name = .ok t) : t.placeholders = [] := by
  refine placeholders_of_column h (fun aliasName halias => ?_) hname
  unfold rootAlias? at halias
  split at halias
  · cases halias
  · split at halias
    · cases halias
    · cases halias
      exact placeholders_of_not_mem (by decide)

theorem placeholders_rootMember {entity : Entity}
    (hentity : ∀ name ∈ entity.identifiers, Sql.Unmarked name) {source : Expr} {name : Text}
    {t : Term} (h : c.rootMember entity source name = .ok t) : t.placeholders = [] := by
  unfold rootMember at h
  split at h
  · next f hf =>
    exact placeholders_rootColumn
      (hentity _ (Entity.column_mem_identifiers (Entity.mem_of_property? hf))) h
  · split at h
    · next foreignKey hforeign =>
      obtain ⟨n, hn, hrelationship⟩ := Option.map_eq_some_iff.mp hforeign
      refine placeholders_rootColumn (hentity _ (Entity.name_mem_identifiers
        (List.mem_of_find?_eq_some hn) ?_)) h
      rw [hrelationship]
      simp [Relationship.names]
    · cases h

theorem mem_nodes_of_find? {p : Include.Plan} {path : Text} {n : Include.Node}
    (h : p.find? path = some n) : n ∈ p.nodes := by
  rw [Include.Plan.find?, Option.or_eq_some_iff] at h
  rcases h with h | ⟨-, h⟩
  · exact List.mem_of_find?_eq_some h
  · exact List.mem_of_find?_eq_some h

theorem placeholders_includedMember (hc : c.Unmarked) {source owner : Expr} {name : Text}
    {t : Term} (h : c.includedMember source owner name = .ok t) : t.placeholders = [] := by
  unfold includedMember at h
  split at h
  · cases h
  · next node hnode =>
    obtain ⟨plan, hplan, hfind⟩ := Option.bind_eq_some_iff.mp hnode
    split at h
    · cases h
    · next f hf =>
      refine placeholders_of_column h ?_ (hc.includes plan hplan node (mem_nodes_of_find? hfind) _
        (Entity.column_mem_identifiers (Entity.mem_of_property? hf)))
      rintro aliasName ⟨⟩
      exact placeholders_of_plain (Include.Node.plain_aliasOf node.number)

theorem placeholders_rowMember (hc : c.Unmarked) {p : Parameter} {source owner : Expr} {name : Text}
    {t : Term} (h : c.rowMember p source owner name = .ok t) : t.placeholders = [] := by
  rw [rowMember, Result.bind_eq_ok] at h
  obtain ⟨entity, hentity, h⟩ := h
  split at h
  · exact placeholders_rootMember (fun name hname => hc.registered hentity hname) h
  · exact placeholders_includedMember hc h

-- The columns that a group is known by.
def Columns (group : GroupColumns) : Prop := ∀ columns ∈ group, ∀ t ∈ columns, placeholders t = []

theorem placeholders_groupMember {group : GroupColumns} (hgroup : Columns group)
    {source owner : Expr} {name : Text} {t : Term}
    (h : groupMember group source owner name = .ok t) : t.placeholders = [] := by
  obtain ⟨column, rfl, rfl⟩ := exists_groupKey_of_groupMember h
  exact hgroup [column] rfl column (by simp)

-- Numbers are books: whatever is bound is named in its turn, or not at all.
def numbering (hc : c.Unmarked) {group : GroupColumns} (hgroup : Columns group) :
    Ledger c group fun _ => True where
  books s u names := Numbers s.bindings u.bindings names
  refl s := .refl s.bindings
  trans := .trans
  push s v := .push s.bindings v
  accessor := by
    intro e s u a _ ha
    rw [bindings_of_accessor ha]
    exact .refl s.bindings
  groupMember := by
    intro source owner name t s ht
    rw [placeholders_groupMember hgroup ht]
    exact .refl s.bindings
  rowMember := by
    intro p source owner name t s ht
    rw [placeholders_rowMember hc ht]
    exact .refl s.bindings
  emptied _ _ _ h := h.sublist (List.nil_sublist _)

theorem numbered_term (hc : c.Unmarked) {group : GroupColumns} (hgroup : Columns group) (e : Expr) :
    Numbered [] (c.term group e) Term.placeholders := by
  have hterm := (numbering hc hgroup).tracks_term hc.mode e fun _ _ => trivial
  intro before s t u hbefore ht
  exact hbefore.trans (hterm.booked ht)

theorem columns_none : Columns none := by
  rintro columns ⟨⟩

theorem numbered_expression (hc : c.Unmarked) (e : Option Expr) :
    Numbered [] (c.expression e) Term.placeholders := by
  cases e with
  | none => exact .throw
  | some e => exact numbered_term hc columns_none e

theorem numbered_having (hc : c.Unmarked) (predicate : Option Expr) {columns : List Text}
    (hcolumns : ∀ t ∈ columns, placeholders t = []) :
    Numbered [] (c.having predicate columns) Term.placeholders := by
  have hgroup : Columns (some columns) := by
    rintro _ ⟨⟩
    exact hcolumns
  refine .ite (fun _ => .throw) fun _ => ?_
  cases predicate with
  | none => exact .throw
  | some e => exact numbered_term hc hgroup e

-- Assignments.

def Assignment.placeholders (a : Assignment) : List Text := Sql.placeholders a.text

theorem numbered_assignment (hc : c.Unmarked) {entity : Entity}
    (hentity : ∀ name ∈ entity.identifiers, Sql.Unmarked name) (source : Expr)
    (binding : Text × Expr) :
    Numbered [] (c.assignment entity source binding) Assignment.placeholders := by
  have hequals : Parts " = " := by decide
  unfold assignment
  split
  · exact .throw
  · next f hf =>
    have hcolumn := placeholders_quoted (placeholders_of_unmarked
      (hentity _ (Entity.column_mem_identifiers (Entity.mem_of_property? hf))))
    refine .bind (numbered_term hc columns_none binding.2) fun t => ?_
    split
    · exact .throw
    · refine .pure ?_
      rw [Assignment.placeholders, Assignment.text, placeholders_beside _ _ hequals, hcolumn]
      exact .refl _

theorem numbered_update (hc : c.Unmarked) (e : Option Expr) :
    Numbered [] (c.update e) fun assignments => assignments.flatMap Assignment.placeholders := by
  unfold update
  split
  · next id type bindings _ =>
    refine .lift_bind fun entity hentity => ?_
    refine .bind (.mapM fun binding _ => numbered_assignment hc
      (fun name hname => hc.registered hentity hname) _ binding) fun assignments => ?_
    exact .ite (fun _ => .throw_bind) fun _ => .pure (.refl _)
  · exact .throw
  · exact .throw

theorem placeholders_assignmentsText (assignments : List Assignment) :
    placeholders (assignmentsText assignments) = assignments.flatMap Assignment.placeholders := by
  have hcomma : Parts ", " := by decide
  rw [assignmentsText, Text.commaJoin, placeholders_join hcomma, List.flatMap_map]
  rfl

end Compiler

end EntitySql.Sql
