import EntitySql.Proofs.Sql.Moving

-- An expression that has been compiled in a statement with joins, compiled in
-- one without them. It does not need the joins if it reads no member behind a
-- navigation that has been included.

namespace EntitySql.Sql

namespace Term

theorem operands_withOperands {t : Term} {operands : List Term}
    (h : operands.length = t.operands.length) : (t.withOperands operands).operands = operands := by
  cases t <;> rcases operands with _ | ⟨a, _ | ⟨b, _ | ⟨d, _ | ⟨e, rest⟩⟩⟩⟩ <;>
    first | rfl | simp [Term.operands] at h

theorem withOperands_withOperands (t : Term) (operands : List Term) :
    (t.withOperands operands).withOperands t.operands = t := by
  cases t <;> rcases operands with _ | ⟨a, _ | ⟨b, _ | ⟨d, _ | ⟨e, rest⟩⟩⟩⟩ <;> rfl

theorem isFrame_withOperands {t : Term} (ht : t.IsFrame) (operands : List Term) :
    (t.withOperands operands).IsFrame := by
  unfold withOperands
  split <;> exact ht

-- A frame around terms that move, seen from where they move to.
theorem Moves.of_withOperands {shift bound : Nat} {table : Option Text} {t : Term}
    {operands : List Term} (ht : t.IsFrame)
    (h : List.Forall₂ (fun a b => Moves shift table bound b a) t.operands operands) :
    (t.withOperands operands).Moves shift table bound t := by
  have hlength : operands.length = t.operands.length := h.length_eq.symm
  have hframe : (t.withOperands operands).Moves shift table bound
      ((t.withOperands operands).withOperands t.operands) := by
    refine .frame (isFrame_withOperands ht operands) ?_
    rw [operands_withOperands hlength]
    exact h.flip
  rwa [withOperands_withOperands] at hframe

end Term

namespace Compiler

variable {names : Naming} {registry : Registry} {shift : Nat} {table : Option Text}

-- The first state has bound some values before those of the second one.
abbrev Unshifted (names : Naming) (registry : Registry) (shift : Nat) (s s' : State) : Prop :=
  Shifted names registry shift s' s

-- What is bound in the first state lies before this bound.
abbrev boundIn (shift : Nat) (bindings : List Binding) : Nat := bindings.length + shift

abbrev MovedFrom (shift : Nat) (table : Option Text) (bindings : List Binding) (t t' : Term) :
    Prop :=
  t'.Moves shift table (boundIn shift bindings) t

theorem follows_placeholder_movedFrom (v : Value) :
    Follows (Unshifted names registry shift) (fun _ => True) (MovedFrom shift table)
      (placeholder v) (placeholder v) := by
  refine .placeholder v (fun _ _ hI => hI.push v) fun s s' bindings hI hlt => ?_
  rw [hI.length]
  exact .placeholder _ (Nat.add_lt_add_right hlt shift)

-- The second compiler is the first one, perhaps without its joins.
structure Beneath (c : Compiler) (table : Option Text) (c' : Compiler) : Prop where
  registry : c'.registry = c.registry
  options : c'.options = c.options
  mode : c'.mode = c.mode
  now : c'.now = c.now
  captures : c'.captures = c.captures
  root : (c'.rootAlias? = none ∧ c.rootAlias? = table) ∨
    ∃ aliasName, c'.rootAlias? = some aliasName ∧ c.rootAlias? = some aliasName

-- Every member of the chain is one of the root, or found behind the same
-- navigations.
def Reaches (c c' : Compiler) : Expr → Prop
  | .member _ owner _ =>
    (owner.memberPath.isEmpty = true ∨ c'.included? owner = c.included? owner) ∧ Reaches c c' owner
  | _ => True

namespace Beneath

variable {c c' : Compiler}

theorem same (c : Compiler) : c.Beneath none c := by
  refine ⟨rfl, rfl, rfl, rfl, rfl, ?_⟩
  cases hroot : c.rootAlias? with
  | none => exact .inl ⟨rfl, rfl⟩
  | some aliasName => exact .inr ⟨aliasName, rfl, rfl⟩

theorem unjoined (c : Compiler) : c.Beneath c.rootAlias? { c with includes := none } :=
  ⟨rfl, rfl, rfl, rfl, rfl, .inl ⟨rfl, rfl⟩⟩

theorem reaches_same (c : Compiler) (e : Expr) : c.Reaches c e := by
  cases e with
  | member id owner name => exact ⟨.inr rfl, reaches_same c owner⟩
  | _ => trivial

variable (h : c.Beneath table c')

include h

theorem movedFrom_rootColumn {name : Text} {t : Term} (ht : c.rootColumn name = .ok t) :
    ∃ t', c'.rootColumn name = .ok t' ∧ ∀ bound, t'.Moves shift table bound t := by
  have hcolumn := eq_of_column ht
  refine ⟨.column c'.rootAlias? name, ?_, fun bound => ?_⟩
  · unfold rootColumn column at ht ⊢
    split at ht
    · cases ht
    · rfl
  · rw [hcolumn]
    rcases h.root with ⟨hnone, htable⟩ | ⟨aliasName, hsome', hsome⟩
    · rw [hnone, htable]
      exact .column name
    · rw [hsome', hsome]
      exact .qualified aliasName name

theorem movedFrom_rootMember {entity : Entity} {source : Expr} {name : Text} {t : Term}
    (ht : c.rootMember entity source name = .ok t) :
    ∃ t', c'.rootMember entity source name = .ok t' ∧
      ∀ bound, t'.Moves shift table bound t := by
  unfold rootMember at ht ⊢
  split at ht
  · exact h.movedFrom_rootColumn ht
  · split at ht
    · exact h.movedFrom_rootColumn ht
    · cases ht

theorem movedFrom_rowMember {p : Parameter} {source owner : Expr} {name : Text} {t : Term}
    (hreaches : owner.memberPath.isEmpty = true ∨ c'.included? owner = c.included? owner)
    (ht : c.rowMember p source owner name = .ok t) :
    ∃ t', c'.rowMember p source owner name = .ok t' ∧
      ∀ bound, t'.Moves shift table bound t := by
  unfold rowMember at ht ⊢
  obtain ⟨entity, hentity, ht⟩ := Result.bind_eq_ok.mp ht
  rw [h.registry, hentity]
  by_cases hroot : owner.memberPath.isEmpty = true
  · simp only [if_pos hroot] at ht ⊢
    exact h.movedFrom_rootMember ht
  · have hsame : c'.included? owner = c.included? owner := hreaches.resolve_left hroot
    simp only [if_neg hroot] at ht ⊢
    have ht' : c'.includedMember source owner name = .ok t := by
      rw [← ht, includedMember, includedMember, hsame]
    refine ⟨t, ht', fun bound => ?_⟩
    unfold includedMember at ht
    split at ht
    · cases ht
    · split at ht
      · cases ht
      · rw [eq_of_column ht]
        exact .qualified _ _

theorem field?_eq {e : Expr} (he : c.Reaches c' e) : c'.field? e = c.field? e := by
  cases e with
  | member id owner name =>
    rw [Compiler.field?, Compiler.field?, h.registry]
    rcases he.1 with hroot | hsame
    · simp only [hroot, if_true]
    · rw [hsame]
  | _ => rfl

theorem fieldsAgree (e : Expr) (he : ∀ n ∈ e.nodes, c.Reaches c' n) : FieldsAgree c c' e := by
  cases e with
  | member id owner name => exact h.field?_eq (he _ (Expr.mem_nodes_self _))
  | binary id op l r =>
    exact ⟨fieldsAgree _ fun n hn => he n (by simp [Expr.nodes, hn]),
      fieldsAgree _ fun n hn => he n (by simp [Expr.nodes, hn])⟩
  | conditional id test a b =>
    show FieldsAgree c c' a
    exact fieldsAgree _ fun n hn => he n (by simp [Expr.nodes, hn])
  | _ => trivial
termination_by sizeOf e

theorem follows_constant (v : Value) :
    Follows (Unshifted names registry shift) (fun _ => True) (MovedFrom shift table)
      (c.constant v) (c'.constant v) := by
  have hcurrent (v : Value) : c'.isCurrent v = c.isCurrent v := by
    cases v <;> simp [isCurrent, h.options, h.now]
  exact follows_constant_of_frame h.mode hcurrent (fun _ l => .value l) .of_withOperands
    follows_placeholder_movedFrom v

theorem follows_extract {e : Expr} (he : names e.id = some e) {P : List Binding → Prop} :
    Follows (Unshifted names c.registry shift) P (fun _ v v' => v = v') (c.extract e)
      (c'.extract e) :=
  follows_namedExtract h.registry h.captures (fun h => ⟨h.honest', h.honest⟩)
    (fun h hcache hcache' => ⟨h.le, h.values, hcache', hcache⟩) he

theorem follows_search {p p' : Part} (place : Placement) (hsource : p'.source = p.source)
    (he : names p.source.id = some p.source) (hknown : p.source.referencesParameter = false) :
    Follows (Unshifted names c.registry shift) (fun _ => True) (MovedFrom shift table)
      (c.searchPattern p place) (c'.searchPattern p' place) := by
  refine follows_searchPattern h.mode (fun _ l => .value l) ?_ h.follows_constant place hsource
    hknown (h.follows_extract he)
  intro bindings t t' place ht
  exact .frame (t := place.around t') trivial (.cons ht .nil)

theorem follows_member {group : GroupColumns} {id : NodeId} {source owner : Expr} {name : Text}
    {p : Parameter} {x y : Step Term} (hroot : owner.rootParameter? = some p)
    (hmember : c.Reaches c' (.member id owner name))
    (hxy : Follows (Unshifted names registry shift) (fun _ => True) (MovedFrom shift table) x y) :
    Follows (Unshifted names registry shift) (fun _ => True) (MovedFrom shift table)
      (c.member group source owner name x) (c'.member group source owner name y) := by
  have hlength : c'.isLengthOf owner name = c.isLengthOf owner name := by
    rw [isLengthOf, isLengthOf, h.field?_eq hmember.2]
  unfold Compiler.member
  rw [hroot, hlength]
  refine .ite (fun _ => .lift fun t ht => ⟨t, ht, fun bindings _ => ?_⟩) fun _ => ?_
  · obtain ⟨column, -, rfl⟩ := exists_groupKey_of_groupMember ht
    exact .groupKey column
  refine .ite (fun _ => ?_) fun _ => .lift fun t ht => ?_
  · refine .bind hxy fun t t' _ => .pure ?_
    rintro bindings ⟨-, ht⟩
    exact .frame (t := .apply .length t') trivial (.cons ht .nil)
  · obtain ⟨t', ht', hmoves⟩ := h.movedFrom_rowMember hmember.1 ht
    exact ⟨t', ht', fun bindings _ => hmoves _⟩

end Beneath

-- Every node of the expression has a name of its own, and its members are in
-- reach.
def unjoining {c c' : Compiler} (h : c.Beneath table c') (names : Naming) (shift : Nat)
    (group : GroupColumns) : c.Simulation c' group group where
  related := Unshifted names c.registry shift
  alike := MovedFrom shift table
  admits n := names n.id = some n ∧ c.Reaches c' n
  isNullWord h := h.isNullWord.symm
  frame := .of_withOperands
  grouped := Simulation.grouped_self group
  ignoreCase := by rw [h.options]
  constant := h.follows_constant
  extract _ he := h.follows_extract he.1
  member hroot hmember := h.follows_member hroot hmember.2
  search place _ _ he hsource hknown := h.follows_search place hsource he.1 hknown
  agrees he _ := h.fieldsAgree _ fun n hn => (he n hn).2

-- What compiles with some group columns compiles with as many others.

def SameGroupWords (columns columns' : List Text) : Prop :=
  List.Forall₂ (fun (sql sql' : Text) => (sql == "NULL") = (sql' == "NULL")) columns columns'

theorem exists_groupMember {columns columns' : List Text} (h : SameGroupWords columns columns')
    {source owner : Expr} {name : Text} {t : Term}
    (ht : groupMember (some columns) source owner name = .ok t) :
    ∃ t', groupMember (some columns') source owner name = .ok t' ∧
      t.isNullWord = t'.isNullWord := by
  unfold groupMember at ht ⊢
  split at ht
  · next hkey =>
    rw [if_pos hkey]
    cases h with
    | nil => cases ht
    | cons hword hrest =>
      cases hrest with
      | nil =>
        cases ht
        exact ⟨_, rfl, hword⟩
      | cons _ _ => cases ht
  · cases ht

theorem Beneath.follows_groupedMember {c c' : Compiler} (h : c.Beneath table c')
    {columns columns' : List Text} (hcolumns : SameGroupWords columns columns') {id : NodeId}
    {source owner : Expr} {name : Text} {p : Parameter} {x y : Step Term}
    (hroot : owner.rootParameter? = some p) (hmember : c.Reaches c' (.member id owner name))
    (hxy : Follows (Unshifted names registry shift) (fun _ => True)
      (fun _ t t' => t.isNullWord = t'.isNullWord) x y) :
    Follows (Unshifted names registry shift) (fun _ => True)
      (fun _ t t' => t.isNullWord = t'.isNullWord)
      (c.member (some columns) source owner name x)
      (c'.member (some columns') source owner name y) := by
  have hlength : c'.isLengthOf owner name = c.isLengthOf owner name := by
    rw [isLengthOf, isLengthOf, h.field?_eq hmember.2]
  unfold Compiler.member
  rw [hroot, hlength]
  refine .ite (fun _ => .lift fun t ht => ?_) fun _ => .ite (fun _ => ?_) fun _ => .lift fun t ht => ?_
  · obtain ⟨t', ht', hword⟩ := exists_groupMember hcolumns ht
    exact ⟨t', ht', fun _ _ => hword⟩
  · exact .bind hxy fun t t' _ => .pure fun _ _ => rfl
  · obtain ⟨t', ht', hmoves⟩ : ∃ t', c'.rowMember p source owner name = .ok t' ∧
        ∀ bound, t'.Moves shift table bound t := h.movedFrom_rowMember hmember.1 ht
    exact ⟨t', ht', fun bindings _ => (hmoves 0).isNullWord.symm⟩

def regrouping {c c' : Compiler} (h : c.Beneath table c') (names : Naming) (shift : Nat)
    {columns columns' : List Text} (hcolumns : SameGroupWords columns columns') :
    c.Simulation c' (some columns) (some columns') where
  related := Unshifted names c.registry shift
  alike _ t t' := t.isNullWord = t'.isNullWord
  admits n := names n.id = some n ∧ c.Reaches c' n
  isNullWord h := h
  frame _ _ := (Term.isNullWord_withOperands _ _).symm
  grouped := rfl
  ignoreCase := by rw [h.options]
  constant v := (h.follows_constant v).imp fun _ _ _ hmoves => hmoves.isNullWord.symm
  extract _ he := h.follows_extract he.1
  member hroot hmember := h.follows_groupedMember hcolumns hroot hmember.2
  search place _ _ he hsource hknown :=
    (h.follows_search place hsource he.1 hknown).imp fun _ _ _ hmoves => hmoves.isNullWord.symm
  agrees he _ := h.fieldsAgree _ fun n hn => (he n hn).2

end Compiler

end EntitySql.Sql
