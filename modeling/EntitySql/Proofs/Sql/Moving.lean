import EntitySql.Proofs.Schema.Lookup
import EntitySql.Proofs.Sql.Accessors
import EntitySql.Proofs.Sql.Simulation

-- The same expression in two statements: behind other placeholders, and with
-- the columns of the root perhaps behind an alias.

namespace EntitySql.Sql

-- The second term has its placeholders the given number of places further on,
-- but before the bound, and the table in front of its bare columns.
inductive Term.Moves (shift : Nat) (table : Option Text) (bound : Nat) : Term → Term → Prop where
  | value (literal : Text) : Moves shift table bound (.value literal) (.value literal)
  | groupKey (sql : Text) : Moves shift table bound (.groupKey sql) (.groupKey sql)
  | placeholder (index : Nat) (h : index + shift < bound) :
      Moves shift table bound (.placeholder index) (.placeholder (index + shift))
  | column (name : Text) : Moves shift table bound (.column none name) (.column table name)
  | qualified (aliasName name : Text) :
      Moves shift table bound (.column (some aliasName) name) (.column (some aliasName) name)
  | frame {t : Term} {operands : List Term} (ht : t.IsFrame)
      (h : List.Forall₂ (Moves shift table bound) t.operands operands) :
      Moves shift table bound t (t.withOperands operands)

theorem Term.Moves.isNullWord {shift bound : Nat} {table : Option Text} {t t' : Term}
    (h : t.Moves shift table bound t') : t.isNullWord = t'.isNullWord := by
  cases h with
  | frame ht h => exact (t.isNullWord_withOperands _).symm
  | _ => rfl

namespace Compiler

variable {names : Naming} {registry : Registry} {shift : Nat} {table : Option Text}

-- Constants and search patterns, where values are alike and so are frames around
-- terms that are alike.

section Alike

variable {c c' : Compiler} {I : State → State → Prop} {R : List Binding → Term → Term → Prop}

theorem follows_constant_of_frame (hmode : c'.mode = c.mode)
    (hcurrent : ∀ v, c'.isCurrent v = c.isCurrent v)
    (hvalue : ∀ bindings literal, R bindings (.value literal) (.value literal))
    (hframe : ∀ {bindings t operands}, t.IsFrame → List.Forall₂ (R bindings) t.operands operands →
      R bindings t (t.withOperands operands))
    (hplaceholder : ∀ v, Follows I (fun _ => True) R (placeholder v) (placeholder v)) (v : Value) :
    Follows I (fun _ => True) R (c.constant v) (c'.constant v) := by
  unfold constant
  rw [hcurrent, hmode]
  refine .ite (fun _ => .pure fun _ _ => hframe (t := .null) trivial .nil) fun _ => ?_
  refine .ite (fun _ => .pure fun _ _ => hframe (t := .currentTimestamp) trivial .nil) fun _ => ?_
  cases c.mode with
  | literal => exact .lift_bind fun l hl => ⟨l, hl, .pure fun bindings _ => hvalue bindings l⟩
  | parameterized => exact hplaceholder v

theorem follows_searchPattern (hmode : c'.mode = c.mode)
    (hvalue : ∀ bindings literal, R bindings (.value literal) (.value literal))
    (haround : ∀ {bindings t t'} (place : Placement), R bindings t t' →
      R bindings (place.around t) (place.around t'))
    (hconstant : ∀ v, Follows I (fun _ => True) R (c.constant v) (c'.constant v))
    {p p' : Part} (place : Placement) (hsource : p'.source = p.source)
    (hknown : p.source.referencesParameter = false)
    (hextract : Follows I (fun _ => True) (fun _ v v' => v = v') (c.extract p.source)
      (c'.extract p.source)) :
    Follows I (fun _ => True) R (c.searchPattern p place) (c'.searchPattern p' place) := by
  unfold searchPattern
  rw [hsource, hknown, hmode]
  refine .bind_eq hextract fun v _ => ?_
  refine .ite (fun _ => .throw_bind) fun _ => .lift_bind fun text htext => ⟨text, htext, ?_⟩
  cases c.mode with
  | literal => exact .lift_bind fun l hl => ⟨l, hl, .pure fun bindings _ => hvalue bindings l⟩
  | parameterized =>
    refine .bind (hconstant _) fun t t' _ => .pure ?_
    rintro bindings ⟨-, ht⟩
    exact haround place ht

end Alike

-- The second state has bound the same values behind others, and both caches
-- have been filled honestly.
structure Shifted (names : Naming) (registry : Registry) (shift : Nat) (s s' : State) : Prop where
  le : shift ≤ s'.bindings.length
  values : (s'.bindings.drop shift).map Binding.value = s.bindings.map Binding.value
  honest : Honest names registry s.cache
  honest' : Honest names registry s'.cache

theorem Shifted.length {s s' : State} (h : Shifted names registry shift s s') :
    s'.bindings.length = s.bindings.length + shift := by
  have hlength := congrArg List.length h.values
  simp only [List.length_map, List.length_drop] at hlength
  have hle := h.le
  omega

theorem Shifted.push {s s' : State} (h : Shifted names registry shift s s') (v : Value) :
    Shifted names registry shift (s.push v) (s'.push v) where
  le := by
    have hle := h.le
    simp only [State.push, List.length_append]
    omega
  values := by
    simp [State.push, List.drop_append_of_le_length h.le, h.values]
  honest := h.honest
  honest' := h.honest'

theorem follows_placeholder_moves (v : Value) :
    Follows (Shifted names registry shift) (fun _ => True)
      (fun bindings => Term.Moves shift table bindings.length) (placeholder v) (placeholder v) := by
  refine .placeholder v (fun _ _ hI => hI.push v) fun s s' bindings hI hlt => ?_
  rw [hI.length] at hlt ⊢
  exact .placeholder _ hlt

-- The second compiler is the first one, or the first one with joins that no
-- field of an entity is named like.
inductive Beside (c : Compiler) : Option Text → Compiler → Prop where
  | same : Beside c none c
  | joined (plan : Include.Plan) (hc : c.includes = none)
      (hapart : ∀ e ∈ c.registry.entities, ∀ f ∈ e.fields, ∀ n ∈ plan.nodes,
        Text.sameFolded n.path f.property = false) :
      Beside c (rootAlias? { c with includes := some plan }) { c with includes := some plan }

namespace Beside

variable {c c' : Compiler} (h : c.Beside table c')

include h

theorem registry_eq : c'.registry = c.registry := by cases h <;> rfl

theorem captures_eq : c'.captures = c.captures := by cases h <;> rfl

theorem options_eq : c'.options = c.options := by cases h <;> rfl

theorem mode_eq : c'.mode = c.mode := by cases h <;> rfl

theorem moves_rootColumn {name : Text} {t : Term} (ht : c.rootColumn name = .ok t) :
    ∃ t', c'.rootColumn name = .ok t' ∧ ∀ bound, t.Moves shift table bound t' := by
  have hcolumn := eq_of_column ht
  cases h with
  | same =>
    refine ⟨t, ht, fun bound => ?_⟩
    rw [hcolumn]
    cases c.rootAlias? with
    | none => exact .column name
    | some aliasName => exact .qualified aliasName name
  | joined plan hc hapart =>
    have hroot : c.rootAlias? = none := by rw [rootAlias?, hc]
    rw [hroot] at hcolumn
    refine ⟨.column (rootAlias? { c with includes := some plan }) name, ?_, fun bound => ?_⟩
    · unfold rootColumn column at ht ⊢
      split at ht
      · cases ht
      · rfl
    · rw [hcolumn]
      exact .column name

theorem moves_rootMember {entity : Entity} {source : Expr} {name : Text} {t : Term}
    (ht : c.rootMember entity source name = .ok t) :
    ∃ t', c'.rootMember entity source name = .ok t' ∧
      ∀ bound, t.Moves shift table bound t' := by
  unfold rootMember at ht ⊢
  split at ht
  · exact h.moves_rootColumn ht
  · split at ht
    · exact h.moves_rootColumn ht
    · cases ht

theorem moves_rowMember {p : Parameter} {source owner : Expr} {name : Text} {t : Term}
    (ht : c.rowMember p source owner name = .ok t) :
    ∃ t', c'.rowMember p source owner name = .ok t' ∧
      ∀ bound, t.Moves shift table bound t' := by
  cases h with
  | same =>
    refine ⟨t, ht, fun bound => ?_⟩
    obtain ⟨aliasName, column, rfl⟩ := exists_column_of_rowMember ht
    cases aliasName with
    | none => exact .column column
    | some aliasName => exact .qualified aliasName column
  | joined plan hc hapart =>
    have hbeside : c.Beside _ { c with includes := some plan } := .joined plan hc hapart
    obtain ⟨entity, hentity, ht⟩ := Result.bind_eq_ok.mp ht
    by_cases hroot : owner.memberPath.isEmpty = true
    · rw [if_pos hroot] at ht
      obtain ⟨t', ht', hmoves⟩ := hbeside.moves_rootMember ht
      exact ⟨t', Result.bind_eq_ok.mpr ⟨entity, hentity, by rw [if_pos hroot]; exact ht'⟩, hmoves⟩
    · rw [if_neg hroot, includedMember, included?, hc] at ht
      cases ht

end Beside

-- The fields of expressions.

theorem sameFolded_of_property? {e : Entity} {name : Text} {f : Field}
    (h : e.property? name = some f) : Text.sameFolded f.property name = true := by
  rw [Entity.property?, Option.or_eq_some_iff] at h
  rcases h with h | ⟨-, h⟩
  · have hname : f.property = name := by simpa using List.find?_some h
    rw [hname]
    simp [Text.sameFolded]
  · simpa using List.find?_some h

theorem sameFolded_of_find? {plan : Include.Plan} {path : Text} {n : Include.Node}
    (h : plan.find? path = some n) : n ∈ plan.nodes ∧ Text.sameFolded n.path path = true := by
  rw [Include.Plan.find?, Option.or_eq_some_iff] at h
  rcases h with h | ⟨-, h⟩
  · have hpath : n.path = path := by simpa using List.find?_some h
    rw [hpath]
    exact ⟨List.mem_of_find?_eq_some h, by simp [Text.sameFolded]⟩
  · exact ⟨List.mem_of_find?_eq_some h, by simpa using List.find?_some h⟩

theorem referencesParameter_of_rootParameter? {e : Expr} {p : Parameter}
    (h : e.rootParameter? = some p) : e.referencesParameter = true := by
  induction e using Expr.rootParameter?.induct with
  | case1 => rfl
  | case2 id owner name ih =>
    rw [Expr.referencesParameter]
    exact ih h
  | case3 e hparameter hmember =>
    rw [Expr.rootParameter?.eq_3 e hparameter hmember] at h
    cases h

-- Where no row is read, no field is.
theorem FieldsAgree.of_known {c c' : Compiler} {e : Expr} (h : e.referencesParameter = false) :
    FieldsAgree c c' e := by
  cases e with
  | member id owner name =>
    have hroot : owner.rootParameter? = none := by
      cases hroot : owner.rootParameter? with
      | none => rfl
      | some p =>
        rw [Expr.referencesParameter, referencesParameter_of_rootParameter? hroot] at h
        cases h
    show c'.field? _ = c.field? _
    rw [Compiler.field?, Compiler.field?, hroot]
    rfl
  | binary id op l r =>
    rw [Expr.referencesParameter, Bool.or_eq_false_iff] at h
    exact ⟨of_known h.1, of_known h.2⟩
  | conditional id test a b =>
    rw [Expr.referencesParameter, Bool.or_eq_false_iff, Bool.or_eq_false_iff] at h
    show FieldsAgree c c' a
    exact of_known h.1.2
  | _ => trivial
termination_by sizeOf e

namespace Beside

variable {c c' : Compiler} {plan : Include.Plan}

theorem field?_eq_of_isEmpty (h : c.Beside table c') {id : NodeId} {owner : Expr} {name : Text}
    (howner : owner.memberPath.isEmpty = true) :
    c'.field? (.member id owner name) = c.field? (.member id owner name) := by
  simp only [Compiler.field?, h.registry_eq, howner, if_true]

-- Without includes, only members of the root itself have a field.
theorem isEmpty_of_field? (hc : c.includes = none) {id : NodeId} {owner : Expr} {name : Text}
    {f : Field} (h : c.field? (.member id owner name) = some f) :
    owner.memberPath.isEmpty = true := by
  by_cases howner : owner.memberPath.isEmpty = true
  · exact howner
  · simp only [Compiler.field?, howner, included?, hc] at h
    obtain ⟨p, -, h⟩ := Option.bind_eq_some_iff.mp h
    split at h
    · cases h
    · obtain ⟨entity, -, h⟩ := Option.bind_eq_some_iff.mp h
      cases h

theorem field?_of_some (h : c.Beside table c') {e : Expr} {f : Field} (hf : c.field? e = some f) :
    c'.field? e = some f := by
  cases h with
  | same => exact hf
  | joined plan hc hapart =>
    have h : c.Beside _ { c with includes := some plan } := .joined plan hc hapart
    cases e with
    | member id owner name => rw [h.field?_eq_of_isEmpty (isEmpty_of_field? hc hf), hf]
    | _ => cases hf

theorem isLengthOf_eq (h : c.Beside table c') {owner : Expr} {name : Text}
    (howner : c.isLengthOf owner name = true ∨ owner.memberPath.isEmpty = true) :
    c'.isLengthOf owner name = c.isLengthOf owner name := by
  rcases howner with hlength | howner
  · have hlength' := hlength
    simp only [isLengthOf, Bool.and_eq_true] at hlength
    cases hfield : c.field? owner with
    | none =>
      rw [hfield] at hlength
      cases hlength.2
    | some f => rw [isLengthOf, isLengthOf, hfield, h.field?_of_some hfield]
  · have hnone (c : Compiler) : c.field? owner = none := by
      cases owner with
      | member id inner name => simp [Expr.memberPath] at howner
      | _ => rfl
    rw [isLengthOf, isLengthOf, hnone, hnone]

theorem isLengthOf_eq_of_rowMember (h : c.Beside table c') {p : Parameter} {source owner : Expr}
    {name : Text} {t : Term} (ht : c.rowMember p source owner name = .ok t) :
    c'.isLengthOf owner name = c.isLengthOf owner name := by
  cases h with
  | same => rfl
  | joined plan hc hapart =>
    have h : c.Beside _ { c with includes := some plan } := .joined plan hc hapart
    by_cases howner : owner.memberPath.isEmpty = true
    · exact h.isLengthOf_eq (.inr howner)
    · obtain ⟨entity, -, ht⟩ := Result.bind_eq_ok.mp ht
      rw [if_neg howner, includedMember, included?, hc] at ht
      cases ht

-- The path of a member of the root is its name, and no include is named so.
theorem included?_none (hapart : ∀ e ∈ c.registry.entities, ∀ f ∈ e.fields, ∀ n ∈ plan.nodes,
      Text.sameFolded n.path f.property = false) {e : Expr} {f : Field} (hc : c.includes = none)
    (hf : c.field? e = some f) : included? { c with includes := some plan } e = none := by
  cases e with
  | member id owner name =>
    have howner := isEmpty_of_field? hc hf
    have hpath : navigationPath (.member id owner name) = name := by
      rw [navigationPath, Expr.memberPath, List.isEmpty_iff.mp howner]
      rfl
    simp only [Compiler.field?, howner, if_true] at hf
    obtain ⟨p, -, hf⟩ := Option.bind_eq_some_iff.mp hf
    split at hf
    · cases hf
    obtain ⟨entity, hentity, hf⟩ := Option.bind_eq_some_iff.mp hf
    cases hfound : plan.find? name with
    | none => rw [included?, hpath]; exact hfound
    | some n =>
      obtain ⟨hn, hpath⟩ := sameFolded_of_find? hfound
      have hproperty := sameFolded_of_property? hf
      have hdiffers :=
        hapart entity (Registry.mem_of_find? hentity) f (Entity.mem_of_property? hf) n hn
      simp only [Text.sameFolded, beq_iff_eq, beq_eq_false_iff_ne] at hpath hproperty hdiffers
      exact absurd (hpath.trans hproperty.symm) hdiffers
  | _ => cases hf

-- A member that has been compiled is one of the root, or the length of one.
theorem field?_eq_of_term (h : c.Beside table c') {group : GroupColumns} {id : NodeId}
    {owner : Expr} {name : Text} {s u : State} {t : Term}
    (ht : Yields (c.term group (.member id owner name)) s t u) :
    c'.field? (.member id owner name) = c.field? (.member id owner name) := by
  cases h with
  | same => rfl
  | joined plan hc hapart =>
    have h : c.Beside _ { c with includes := some plan } := .joined plan hc hapart
    cases hroot : owner.rootParameter? with
    | none =>
      simp only [Compiler.field?, hroot]
      rfl
    | some p =>
      by_cases howner : owner.memberPath.isEmpty = true
      · exact h.field?_eq_of_isEmpty howner
      have hreferences : (Expr.member id owner name).referencesParameter = true := by
        rw [Expr.referencesParameter]
        exact referencesParameter_of_rootParameter? hroot
      rw [term, known, if_pos hreferences, Compiler.member, hroot] at ht
      by_cases hgroup : p.group = true
      · simp [Compiler.field?, hroot, hgroup]
      simp only [if_neg hgroup] at ht
      by_cases hlength : c.isLengthOf owner name = true
      · obtain ⟨f, hf⟩ : ∃ f, c.field? owner = some f := by
          cases hfield : c.field? owner with
          | none =>
            simp [isLengthOf, hfield] at hlength
          | some f => exact ⟨f, rfl⟩
        have hnone := included?_none hapart hc hf
        have hnone' : c.included? owner = none := by
          rw [included?, hc]
          rfl
        simp only [Compiler.field?, hnone, hnone']
      · rw [if_neg hlength] at ht
        obtain ⟨ht, -⟩ := Yields.lift_iff.mp ht
        obtain ⟨entity, -, ht⟩ := Result.bind_eq_ok.mp ht
        rw [if_neg howner, includedMember, included?, hc] at ht
        cases ht

theorem agrees (h : c.Beside table c') {group : GroupColumns} (e : Expr) {s u : State} {t : Term}
    (ht : Yields (c.term group e) s t u) : FieldsAgree c c' e := by
  by_cases hknown : e.referencesParameter = false
  · exact .of_known hknown
  have hreferences : e.referencesParameter = true := by simpa using hknown
  cases e with
  | member id owner name => exact h.field?_eq_of_term ht
  | binary id op l r =>
    rw [term, known, if_pos hreferences] at ht
    obtain ⟨_, _, hl, ht⟩ := Yields.bind_iff.mp ht
    obtain ⟨_, _, hr, -⟩ := Yields.bind_iff.mp ht
    exact ⟨h.agrees l hl, h.agrees r hr⟩
  | conditional id test a b =>
    rw [term, known, if_pos hreferences] at ht
    obtain ⟨_, _, -, ht⟩ := Yields.bind_iff.mp ht
    obtain ⟨_, _, ha, -⟩ := Yields.bind_iff.mp ht
    show FieldsAgree c c' a
    exact h.agrees a ha
  | _ => trivial
termination_by sizeOf e

-- Values.

theorem follows_constant (h : c.Beside table c') (v : Value) :
    Follows (Shifted names registry shift) (fun _ => True)
      (fun bindings => Term.Moves shift table bindings.length) (c.constant v) (c'.constant v) :=
  follows_constant_of_frame h.mode_eq (fun _ => by cases h <;> rfl) (fun _ l => .value l) .frame
    follows_placeholder_moves v

theorem follows_extract (h : c.Beside table c') {e : Expr} (he : names e.id = some e)
    {P : List Binding → Prop} :
    Follows (Shifted names c.registry shift) P (fun _ v v' => v = v') (c.extract e)
      (c'.extract e) :=
  follows_namedExtract h.registry_eq h.captures_eq (fun h => ⟨h.honest, h.honest'⟩)
    (fun h hcache hcache' => ⟨h.le, h.values, hcache, hcache'⟩) he

theorem follows_search (h : c.Beside table c') {p p' : Part} (place : Placement)
    (hsource : p'.source = p.source) (he : names p.source.id = some p.source)
    (hknown : p.source.referencesParameter = false) :
    Follows (Shifted names c.registry shift) (fun _ => True)
      (fun bindings => Term.Moves shift table bindings.length) (c.searchPattern p place)
      (c'.searchPattern p' place) := by
  refine follows_searchPattern h.mode_eq (fun _ l => .value l) ?_ h.follows_constant place hsource
    hknown (h.follows_extract he)
  intro bindings t t' place ht
  exact .frame (t := place.around t) trivial (.cons ht .nil)

theorem follows_member (h : c.Beside table c') {group : GroupColumns} {source owner : Expr}
    {name : Text} {p : Parameter} {x y : Step Term} (hroot : owner.rootParameter? = some p)
    (hxy : Follows (Shifted names registry shift) (fun _ => True)
      (fun bindings => Term.Moves shift table bindings.length) x y) :
    Follows (Shifted names registry shift) (fun _ => True)
      (fun bindings => Term.Moves shift table bindings.length)
      (c.member group source owner name x) (c'.member group source owner name y) := by
  unfold Compiler.member
  rw [hroot]
  refine .ite (fun _ => .lift fun t ht => ⟨t, ht, fun bindings _ => ?_⟩) fun _ => ?_
  · obtain ⟨column, -, rfl⟩ := exists_groupKey_of_groupMember ht
    exact .groupKey column
  by_cases hlength : c.isLengthOf owner name = true
  · rw [h.isLengthOf_eq (.inl hlength), if_pos hlength, if_pos hlength]
    refine .bind hxy fun t t' _ => .pure ?_
    rintro bindings ⟨-, ht⟩
    exact .frame (t := .apply .length t) trivial (.cons ht .nil)
  · rw [if_neg hlength]
    refine .of_yields fun ⟨_, t, _, ht⟩ => ?_
    obtain ⟨ht, -⟩ := Yields.lift_iff.mp ht
    rw [h.isLengthOf_eq_of_rowMember ht, if_neg hlength]
    refine .lift fun t ht => ?_
    obtain ⟨t', ht', hmoves⟩ := h.moves_rowMember ht
    exact ⟨t', ht', fun bindings _ => hmoves _⟩

end Beside

-- Every node of the expression has a name of its own.
def moving {c c' : Compiler} (h : c.Beside table c') (names : Naming) (shift : Nat)
    (group : GroupColumns) : c.Simulation c' group group where
  related := Shifted names c.registry shift
  alike bindings := Term.Moves shift table bindings.length
  admits n := names n.id = some n
  isNullWord h := h.isNullWord
  frame := .frame
  grouped := Simulation.grouped_self group
  ignoreCase := by rw [h.options_eq]
  constant := h.follows_constant
  extract _ he := h.follows_extract he
  member hroot _ := h.follows_member hroot
  search place _ _ he hsource hknown := h.follows_search place hsource he hknown
  agrees _ ht := h.agrees _ ht

end Compiler

end EntitySql.Sql
