import EntitySql.Proofs.Sql.Meaning
import EntitySql.Proofs.Sql.Terms
import EntitySql.Schema.Catalogue

-- Reading compiled conditions. The text of a condition over rows is read back
-- as the operator tree that the condition means exactly if the tree groups as
-- it is printed.

namespace EntitySql.Sql

namespace Compiler

variable {c : Compiler} {s s' : State}

-- Conditions over rows: columns of the root, what depends on no row, and the
-- operators that conditions are made of. A collection is a list of constants,
-- a known value or a text that is no array column.
inductive Condition (c : Compiler) : Expr → Prop
  | known {e : Expr} (h : e.isFolded = true) : Condition c e
  | column (id pid : NodeId) {p : Parameter} (name : Text) (h : p.group = false) :
    Condition c (.member id (.parameter pid p) name)
  | binary (id : NodeId) {op : BinaryOp} {k : Connective} {l r : Expr}
    (hop : op.connective? = some k) (hl : Condition c l) (hr : Condition c r) :
    Condition c (.binary id op l r)
  | not (id : NodeId) {e : Expr} (h : Condition c e) : Condition c (.not id e)
  | search (id : NodeId) {target pattern : Expr} {method : Text} {place : Placement}
    (hplace : placement? method = some place) (htarget : Condition c target)
    (hpattern : Condition c pattern) : Condition c (.call id target method [pattern])
  | contains (id : NodeId) {collection item : Expr} (hcollection : Condition c collection)
    (hfield : (c.field? collection).map Field.type ≠ some .array) (hitem : Condition c item) :
    Condition c (.call id collection "Contains" [item])
  | listContains (id aid : NodeId) {items : List Expr} {item : Expr}
    (hitems : ∀ e ∈ items, ∃ id v, e = .constant id v) (hitem : Condition c item) :
    Condition c (.call id (.array aid items) "Contains" [item])
  | staticContains (id : NodeId) {collection item : Expr} (hcollection : Condition c collection)
    (hfield : (c.field? collection).map Field.type ≠ some .array) (hitem : Condition c item) :
    Condition c (.staticCall id "Contains" [collection, item])
  | staticListContains (id aid : NodeId) {items : List Expr} {item : Expr}
    (hitems : ∀ e ∈ items, ∃ id v, e = .constant id v) (hitem : Condition c item) :
    Condition c (.staticCall id "Contains" [.array aid items, item])

-- The term prints the tree and is the word NULL exactly if the tree is.
structure Denotes (t : Term) (m : Tree Term) : Prop where
  prints : Prints t (m.map Term.tokens)
  isNullWord : t.isNullWord = m.isNullWord

theorem Denotes.operand {t : Term} (h : Scans t.text) : Denotes t (.operand t) :=
  ⟨Prints.operand h, rfl⟩

theorem yields_operand {x : Step Term} {t : Term} (h : Yields x s t s') :
    Yields (operand x) s (.operand t) s' := by
  unfold operand
  rw [Yields.bind_iff]
  exact ⟨t, s', h, Yields.pure_iff.mpr ⟨rfl, rfl⟩⟩

theorem scans_constant (hmode : c.mode = .literal) {v : Value} {t : Term}
    (h : Yields (c.constant v) s t s') : Scans t.text := by
  unfold constant at h
  simp only [Yields.ite_iff, Yields.pure_iff, hmode] at h
  rcases h with ⟨-, rfl, -⟩ | ⟨-, ⟨-, rfl, -⟩ | ⟨-, h⟩⟩
  · exact show Scans "NULL" from .of_all (by decide)
  · exact show Scans "NOW()" from .of_all (by decide)
  · obtain ⟨text, htext, hpure⟩ := Yields.lift_bind_iff.mp h
    obtain ⟨rfl, -⟩ := Yields.pure_iff.mp hpure
    exact scans_literal htext

theorem known_of_not_referencesParameter {e : Expr} (h : e.referencesParameter = false)
    {x : Step Term} {t : Term} (hknown : Yields (c.known e x) s t s') :
    ∃ v u, Yields (c.extract e) s v u ∧ Yields (c.constant v) u t s' := by
  unfold known at hknown
  rw [if_neg (by simp [h]), Yields.bind_iff] at hknown
  exact hknown

theorem yields_constant_of_isFolded {e : Expr} (h : e.isFolded = true) {group : GroupColumns}
    {t : Term} (ht : Yields (c.term group e) s t s') :
    ∃ v u, Yields (c.extract e) s v u ∧ Yields (c.constant v) u t s' := by
  cases e with
  | constant id v =>
    rw [term] at ht
    exact ⟨v, s, Yields.pure_iff.mpr ⟨rfl, rfl⟩, ht⟩
  | captured id name slot =>
    rw [term, Yields.bind_iff] at ht
    exact ht
  | parameter id p => cases h
  | lambda id p b => cases h
  | array id items => cases h
  | initializer id entity bindings => cases h
  | _ =>
    rw [term] at ht
    exact known_of_not_referencesParameter (by simpa [Expr.isFolded] using h) ht

theorem tree_of_isFolded {e : Expr} (h : e.isFolded = true) :
    c.tree e = operand (c.term none e) := by
  have href : e.referencesParameter = false := by
    cases e with
    | array id items => cases h
    | initializer id entity bindings => cases h
    | _ => simpa [Expr.isFolded] using h
  unfold tree
  split
  · rw [if_neg (by simp [href])]
  · rw [if_neg (by simpa [Expr.referencesParameter] using href)]
  · rw [if_neg (by simp [href])]
  · rw [if_neg (by simp [href])]
  · rfl

-- What is replaced by its value is an operand.
theorem exists_tree_of_isFolded (hmode : c.mode = .literal) {e : Expr} (h : e.isFolded = true)
    {t : Term} (ht : Yields (c.term none e) s t s') :
    ∃ m, Yields (c.tree e) s m s' ∧ Denotes t m := by
  obtain ⟨v, u, -, hconstant⟩ := yields_constant_of_isFolded h ht
  rw [tree_of_isFolded h]
  exact ⟨.operand t, yields_operand ht, .operand (scans_constant hmode hconstant)⟩

-- Columns.

theorem scans_rootMember {entity : Entity} {source : Expr} {name : Text} {t : Term}
    (h : c.rootMember entity source name = .ok t) : Scans t.text := by
  unfold rootMember at h
  split at h
  · rw [eq_of_column h]
    exact scans_columnText _ _
  · split at h
    · rw [eq_of_column h]
      exact scans_columnText _ _
    · cases h

theorem scans_column {id pid : NodeId} {p : Parameter} {name : Text} (hgroup : p.group = false)
    {t : Term} (ht : Yields (c.term none (.member id (.parameter pid p) name)) s t s') :
    Scans t.text := by
  rw [term] at ht
  simp only [known, Expr.referencesParameter, if_true, member, Expr.rootParameter?, hgroup,
    Bool.false_eq_true, if_false, isLengthOf, field?, Option.map_none, Option.getD_none,
    Bool.and_false] at ht
  obtain ⟨hmember, -⟩ := Yields.lift_iff.mp ht
  rw [rowMember, Result.bind_eq_ok] at hmember
  obtain ⟨entity, -, hmember⟩ := hmember
  simp only [Expr.memberPath, List.isEmpty_nil, if_true] at hmember
  exact scans_rootMember hmember

-- Every term of the expression prints the tree that the expression means.
def IsRead (c : Compiler) (e : Expr) : Prop :=
  ∀ s t s', Yields (c.term none e) s t s' → ∃ m, Yields (c.tree e) s m s' ∧ Denotes t m

theorem denotes_equality {l r : Term} {lm rm : Tree Term} (hl : Denotes l lm)
    (hr : Denotes r rm) (negated : Bool) :
    Denotes (equality negated l r)
      (.joined (if negated then .notEqual else .equal) lm rm) := by
  have htest : Connective.nullTest? (if negated then .notEqual else .equal) = some negated := by
    cases negated <;> rfl
  simp only [equality, Tree.joined, htest, hl.isNullWord, hr.isNullWord]
  by_cases hright : rm.isNullWord
  · rw [if_pos hright, if_pos hright]
    exact ⟨hl.prints.isNull negated, rfl⟩
  · rw [if_neg hright, if_neg hright]
    by_cases hleft : lm.isNullWord
    · rw [if_pos hleft, if_pos hleft]
      exact ⟨hr.prints.isNull negated, rfl⟩
    · rw [if_neg hleft, if_neg hleft]
      refine ⟨.operation ?_ ?_ hl.prints hr.prints, rfl⟩ <;> cases negated <;> rfl

-- An operator is compiled from the terms of its sides, from left to right.
theorem exists_of_yields_binary {op : BinaryOp} {k : Connective} (hop : op.connective? = some k)
    {left right : Part} {t : Term} (h : Yields (c.binary op left right) s t s') :
    ∃ l u r, Yields left.term s l u ∧ Yields right.term u r s' ∧
      ∀ lm rm, Denotes l lm → Denotes r rm → Denotes t (.joined k lm rm) := by
  unfold binary at h
  obtain ⟨l, u, hleft, h⟩ := Yields.bind_iff.mp h
  obtain ⟨r, u', hright, h⟩ := Yields.bind_iff.mp h
  cases op with
  | equal =>
    cases hop
    obtain ⟨rfl, rfl⟩ := Yields.pure_iff.mp h
    exact ⟨l, u, r, hleft, hright, fun lm rm hl hr => denotes_equality hl hr false⟩
  | notEqual =>
    cases hop
    obtain ⟨rfl, rfl⟩ := Yields.pure_iff.mp h
    exact ⟨l, u, r, hleft, hright, fun lm rm hl hr => denotes_equality hl hr true⟩
  | compare o =>
    cases hop
    obtain ⟨rfl, rfl⟩ := Yields.pure_iff.mp h
    have htext : Connective.text (.compare o) = Operator.text (.compare o) := by cases o <;> rfl
    exact ⟨l, u, r, hleft, hright, fun lm rm hl hr =>
      ⟨.operation htext rfl hl.prints hr.prints, rfl⟩⟩
  | and =>
    cases hop
    obtain ⟨rfl, rfl⟩ := Yields.pure_iff.mp h
    exact ⟨l, u, r, hleft, hright, fun lm rm hl hr =>
      ⟨.operation rfl rfl hl.prints hr.prints, rfl⟩⟩
  | or =>
    cases hop
    obtain ⟨rfl, rfl⟩ := Yields.pure_iff.mp h
    exact ⟨l, u, r, hleft, hright, fun lm rm hl hr =>
      ⟨.operation rfl rfl hl.prints hr.prints, rfl⟩⟩
  | arithmetic a => cases hop
  | coalesce => cases hop

theorem IsRead.known (hmode : c.mode = .literal) {e : Expr} (h : e.isFolded = true) : c.IsRead e :=
  fun _ _ _ ht => exists_tree_of_isFolded hmode h ht

theorem IsRead.column {id pid : NodeId} {p : Parameter} {name : Text} (hgroup : p.group = false) :
    c.IsRead (.member id (.parameter pid p) name) := by
  intro s t s' ht
  rw [tree]
  · exact ⟨.operand t, yields_operand ht, .operand (scans_column hgroup ht)⟩
  all_goals simp

theorem IsRead.binary (hmode : c.mode = .literal) {id : NodeId} {op : BinaryOp} {k : Connective}
    {l r : Expr} (hop : op.connective? = some k) (hl : c.IsRead l) (hr : c.IsRead r) :
    c.IsRead (.binary id op l r) := by
  intro s t s' ht
  by_cases href : (Expr.binary id op l r).referencesParameter
  · rw [term, Compiler.known, if_pos href] at ht
    obtain ⟨lt, u, rt, hleft, hright, hdenotes⟩ := exists_of_yields_binary hop ht
    obtain ⟨lm, hlm, hl⟩ := hl s lt u hleft
    obtain ⟨rm, hrm, hr⟩ := hr u rt s' hright
    refine ⟨.joined k lm rm, ?_, hdenotes lm rm hl hr⟩
    rw [tree, if_pos href, hop]
    simp only [Yields.bind_iff]
    exact ⟨lm, u, hlm, rm, s', hrm, Yields.pure_iff.mpr ⟨rfl, rfl⟩⟩
  · exact exists_tree_of_isFolded hmode (by simp [Expr.isFolded, href]) ht

theorem IsRead.not (hmode : c.mode = .literal) {id : NodeId} {e : Expr} (h : c.IsRead e) :
    c.IsRead (.not id e) := by
  intro s t s' ht
  by_cases href : e.referencesParameter
  · rw [term, Compiler.known, if_pos (by simpa [Expr.referencesParameter] using href),
      Yields.bind_iff] at ht
    obtain ⟨operand, u, hoperand, hpure⟩ := ht
    obtain ⟨rfl, rfl⟩ := Yields.pure_iff.mp hpure
    obtain ⟨m, hm, hdenotes⟩ := h s operand _ hoperand
    refine ⟨.not m, ?_, hdenotes.prints.not, rfl⟩
    rw [tree, if_pos href, Yields.bind_iff]
    exact ⟨m, _, hm, Yields.pure_iff.mpr ⟨rfl, rfl⟩⟩
  · exact exists_tree_of_isFolded hmode (by simpa [Expr.isFolded, Expr.referencesParameter] using href) ht

-- Tests of texts.

theorem map_around (wild : Term) (leading trailing : Bool) (m : Tree Term) :
    (m.around wild leading trailing).map Term.tokens =
      (m.map Term.tokens).around wild.tokens leading trailing := by
  cases leading <;> cases trailing <;> rfl

theorem scans_knownPattern (hmode : c.mode = .literal) {part : Part}
    (href : part.source.referencesParameter = false) {place : Placement} {p : Term}
    (h : Yields (c.searchPattern part place) s p s') : Scans p.text := by
  unfold searchPattern at h
  rw [if_neg (by simp [href])] at h
  obtain ⟨v, u, -, h⟩ := Yields.bind_iff.mp h
  simp only [hmode] at h
  obtain ⟨-, h⟩ := Yields.guard_iff.mp h
  obtain ⟨text, -, h⟩ := Yields.lift_bind_iff.mp h
  obtain ⟨quoted, hquoted, h⟩ := Yields.lift_bind_iff.mp h
  obtain ⟨rfl, -⟩ := Yields.pure_iff.mp h
  obtain ⟨escapes, hfeed⟩ := Scanner.feed_stringLiteral hquoted
  exact scans_quoted hfeed

theorem exists_patternTree (hmode : c.mode = .literal) {pattern : Expr}
    {elements : List (Step Term)} (hpattern : c.IsRead pattern) {place : Placement} {p : Term}
    (h : Yields (c.searchPattern ⟨pattern, c.term none pattern, elements⟩ place) s p s') :
    ∃ m, Yields (c.patternTree pattern (c.tree pattern) place) s m s' ∧
      Prints p (m.map Term.tokens) := by
  unfold patternTree
  by_cases href : pattern.referencesParameter
  · rw [if_pos href]
    unfold searchPattern at h
    rw [if_pos href] at h
    obtain ⟨q, u, hq, hpure⟩ := Yields.bind_iff.mp h
    obtain ⟨rfl, rfl⟩ := Yields.pure_iff.mp hpure
    obtain ⟨m, hm, hdenotes⟩ := hpattern s q _ hq
    refine ⟨m.around (.value wildcard) place.leading place.trailing, ?_, ?_⟩
    · exact Yields.bind_iff.mpr ⟨m, _, hm, Yields.pure_iff.mpr ⟨rfl, rfl⟩⟩
    · rw [map_around]
      exact hdenotes.prints.pattern _ _
  · rw [if_neg href]
    exact ⟨.operand p, yields_operand h, .operand (scans_knownPattern hmode (by simpa using href) h)⟩

theorem exists_searchTree (hmode : c.mode = .literal) {target pattern : Expr}
    {elements others : List (Step Term)} (htarget : c.IsRead target) (hpattern : c.IsRead pattern)
    {place : Placement} {t : Term}
    (h : Yields (c.like ⟨target, c.term none target, elements⟩
      ⟨pattern, c.term none pattern, others⟩ place) s t s') :
    ∃ m, Yields (c.searchTree (c.tree target) pattern (c.tree pattern) place) s m s' ∧
      Denotes t m := by
  unfold like at h
  obtain ⟨subject, u, hsubject, h⟩ := Yields.bind_iff.mp h
  obtain ⟨p, u', hp, h⟩ := Yields.bind_iff.mp h
  obtain ⟨rfl, rfl⟩ := Yields.pure_iff.mp h
  obtain ⟨m, hm, hdenotes⟩ := htarget s subject u hsubject
  obtain ⟨pm, hpm, hprints⟩ := exists_patternTree hmode hpattern hp
  refine ⟨.binary (.like c.options.ignoreCase) m pm, ?_, hdenotes.prints.like _ hprints, rfl⟩
  unfold searchTree
  simp only [Yields.bind_iff]
  exact ⟨m, u, hm, pm, _, hpm, Yields.pure_iff.mpr ⟨rfl, rfl⟩⟩

-- Membership in lists.

theorem scanAs_tokens {items : List Term} (h : ∀ item ∈ items, Scans item.text) :
    ScanAs (Term.texts items) (items.map Term.tokens) := by
  induction items with
  | nil => exact .nil
  | cons item rest ih =>
    obtain ⟨tokens, htokens, hoperand⟩ := h item (by simp)
    refine .cons ?_ (ih fun other hother => h other (List.mem_cons_of_mem item hother))
    simpa [Term.tokens, operandTokens, htokens] using hoperand

theorem denotes_membership {t : Term} {m : Tree Term} {items : List Term} (h : Denotes t m)
    (hitems : ∀ item ∈ items, Scans item.text) : Denotes (membership t items) (m.member items) := by
  unfold membership Tree.member
  cases items with
  | nil => exact .operand (show Scans "FALSE" from .of_all (by decide))
  | cons item rest => exact ⟨h.prints.isIn (scanAs_tokens hitems) (by simp), rfl⟩

theorem terms_eq_map (group : GroupColumns) (items : List Expr) :
    c.terms group items = items.map (c.term group) := by
  induction items with
  | nil => rfl
  | cons e rest ih => rw [terms, ih, List.map_cons]

theorem forall_scans_of_mapM (hmode : c.mode = .literal) {values : List Value} {items : List Term}
    (h : Yields (values.mapM c.constant) s items s') : ∀ item ∈ items, Scans item.text :=
  Yields.forall_of_mapM (fun _ _ _ _ _ hitem => scans_constant hmode hitem) h

theorem forall_scans_of_compileAll (hmode : c.mode = .literal) {elements : List Expr}
    (helements : ∀ e ∈ elements, ∃ id v, e = .constant id v) {items : List Term}
    (h : Yields (compileAll (c.terms none elements)) s items s') :
    ∀ item ∈ items, Scans item.text := by
  refine Yields.forall_of_mapM (fun x hx u item u' hitem => ?_) h
  rw [terms_eq_map] at hx
  obtain ⟨e, he, rfl⟩ := List.mem_map.mp hx
  obtain ⟨id, v, rfl⟩ := helements e he
  rw [id_eq, term] at hitem
  exact scans_constant hmode hitem

theorem exists_knownContainsTree (hmode : c.mode = .literal) {source collection item : Expr}
    {elements others : List (Step Term)} (hcollection : c.IsRead collection)
    (hitem : c.IsRead item) {t : Term}
    (h : Yields (c.containsKnown source ⟨collection, c.term none collection, elements⟩
      ⟨item, c.term none item, others⟩) s t s') :
    ∃ m, Yields (c.knownContainsTree collection item (c.tree collection) (c.tree item)) s m s' ∧
      Denotes t m := by
  unfold containsKnown at h
  obtain ⟨v, u, hv, h⟩ := Yields.bind_iff.mp h
  unfold knownContainsTree
  cases v with
  | string text =>
    obtain ⟨m, hm, hdenotes⟩ := exists_searchTree hmode hcollection hitem h
    exact ⟨m, Yields.bind_iff.mpr ⟨_, u, hv, hm⟩, hdenotes⟩
  | array values =>
    obtain ⟨it, u', hit, h⟩ := Yields.bind_iff.mp h
    obtain ⟨items, u'', hitems, h⟩ := Yields.bind_iff.mp h
    obtain ⟨rfl, rfl⟩ := Yields.pure_iff.mp h
    obtain ⟨m, hm, hdenotes⟩ := hitem u it u' hit
    refine ⟨m.member items, Yields.bind_iff.mpr ⟨_, u, hv, ?_⟩,
      denotes_membership hdenotes (forall_scans_of_mapM hmode hitems)⟩
    simp only [Yields.bind_iff]
    exact ⟨m, u', hm, items, _, hitems, Yields.pure_iff.mpr ⟨rfl, rfl⟩⟩
  | _ => exact absurd h Yields.throw_iff

theorem exists_containsTree (hmode : c.mode = .literal) {source collection item : Expr}
    {elements others : List (Step Term)} (hcollection : c.IsRead collection)
    (harray : ∀ id items, collection ≠ .array id items)
    (hfield : (c.field? collection).map Field.type ≠ some .array) (hitem : c.IsRead item)
    {t : Term}
    (h : Yields (c.contains source ⟨collection, c.term none collection, elements⟩
      ⟨item, c.term none item, others⟩) s t s') :
    ∃ m, Yields (c.containsTree collection item (c.tree collection) (c.tree item)) s m s' ∧
      Denotes t m := by
  unfold contains at h
  unfold containsTree
  by_cases href : collection.referencesParameter
  · rw [if_pos href] at h ⊢
    split at h
    · next hsome => exact absurd hsome hfield
    · exact exists_searchTree hmode hcollection hitem h
  · rw [if_neg href] at h ⊢
    cases collection with
    | array id items => exact absurd rfl (harray id items)
    | _ => exact exists_knownContainsTree hmode hcollection hitem h

theorem referencesParameter_array (id : NodeId) {items : List Expr}
    (h : ∀ e ∈ items, ∃ id v, e = .constant id v) :
    (Expr.array id items).referencesParameter = false := by
  rw [Expr.referencesParameter]
  induction items with
  | nil => rfl
  | cons e rest ih =>
    obtain ⟨_, v, rfl⟩ := h e (by simp)
    rw [Expr.anyReferencesParameter, ih fun d hd => h d (List.mem_cons_of_mem _ hd)]
    rfl

-- The elements of a list are compiled behind the item.
theorem exists_listContainsTree (hmode : c.mode = .literal) {source item : Expr} {aid : NodeId}
    {items : List Expr} {others : List (Step Term)}
    (hitems : ∀ e ∈ items, ∃ id v, e = .constant id v) (hitem : c.IsRead item) {t : Term}
    (h : Yields (c.contains source
      ⟨.array aid items, c.term none (.array aid items), c.elements none (.array aid items)⟩
      ⟨item, c.term none item, others⟩) s t s') :
    ∃ m, Yields (c.containsTree (.array aid items) item (c.tree (.array aid items)) (c.tree item))
      s m s' ∧ Denotes t m := by
  have href := referencesParameter_array aid hitems
  unfold contains at h
  unfold containsTree
  rw [if_neg (by simp [href])] at h ⊢
  obtain ⟨it, u, hit, h⟩ := Yields.bind_iff.mp h
  obtain ⟨terms, u', hterms, h⟩ := Yields.bind_iff.mp h
  obtain ⟨rfl, rfl⟩ := Yields.pure_iff.mp h
  obtain ⟨m, hm, hdenotes⟩ := hitem s it u hit
  rw [elements] at hterms
  refine ⟨m.member terms, ?_,
    denotes_membership hdenotes (forall_scans_of_compileAll hmode hitems hterms)⟩
  simp only [Yields.bind_iff]
  exact ⟨m, u, hm, terms, _, hterms, Yields.pure_iff.mpr ⟨rfl, rfl⟩⟩

-- A call that is not replaced by its value is compiled from its parts.
theorem IsRead.of_call (hmode : c.mode = .literal) {id : NodeId} {target : Expr} {method : Text}
    {args : List Expr}
    (h : (Expr.call id target method args).referencesParameter = true → ∀ s t s',
      Yields (c.call false (.call id target method args) method
        (some ⟨target, c.term none target, c.elements none target⟩) (c.parts none args)) s t s' →
      ∃ m, Yields (c.tree (.call id target method args)) s m s' ∧ Denotes t m) :
    c.IsRead (.call id target method args) := by
  intro s t s' ht
  by_cases href : (Expr.call id target method args).referencesParameter
  · rw [term, Compiler.known, if_pos href] at ht
    exact h href s t s' ht
  · exact exists_tree_of_isFolded hmode (by simp [Expr.isFolded, href]) ht

theorem IsRead.of_staticCall (hmode : c.mode = .literal) {id : NodeId} {method : Text}
    {args : List Expr}
    (h : (Expr.staticCall id method args).referencesParameter = true → ∀ s t s',
      Yields (c.call false (.staticCall id method args) method none (c.parts none args)) s t s' →
      ∃ m, Yields (c.tree (.staticCall id method args)) s m s' ∧ Denotes t m) :
    c.IsRead (.staticCall id method args) := by
  intro s t s' ht
  by_cases href : (Expr.staticCall id method args).referencesParameter
  · rw [term, Compiler.known, if_pos href] at ht
    exact h href s t s' ht
  · exact exists_tree_of_isFolded hmode (by simp [Expr.isFolded, href]) ht

theorem placement?_eq_some {method : Text} {place : Placement} (h : placement? method = some place) :
    (method = "StartsWith" ∧ place = .start) ∨ (method = "EndsWith" ∧ place = .finish) := by
  unfold placement? at h
  split at h
  · next hstart =>
    cases h
    exact .inl ⟨eq_of_beq hstart, rfl⟩
  · split at h
    · next hfinish =>
      cases h
      exact .inr ⟨eq_of_beq hfinish, rfl⟩
    · cases h

theorem yields_like_of_call {method : Text} {place : Placement} (h : placement? method = some place)
    {grouped : Bool} {group : GroupColumns} {source pattern : Expr} {target : Part} {t : Term}
    (ht : Yields (c.call grouped source method (some target) (c.parts group [pattern])) s t s') :
    Yields (c.like target ⟨pattern, c.term group pattern, c.elements group pattern⟩ place)
      s t s' := by
  have hmethod := placement?_eq_some h
  have haggregate : (method == "Count" || (aggregate? method).isSome) = false := by
    rcases hmethod with ⟨rfl, -⟩ | ⟨rfl, -⟩ <;> decide
  have hcontains : (method == "Contains") = false := by
    rcases hmethod with ⟨rfl, -⟩ | ⟨rfl, -⟩ <;> decide
  rw [call, haggregate, hcontains] at ht
  have htarget : Yields (c.targetCall source method target (c.parts group [pattern])) s t s' := ht
  unfold targetCall at htarget
  rcases hmethod with ⟨rfl, rfl⟩ | ⟨rfl, rfl⟩
  · rw [if_pos (beq_self_eq_true _)] at htarget
    obtain ⟨part, hpart, hlike⟩ := Yields.lift_bind_iff.mp htarget
    cases hpart
    exact hlike
  · rw [if_neg (by decide), if_pos (beq_self_eq_true _)] at htarget
    obtain ⟨part, hpart, hlike⟩ := Yields.lift_bind_iff.mp htarget
    cases hpart
    exact hlike

theorem IsRead.search (hmode : c.mode = .literal) {id : NodeId} {target pattern : Expr}
    {method : Text} {place : Placement} (hplace : placement? method = some place)
    (htarget : c.IsRead target) (hpattern : c.IsRead pattern) :
    c.IsRead (.call id target method [pattern]) := by
  refine .of_call hmode fun href s t s' h => ?_
  obtain ⟨m, hm, hdenotes⟩ :=
    exists_searchTree hmode htarget hpattern (yields_like_of_call hplace h)
  refine ⟨m, ?_, hdenotes⟩
  have hcontains : (method == "Contains") = false := by
    rcases placement?_eq_some hplace with ⟨rfl, -⟩ | ⟨rfl, -⟩ <;> decide
  rw [tree, if_pos href, hcontains, hplace]
  exact hm

-- A membership is no aggregate. It is compiled alike whether the collection is the
-- target of the call or its first argument.
theorem call_contains (grouped : Bool) (source : Expr) (target : Option Part) (args : List Part) :
    c.call grouped source "Contains" target args =
      c.containsCall source "Contains" target args := by
  have haggregate : (("Contains" : Text) == "Count" || (aggregate? "Contains").isSome) = false := by
    decide
  unfold call
  rw [haggregate]
  rfl

theorem IsRead.contains (hmode : c.mode = .literal) {id : NodeId} {collection item : Expr}
    (h : ∀ s t s', Yields (c.contains (.call id collection "Contains" [item])
        ⟨collection, c.term none collection, c.elements none collection⟩
        ⟨item, c.term none item, c.elements none item⟩) s t s' →
      ∃ m, Yields (c.containsTree collection item (c.tree collection) (c.tree item)) s m s' ∧
        Denotes t m) :
    c.IsRead (.call id collection "Contains" [item]) := by
  refine .of_call hmode fun href s t s' ht => ?_
  rw [call_contains] at ht
  obtain ⟨m, hm, hdenotes⟩ := h s t s' ht
  refine ⟨m, ?_, hdenotes⟩
  rw [tree, if_pos href]
  exact hm

theorem IsRead.staticContains (hmode : c.mode = .literal) {id : NodeId} {collection item : Expr}
    (h : ∀ s t s', Yields (c.contains (.staticCall id "Contains" [collection, item])
        ⟨collection, c.term none collection, c.elements none collection⟩
        ⟨item, c.term none item, c.elements none item⟩) s t s' →
      ∃ m, Yields (c.containsTree collection item (c.tree collection) (c.tree item)) s m s' ∧
        Denotes t m) :
    c.IsRead (.staticCall id "Contains" [collection, item]) := by
  refine .of_staticCall hmode fun href s t s' ht => ?_
  rw [call_contains] at ht
  obtain ⟨m, hm, hdenotes⟩ := h s t s' ht
  refine ⟨m, ?_, hdenotes⟩
  rw [tree, href]
  exact hm

theorem Condition.ne_array {e : Expr} (h : c.Condition e) (id : NodeId) (items : List Expr) :
    e ≠ .array id items := by
  rintro rfl
  cases h with
  | known h => cases h

theorem Condition.isRead (hmode : c.mode = .literal) {e : Expr} (h : c.Condition e) : c.IsRead e := by
  induction h with
  | known h => exact .known hmode h
  | column id pid name h => exact .column h
  | binary id hop _ _ hl hr => exact .binary hmode hop hl hr
  | not id _ h => exact .not hmode h
  | search id hplace _ _ htarget hpattern => exact .search hmode hplace htarget hpattern
  | contains id hcondition hfield _ hcollection hitem =>
    exact .contains hmode fun s t s' ht =>
      exists_containsTree hmode hcollection hcondition.ne_array hfield hitem ht
  | listContains id aid hitems _ hitem =>
    exact .contains hmode fun s t s' ht => exists_listContainsTree hmode hitems hitem ht
  | staticContains id hcondition hfield _ hcollection hitem =>
    exact .staticContains hmode fun s t s' ht =>
      exists_containsTree hmode hcollection hcondition.ne_array hfield hitem ht
  | staticListContains id aid hitems _ hitem =>
    exact .staticContains hmode fun s t s' ht => exists_listContainsTree hmode hitems hitem ht

-- The text of a condition is read as the tree that the condition means exactly
-- if no operand of the tree needs parentheses that are not written.
theorem parse?_text_iff (hmode : c.mode = .literal) {e : Expr} (h : c.Condition e) {t : Term}
    (ht : Yields (c.expression (some e)) s t s') :
    ∃ m, Yields (c.tree e) s m s' ∧
      ((parse? t.text).map Tree.bare = some (m.map Term.tokens) ↔
        (m.map Term.tokens).isGrouped = true) := by
  obtain ⟨m, hm, hdenotes⟩ := h.isRead hmode s t s' ht
  obtain ⟨⟨tokens, htokens, hsymbols⟩, hbare⟩ := hdenotes.prints
  refine ⟨m, hm, ?_⟩
  rw [← tree?_printed_iff hbare, parse?, htokens]
  simp [hsymbols]

-- NOT in front of a null test takes the whole test as its operand.

def sampleCompiler : Compiler :=
  { registry := Catalogue.registry, now := 0, captures := fun _ => .null }

def negationIsNull : Expr :=
  .binary 4 .equal (.not 2 (.member 1 (.parameter 0 ⟨"s", Catalogue.sample, false⟩) "OFlag"))
    (.constant 3 .null)

theorem parse?_text_ne_negationIsNull :
    ∃ t m, Yields (sampleCompiler.expression (some negationIsNull)) {} t {} ∧
      t.text = "NOT (\"o_flag\") IS NULL" ∧
      Yields (sampleCompiler.tree negationIsNull) {} m {} ∧
      (parse? t.text).map Tree.bare ≠ some (m.map Term.tokens) := by
  have hcondition : sampleCompiler.Condition negationIsNull :=
    .binary 4 rfl (.not 2 (.column 1 0 _ rfl)) (.known rfl)
  have hterm : Yields (sampleCompiler.expression (some negationIsNull)) {}
      (.isNull (.not (.column none "o_flag")) false) {} := by rfl
  have htree : Yields (sampleCompiler.tree negationIsNull) {}
      (.isNull false (.not (.operand (.column none "o_flag")))) {} := by rfl
  obtain ⟨m, hm, hread⟩ := parse?_text_iff rfl hcondition hterm
  obtain ⟨rfl, -⟩ := htree.unique hm
  refine ⟨_, _, hterm, by decide +kernel, htree, fun h => ?_⟩
  exact absurd (hread.mp h) (by decide +kernel)

end Compiler

end EntitySql.Sql
