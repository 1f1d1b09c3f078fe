import EntitySql.Proofs.Expr.Nodes
import EntitySql.Proofs.Sql.Following
import EntitySql.Proofs.Sql.Terms
import EntitySql.Sql.Compiler.Expression

-- Two compilers that agree on every expression as soon as they agree on
-- values, on references and on known search texts: what the first one compiles,
-- the second one compiles to a term of the same form with related parts.

namespace EntitySql.Sql

namespace Term

-- The same form around other operands.
def withOperands : Term → List Term → Term
  | .array _, items => .array items
  | .operation op _ _, [l, r] => .operation op l r
  | .isNull _ negated, [t] => .isNull t negated
  | .coalesce _ _, [l, r] => .coalesce l r
  | .not _, [t] => .not t
  | .negate _, [t] => .negate t
  | .cast _ type, [t] => .cast t type
  | .conditional _ _ _, [test, a, b] => .conditional test a b
  | .apply f _, [t] => .apply f t
  | .substring _ _, [t, start] => .substring t start
  | .substringFor _ _ _, [t, start, count] => .substringFor t start count
  | .extract part _, [t] => .extract part t
  | .addInterval _ amount unit, [t] => .addInterval t amount unit
  | .addIntervals _ _ unit, [t, amount] => .addIntervals t amount unit
  | .round _, [t] => .round t
  | .roundTo _ _, [t, digits] => .roundTo t digits
  | .countWhere _, [t] => .countWhere t
  | .aggregate f _, [t] => .aggregate f t
  | .isIn _ _, item :: items => .isIn item items
  | .isElement _ _, [item, items] => .isElement item items
  | .like ignoreCase _ _, [l, r] => .like ignoreCase l r
  | .pattern leading trailing _, [t] => .pattern leading trailing t
  | t, _ => t

-- Neither a value nor a name. An amount of time is written as a number.
def IsFrame : Term → Prop
  | .value _ => False
  | .placeholder _ => False
  | .column _ _ => False
  | .groupKey _ => False
  | .addInterval _ amount _ => Text.Plain amount
  | _ => True

theorem isNullWord_withOperands (t : Term) (operands : List Term) :
    (t.withOperands operands).isNullWord = t.isNullWord := by
  unfold withOperands
  split <;> rfl

end Term

namespace Compiler

-- Members of rows are columns.
theorem exists_column_of_rowMember {c : Compiler} {p : Parameter} {source owner : Expr}
    {name : Text} {t : Term} (h : c.rowMember p source owner name = .ok t) :
    ∃ table column, t = .column table column := by
  obtain ⟨entity, -, h⟩ := Result.bind_eq_ok.mp h
  split at h
  · unfold rootMember at h
    split at h
    · exact ⟨_, _, eq_of_column h⟩
    · split at h
      · exact ⟨_, _, eq_of_column h⟩
      · cases h
  · unfold includedMember at h
    split at h
    · cases h
    · split at h
      · cases h
      · exact ⟨_, _, eq_of_column h⟩

-- Whether the collection of a Contains is text.
def IsSearched (c : Compiler) (collection : Expr) : Prop :=
  if collection.referencesParameter then (c.field? collection).map Field.type ≠ some .array
  else ∃ s t u, Yields (c.extract collection) s (.string t) u

-- The calls that look for a text, and the expression for that text.
inductive Searches (c : Compiler) : Expr → Expr → Prop where
  | start {id target args pattern} (h : args[0]? = some pattern) :
      Searches c (.call id target "StartsWith" args) pattern
  | finish {id target args pattern} (h : args[0]? = some pattern) :
      Searches c (.call id target "EndsWith" args) pattern
  | contained {id collection item rest} (h : c.IsSearched collection) :
      Searches c (.call id collection "Contains" (item :: rest)) item
  | containedStatically {id collection item rest} (h : c.IsSearched collection) :
      Searches c (.staticCall id "Contains" (collection :: item :: rest)) item

-- The fields whose types decide how an expression is written.
def FieldsAgree (c c' : Compiler) : Expr → Prop
  | .member id owner name => c'.field? (.member id owner name) = c.field? (.member id owner name)
  | .binary _ _ l r => FieldsAgree c c' l ∧ FieldsAgree c c' r
  | .conditional _ _ ifTrue _ => FieldsAgree c c' ifTrue
  | _ => True

theorem FieldsAgree.field? {c c' : Compiler} {e : Expr} (h : FieldsAgree c c' e) :
    c'.field? e = c.field? e := by
  cases e <;> first | exact h | rfl

theorem FieldsAgree.isInteger {c c' : Compiler} {e : Expr} (h : FieldsAgree c c' e) :
    c'.isInteger e = c.isInteger e := by
  cases e with
  | member id owner name =>
    have hfield : c'.field? (.member id owner name) = c.field? (.member id owner name) := h
    rw [Compiler.isInteger, Compiler.isInteger, hfield]
  | binary id op l r =>
    rw [Compiler.isInteger, Compiler.isInteger, h.1.isInteger, h.2.isInteger]
  | _ => rfl
termination_by sizeOf e

theorem FieldsAgree.of_field? {c c' : Compiler} (h : ∀ e, c'.field? e = c.field? e) (e : Expr) :
    FieldsAgree c c' e := by
  cases e with
  | member id owner name => exact h _
  | binary id op l r => exact ⟨of_field? h l, of_field? h r⟩
  | conditional id test ifTrue ifFalse => exact of_field? h ifTrue
  | _ => trivial
termination_by sizeOf e

-- Compilers that read the same values do so from equal caches.
theorem follows_extract {c c' : Compiler} {I : State → State → Prop} {P : List Binding → Prop}
    (hread : ∀ e, c'.extract e = c.extract e) (hcache : ∀ {s s'}, I s s' → s.cache = s'.cache)
    (hset : ∀ {s s'} cache, I s s' → I { s with cache := cache } { s' with cache := cache })
    (e : Expr) : Follows I P (fun _ v v' => v = v') (c.extract e) (c'.extract e) := by
  have haccessor : Follows I P (fun _ v v' => v = v') (c.accessor e) (c.accessor e) := by
    intro s s' read u hI _ h
    unfold accessor at h ⊢
    rw [Yields.get_bind_iff, hcache hI] at h
    cases hfound : s'.cache with
    | none =>
      rw [hfound] at h
      obtain ⟨hread, rfl⟩ := Yields.lift_iff.mp h
      refine ⟨read, s', ?_, hI, List.prefix_rfl, fun _ _ => rfl⟩
      rw [Yields.get_bind_iff, hfound]
      exact Yields.lift_iff.mpr ⟨hread, rfl⟩
    | some cache =>
      rw [hfound] at h
      obtain ⟨hread, rfl⟩ := Yields.lift_iff.mp (Yields.modify_bind_iff.mp h)
      refine ⟨read, _, ?_, hset _ hI, List.prefix_rfl, fun _ _ => rfl⟩
      rw [Yields.get_bind_iff, hfound]
      exact Yields.modify_bind_iff.mpr (Yields.lift_iff.mpr ⟨hread, rfl⟩)
  have hvalue : Follows I P (fun _ v v' => v = v')
      (do
        let read ← c.accessor e
        read { captures := c.captures } : Step Value)
      (do
        let read ← c.accessor e
        read { captures := c.captures } : Step Value) :=
    .bind_eq haccessor fun read _ => .lift fun v hv => ⟨v, hv, fun _ _ => rfl⟩
  rw [hread]
  cases e with
  | constant id v => exact .pure fun _ _ => rfl
  | _ => exact hvalue

structure Simulation (c c' : Compiler) (group group' : GroupColumns) where
  related : State → State → Prop
  alike : List Binding → Term → Term → Prop
  admits : Expr → Prop
  isNullWord : ∀ {bindings t t'}, alike bindings t t' → t.isNullWord = t'.isNullWord
  frame : ∀ {bindings t operands}, t.IsFrame → List.Forall₂ (alike bindings) t.operands operands →
    alike bindings t (t.withOperands operands)
  grouped : group'.isSome = group.isSome
  ignoreCase : c'.options.ignoreCase = c.options.ignoreCase
  constant : ∀ v, Follows related (fun _ => True) alike (c.constant v) (c'.constant v)
  extract : ∀ e, admits e →
    Follows related (fun _ => True) (fun _ v v' => v = v') (c.extract e) (c'.extract e)
  member : ∀ {id owner name p x y}, owner.rootParameter? = some p →
    admits (.member id owner name) → Follows related (fun _ => True) alike x y →
    Follows related (fun _ => True) alike
      (c.member group (.member id owner name) owner name x)
      (c'.member group' (.member id owner name) owner name y)
  search : ∀ {node p p'} place, admits node → Searches c node p.source → admits p.source →
    p'.source = p.source → p.source.referencesParameter = false →
    Follows related (fun _ => True) alike (c.searchPattern p place) (c'.searchPattern p' place)
  agrees : ∀ {e s t u}, (∀ n ∈ e.nodes, admits n) → Yields (c.term group e) s t u →
    FieldsAgree c c' e

namespace Simulation

-- Both sides may compile with the same group columns.
theorem grouped_self (group : GroupColumns) : group.isSome = group.isSome := rfl

variable {c c' : Compiler} {group group' : GroupColumns} (S : Simulation c c' group group')
variable {P : List Binding → Prop}

abbrev Simulates (P : List Binding → Prop) (x y : Step Term) : Prop :=
  Follows S.related P S.alike x y

theorem frame₀ {bindings : List Binding} {t : Term} (ht : t.IsFrame) (h : t.operands = []) :
    S.alike bindings t (t.withOperands []) :=
  S.frame ht (by rw [h]; exact .nil)

theorem frame₁ {bindings : List Binding} {t a a' : Term} (ht : t.IsFrame) (h : t.operands = [a])
    (ha : S.alike bindings a a') : S.alike bindings t (t.withOperands [a']) :=
  S.frame ht (by rw [h]; exact .cons ha .nil)

theorem frame₂ {bindings : List Binding} {t a a' b b' : Term} (ht : t.IsFrame)
    (h : t.operands = [a, b]) (ha : S.alike bindings a a') (hb : S.alike bindings b b') :
    S.alike bindings t (t.withOperands [a', b']) :=
  S.frame ht (by rw [h]; exact .cons ha (.cons hb .nil))

theorem frame₃ {bindings : List Binding} {t a a' b b' d d' : Term} (ht : t.IsFrame)
    (h : t.operands = [a, b, d]) (ha : S.alike bindings a a') (hb : S.alike bindings b b')
    (hd : S.alike bindings d d') : S.alike bindings t (t.withOperands [a', b', d']) :=
  S.frame ht (by rw [h]; exact .cons ha (.cons hb (.cons hd .nil)))

-- Whether an expression looks like text.
theorem follows_isText {e : Expr} (hnodes : ∀ n ∈ e.nodes, S.admits n)
    (hagree : FieldsAgree c c' e) :
    Follows S.related P (fun _ a b => a = b) (c.isText e) (c'.isText e) := by
  cases e with
  | captured id name slot =>
    rw [isText, isText]
    exact .bind_eq (S.extract _ (hnodes _ (Expr.mem_nodes_self _))).within fun v _ =>
      .pure fun _ _ => rfl
  | member id owner name =>
    rw [isText, isText, hagree.field?]
    refine .ite (fun _ => .pure fun _ _ => rfl) fun _ => ?_
    exact .bind_eq (S.extract _ (hnodes _ (Expr.mem_nodes_self _))).within fun v _ =>
      .pure fun _ _ => rfl
  | binary id op l r =>
    have hl : ∀ n ∈ l.nodes, S.admits n := fun n hn => hnodes n (by simp [Expr.nodes, hn])
    have hr : ∀ n ∈ r.nodes, S.admits n := fun n hn => hnodes n (by simp [Expr.nodes, hn])
    rw [isText, isText]
    refine .ite (fun _ => ?_) fun _ => .pure fun _ _ => rfl
    refine .bind_eq (follows_isText hl hagree.1) fun found _ => ?_
    exact .ite (fun _ => .pure fun _ _ => rfl) fun _ => follows_isText hr hagree.2
  | conditional id test ifTrue ifFalse =>
    have htrue : ∀ n ∈ ifTrue.nodes, S.admits n := fun n hn => hnodes n (by simp [Expr.nodes, hn])
    rw [isText, isText]
    exact follows_isText htrue hagree
  | _ => exact .pure fun _ _ => rfl
termination_by sizeOf e

-- The same part of an expression for both compilers.
structure Parts (p p' : Part) : Prop where
  source : p'.source = p.source
  nodes : ∀ n ∈ p.source.nodes, S.admits n
  term : S.Simulates (fun _ => True) p.term p'.term
  elements : List.Forall₂ (S.Simulates fun _ => True) p.elements p'.elements
  agrees : ∀ {s t u}, Yields p.term s t u → FieldsAgree c c' p.source

variable {S}

theorem Parts.admits {p p' : Part} (h : S.Parts p p') : S.admits p.source :=
  h.nodes _ (Expr.mem_nodes_self _)

-- Only arrays have elements.
theorem Parts.withoutElements {e : Expr} {x y : Step Term} {xs ys : List (Step Term)}
    (h : S.Parts ⟨e, x, xs⟩ ⟨e, y, ys⟩) : S.Parts ⟨e, x, []⟩ ⟨e, y, []⟩ where
  source := rfl
  nodes := h.nodes
  term := h.term
  elements := .nil
  agrees := h.agrees

theorem Parts.extract {p p' : Part} (h : S.Parts p p') :
    Follows S.related P (fun _ v v' => v = v') (c.extract p.source) (c'.extract p'.source) := by
  rw [h.source]
  exact (S.extract _ h.admits).within

-- Searching.

theorem simulates_searchPattern {node : Expr} {p p' : Part} (h : S.Parts p p')
    (hnode : S.admits node) (hsearch : Searches c node p.source) (place : Placement) :
    S.Simulates P (c.searchPattern p place) (c'.searchPattern p' place) := by
  by_cases href : p.source.referencesParameter = true
  · unfold searchPattern
    rw [h.source, if_pos href, if_pos href]
    refine .bind h.term.within fun t t' _ => .pure ?_
    rintro bindings ⟨-, ht⟩
    exact S.frame₁ (t := place.around t) trivial rfl ht
  · exact (S.search place hnode hsearch h.admits h.source (by simpa using href)).within

theorem simulates_like {node : Expr} {target target' p p' : Part} (htarget : S.Parts target target')
    (h : S.Parts p p') (hnode : S.admits node) (hsearch : Searches c node p.source)
    (place : Placement) : S.Simulates P (c.like target p place) (c'.like target' p' place) := by
  unfold like
  rw [S.ignoreCase]
  refine .bind htarget.term.within fun t t' _ => ?_
  refine .bind (simulates_searchPattern h hnode hsearch place) fun q q' _ => .pure ?_
  rintro bindings ⟨⟨-, ht⟩, hq⟩
  exact S.frame₂ (t := .like _ t q) trivial rfl ht hq

theorem alike_membership {bindings : List Binding} {item item' : Term} {items items' : List Term}
    (hitem : S.alike bindings item item') (hitems : List.Forall₂ (S.alike bindings) items items') :
    S.alike bindings (membership item items) (membership item' items') := by
  cases hitems with
  | nil => exact S.frame₀ (t := .falsity) trivial rfl
  | @cons a a' rest rest' ha hrest =>
    exact S.frame (t := .isIn item (a :: rest)) trivial (.cons hitem (.cons ha hrest))

theorem simulates_containsKnown {node source : Expr} {collection collection' item item' : Part}
    (hcollection : S.Parts collection collection') (hitem : S.Parts item item')
    (hnode : S.admits node)
    (hsearch : (∃ s t u, Yields (c.extract collection.source) s (.string t) u) →
      Searches c node item.source) :
    S.Simulates P (c.containsKnown source collection item)
      (c'.containsKnown source collection' item') := by
  refine .bind_eq hcollection.extract fun v hv => ?_
  cases v with
  | string t =>
    obtain ⟨s, u, hv⟩ := hv
    exact simulates_like hcollection hitem hnode (hsearch ⟨s, t, u, hv⟩) .anywhere
  | array values =>
    refine .bind hitem.term.within fun t t' _ => ?_
    refine .bind (.mapM fun v _ => S.constant v) fun items items' _ => .pure ?_
    rintro bindings ⟨⟨-, ht⟩, hitems⟩
    exact alike_membership ht hitems
  | _ => exact .throw

theorem exists_yields_of_contains {source : Expr} {collection item : Part} {s u : State} {t : Term}
    (href : collection.source.referencesParameter = true)
    (h : Yields (c.contains source collection item) s t u) :
    ∃ s t u, Yields collection.term s t u := by
  unfold contains at h
  rw [if_pos href] at h
  split at h
  · obtain ⟨_, v, -, h⟩ := Yields.bind_iff.mp h
    obtain ⟨_, _, hterm, -⟩ := Yields.bind_iff.mp h
    exact ⟨_, _, _, hterm⟩
  · obtain ⟨_, _, hterm, -⟩ := Yields.bind_iff.mp h
    exact ⟨_, _, _, hterm⟩

theorem simulates_contains {node source : Expr} {collection collection' item item' : Part}
    (hcollection : S.Parts collection collection') (hitem : S.Parts item item')
    (hnode : S.admits node)
    (hsearch : c.IsSearched collection.source → Searches c node item.source) :
    S.Simulates P (c.contains source collection item) (c'.contains source collection' item') := by
  by_cases href : collection.source.referencesParameter = true
  · refine .of_yields fun ⟨_, _, _, hyields⟩ => ?_
    obtain ⟨_, _, _, hterm⟩ := exists_yields_of_contains href hyields
    unfold contains
    rw [hcollection.source, if_pos href, if_pos href, (hcollection.agrees hterm).field?]
    unfold IsSearched at hsearch
    rw [if_pos href] at hsearch
    split
    · refine .bind hitem.term.within fun t t' _ => ?_
      refine .bind hcollection.term.within fun items items' _ => .pure ?_
      rintro bindings ⟨⟨-, ht⟩, hitems⟩
      exact S.frame₂ (t := .isElement t items) trivial rfl ht hitems
    · next hfield => exact simulates_like hcollection hitem hnode (hsearch hfield) .anywhere
  · unfold contains
    rw [hcollection.source, if_neg href, if_neg href]
    unfold IsSearched at hsearch
    rw [if_neg href] at hsearch
    split
    · refine .bind hitem.term.within fun t t' _ => ?_
      refine .bind (.sequence hcollection.elements) fun items items' _ => .pure ?_
      rintro bindings ⟨⟨-, ht⟩, hitems⟩
      exact alike_membership ht hitems
    · exact simulates_containsKnown hcollection hitem hnode hsearch

-- Calls.

-- The nodes that call Contains on a collection and search for an item.
def Contains (c : Compiler) (node : Expr) (target : Option Expr) (args : List Expr) : Prop :=
  ∀ collection item, (target = some collection ∧ args.head? = some item) ∨
    (target = none ∧ ∃ rest, args = collection :: item :: rest) →
    c.IsSearched collection → Searches c node item

theorem simulates_containsCall {node source : Expr} (method : Text) {target target' : Option Part}
    {args args' : List Part} (htarget : Option.Rel S.Parts target target')
    (hargs : List.Forall₂ S.Parts args args') (hnode : S.admits node)
    (hsearch : Contains c node (target.map Part.source) (args.map Part.source)) :
    S.Simulates P (c.containsCall source method target args)
      (c'.containsCall source method target' args') := by
  cases htarget with
  | some hcollection =>
    cases hargs with
    | nil => exact .throw
    | cons hitem _ =>
      exact simulates_contains hcollection hitem hnode (hsearch _ _ (.inl ⟨rfl, rfl⟩))
  | none =>
    cases hargs with
    | nil => exact .throw
    | cons hcollection hrest =>
      cases hrest with
      | nil => exact .throw
      | cons hitem _ =>
        exact simulates_contains hcollection hitem hnode (hsearch _ _ (.inr ⟨rfl, _, rfl⟩))

theorem simulates_aggregateCall (grouped : Bool) (source : Expr) (method : Text)
    {args args' : List Part} (hargs : List.Forall₂ S.Parts args args') :
    S.Simulates P (aggregateCall grouped source method args)
      (aggregateCall grouped source method args') := by
  unfold aggregateCall
  refine .ite (fun _ => .throw) fun _ => ?_
  cases hargs with
  | nil =>
    cases aggregate? method with
    | none => exact .pure fun _ _ => S.frame₀ (t := .countRows) trivial rfl
    | some f => exact .throw
  | cons ha _ =>
    cases aggregate? method with
    | none =>
      refine .bind ha.term.within fun t t' _ => .pure ?_
      rintro bindings ⟨-, ht⟩
      exact S.frame₁ (t := .countWhere t) trivial rfl ht
    | some f =>
      refine .bind ha.term.within fun t t' _ => .pure ?_
      rintro bindings ⟨-, ht⟩
      exact S.frame₁ (t := .aggregate f t) trivial rfl ht

theorem plain_text_of_isNumeric {v : Value} (h : v.isNumeric = true) : Text.Plain v.text := by
  cases v with
  | int n => exact .of_numeral (.ofInt n.toInt)
  | double x => exact .seventeenDigits x
  | _ => cases h

theorem simulates_addInterval {source : Expr} {target target' : Term}
    (htarget : ∀ bindings, P bindings → S.alike bindings target target') {amount amount' : Part}
    (h : S.Parts amount amount') (unit : Eval.Interval) :
    S.Simulates P (c.addInterval source target amount unit)
      (c'.addInterval source target' amount' unit) := by
  unfold addInterval
  rw [h.source]
  refine .ite (fun _ => .bind h.term.within fun t t' _ => .pure ?_) fun _ => ?_
  · rintro bindings ⟨hP, ht⟩
    exact S.frame₂ (t := .addIntervals target t unit) trivial rfl (htarget bindings hP) ht
  · have hextract := h.extract (P := P)
    rw [h.source] at hextract
    refine .bind_eq hextract fun v _ => .ite (fun hnumeric => .pure ?_) fun _ => .throw
    intro bindings hP
    exact S.frame₁ (t := .addInterval target v.text unit) (plain_text_of_isNumeric hnumeric) rfl
      (htarget bindings hP)

theorem parts_getElem? {args args' : List Part} (h : List.Forall₂ S.Parts args args')
    (index : Nat) : Option.Rel S.Parts args[index]? args'[index]? := by
  induction h generalizing index with
  | nil => exact .none
  | cons ha _ ih =>
    cases index with
    | zero => exact .some ha
    | succ index => exact ih index

theorem simulates_argument {source : Expr} (method : Text) {args args' : List Part}
    (hargs : List.Forall₂ S.Parts args args') (index : Nat) {f g : Part → Step Term}
    (hf : ∀ p p', S.Parts p p' → args[index]? = some p → S.Simulates P (f p) (g p')) :
    S.Simulates P (do f (← argument source method args index))
      (do g (← argument source method args' index)) := by
  refine .lift_bind fun p hp => ?_
  have hrel := parts_getElem? hargs index
  unfold argument at hp ⊢
  cases hfound : args[index]? with
  | none =>
    rw [hfound] at hp
    cases hp
  | some q =>
    rw [hfound] at hp hrel
    cases hp
    cases hfound' : args'[index]? with
    | none =>
      rw [hfound'] at hrel
      cases hrel
    | some p' =>
      rw [hfound'] at hrel
      cases hrel with
      | some hparts => exact ⟨p', rfl, hf _ _ hparts hfound⟩

theorem simulates_equals {target target' : Term}
    (htarget : ∀ bindings, P bindings → S.alike bindings target target') {p p' : Part}
    (h : S.Parts p p') :
    S.Simulates P
      (do
        let other ← p.term
        if other.isNullWord then return .isNull target false
        else return .operation .equal target other)
      (do
        let other ← p'.term
        if other.isNullWord then return .isNull target' false
        else return .operation .equal target' other) := by
  refine .bind h.term.within fun t t' _ => .of_exists ?_
  rintro ⟨_, -, ht⟩
  rw [S.isNullWord ht]
  refine .ite (fun _ => .pure ?_) fun _ => .pure ?_
  · rintro bindings ⟨hP, -⟩
    exact S.frame₁ (t := .isNull target false) trivial rfl (htarget bindings hP)
  · rintro bindings ⟨hP, ht⟩
    exact S.frame₂ (t := .operation .equal target t) trivial rfl (htarget bindings hP) ht

theorem simulates_substring {source : Expr} {method : Text} {target target' : Term}
    (htarget : ∀ bindings, P bindings → S.alike bindings target target') {args args' : List Part}
    (hargs : List.Forall₂ S.Parts args args') :
    S.Simulates P
      (do
        let start ← (← argument source method args 0).term
        match args[1]? with
        | none => return .substring target start
        | some count => return .substringFor target start (← count.term))
      (do
        let start ← (← argument source method args' 0).term
        match args'[1]? with
        | none => return .substring target' start
        | some count => return .substringFor target' start (← count.term)) := by
  have hrel := parts_getElem? hargs 1
  refine simulates_argument method hargs 0 (f := fun p => do
      let start ← p.term
      match args[1]? with
      | none => return .substring target start
      | some count => return .substringFor target start (← count.term))
    (g := fun p => do
      let start ← p.term
      match args'[1]? with
      | none => return .substring target' start
      | some count => return .substringFor target' start (← count.term)) fun p p' h _ => ?_
  refine .bind h.term.within fun start start' _ => ?_
  generalize args[1]? = second, args'[1]? = second' at hrel
  cases hrel with
  | none =>
    refine .pure ?_
    rintro bindings ⟨hP, hstart⟩
    exact S.frame₂ (t := .substring target start) trivial rfl (htarget bindings hP) hstart
  | some hcount =>
    refine .bind hcount.term.within fun n n' _ => .pure ?_
    rintro bindings ⟨⟨hP, hstart⟩, hn⟩
    exact S.frame₃ (t := .substringFor target start n) trivial rfl (htarget bindings hP) hstart hn

theorem simulates_scalarCall {source : Expr} (method : Text) {target target' : Term}
    (htarget : ∀ bindings, P bindings → S.alike bindings target target') {args args' : List Part}
    (hargs : List.Forall₂ S.Parts args args') :
    S.Simulates P (c.scalarCall source method target args)
      (c'.scalarCall source method target' args') := by
  unfold scalarCall
  refine .ite (fun _ => ?_) fun _ => ?_
  · exact simulates_argument method hargs 0 fun p p' h _ => simulates_equals htarget h
  cases unaryFunction? method with
  | some f =>
    exact .pure fun bindings hP =>
      S.frame₁ (t := .apply f target) trivial rfl (htarget bindings hP)
  | none =>
    refine .ite (fun _ => simulates_substring htarget hargs) fun _ => ?_
    cases Eval.DatePart.ofMethod? method with
    | some part =>
      exact .pure fun bindings hP =>
        S.frame₁ (t := .extract part target) trivial rfl (htarget bindings hP)
    | none =>
      cases Eval.Interval.ofMethod? method with
      | some unit =>
        exact simulates_argument method hargs 0 fun p p' h _ =>
          simulates_addInterval htarget h unit
      | none =>
        refine .ite (fun _ => ?_) fun _ => .throw
        cases hargs with
        | nil =>
          exact .pure fun bindings hP =>
            S.frame₁ (t := .round target) trivial rfl (htarget bindings hP)
        | cons hdigits _ =>
          refine .bind hdigits.term.within fun digits digits' _ => .pure ?_
          rintro bindings ⟨hP, hdigits⟩
          exact S.frame₂ (t := .roundTo target digits) trivial rfl (htarget bindings hP) hdigits

theorem simulates_targetCall {node source : Expr} (method : Text) {target target' : Part}
    (htarget : S.Parts target target') {args args' : List Part}
    (hargs : List.Forall₂ S.Parts args args') (hnode : S.admits node)
    (hsearch : method = "StartsWith" ∨ method = "EndsWith" →
      ∀ p, args[0]? = some p → Searches c node p.source) :
    S.Simulates P (c.targetCall source method target args)
      (c'.targetCall source method target' args') := by
  unfold targetCall
  refine .ite (fun hstart => ?_) fun _ => .ite (fun hfinish => ?_) fun _ => ?_
  · exact simulates_argument method hargs 0 fun p p' h hp =>
      simulates_like htarget h hnode (hsearch (.inl (eq_of_beq hstart)) p hp) .start
  · exact simulates_argument method hargs 0 fun p p' h hp =>
      simulates_like htarget h hnode (hsearch (.inr (eq_of_beq hfinish)) p hp) .finish
  · refine .bind htarget.term.within fun t t' _ => ?_
    exact simulates_scalarCall method (fun _ h => h.2) hargs

theorem simulates_call (grouped : Bool) {node source : Expr} (method : Text)
    {target target' : Option Part} (htarget : Option.Rel S.Parts target target')
    {args args' : List Part} (hargs : List.Forall₂ S.Parts args args') (hnode : S.admits node)
    (hsearch : target.isSome → method = "StartsWith" ∨ method = "EndsWith" →
      ∀ p, args[0]? = some p → Searches c node p.source)
    (hcontains : method = "Contains" →
      Contains c node (target.map Part.source) (args.map Part.source)) :
    S.Simulates P (c.call grouped source method target args)
      (c'.call grouped source method target' args') := by
  unfold call
  refine .ite (fun _ => simulates_aggregateCall grouped source method hargs) fun _ =>
    .ite (fun hmethod => ?_) fun _ => ?_
  · exact simulates_containsCall method htarget hargs hnode (hcontains (eq_of_beq hmethod))
  · cases htarget with
    | none => exact .throw
    | some htarget => exact simulates_targetCall method htarget hargs hnode (hsearch rfl)

-- Operators.

theorem alike_equality {bindings : List Binding} (negated : Bool) {l l' r r' : Term}
    (hl : S.alike bindings l l') (hr : S.alike bindings r r') :
    S.alike bindings (equality negated l r) (equality negated l' r') := by
  unfold equality
  rw [S.isNullWord hl, S.isNullWord hr]
  by_cases hright : r'.isNullWord
  · rw [if_pos hright, if_pos hright]
    exact S.frame₁ (t := .isNull l negated) trivial rfl hl
  · rw [if_neg hright, if_neg hright]
    by_cases hleft : l'.isNullWord
    · rw [if_pos hleft, if_pos hleft]
      exact S.frame₁ (t := .isNull r negated) trivial rfl hr
    · rw [if_neg hleft, if_neg hleft]
      exact S.frame₂ (t := .operation _ l r) trivial rfl hl hr

theorem simulates_binary (op : BinaryOp) {left left' right right' : Part}
    (hleft : S.Parts left left') (hright : S.Parts right right') :
    S.Simulates P (c.binary op left right) (c'.binary op left' right') := by
  refine .bind hleft.term.within fun l l' ⟨_, _, hl⟩ => ?_
  refine .bind hright.term.within fun r r' ⟨_, _, hr⟩ => ?_
  have hoperation (operator : Operator) : S.Simulates
      (fun bindings => (P bindings ∧ S.alike bindings l l') ∧ S.alike bindings r r')
      (pure (.operation operator l r)) (pure (.operation operator l' r')) := by
    refine .pure ?_
    rintro bindings ⟨⟨-, hl⟩, hr⟩
    exact S.frame₂ (t := .operation operator l r) trivial rfl hl hr
  cases op with
  | coalesce =>
    refine .pure ?_
    rintro bindings ⟨⟨-, hl⟩, hr⟩
    exact S.frame₂ (t := .coalesce l r) trivial rfl hl hr
  | equal => exact .pure fun bindings ⟨⟨_, hl⟩, hr⟩ => alike_equality false hl hr
  | notEqual => exact .pure fun bindings ⟨⟨_, hl⟩, hr⟩ => alike_equality true hl hr
  | compare o => exact hoperation (.compare o)
  | and => exact hoperation .and
  | or => exact hoperation .or
  | arithmetic a =>
    cases a with
    | add =>
      have hleftText := S.follows_isText (P := fun bindings =>
        (P bindings ∧ S.alike bindings l l') ∧ S.alike bindings r r') hleft.nodes (hleft.agrees hl)
      have hrightText := S.follows_isText (P := fun bindings =>
        (P bindings ∧ S.alike bindings l l') ∧ S.alike bindings r r') hright.nodes
        (hright.agrees hr)
      dsimp only
      rw [hleft.source, hright.source]
      refine .bind_eq hleftText fun _ _ => .ite (fun _ => hoperation _) fun _ => ?_
      exact .bind_eq hrightText fun _ _ => .ite (fun _ => hoperation _) fun _ => hoperation _
    | _ => exact hoperation _

theorem simulates_conversion {operand operand' : Part} (h : S.Parts operand operand')
    (type : Option FieldType) :
    S.Simulates P (c.conversion operand type) (c'.conversion operand' type) := by
  refine .bind h.term.within fun t t' ⟨_, _, ht⟩ => ?_
  have hagree := h.agrees ht
  have hkeep : S.Simulates (fun bindings => P bindings ∧ S.alike bindings t t') (pure t) (pure t') :=
    .pure fun bindings h => h.2
  have hcast (cast : CastType) : S.Simulates (fun bindings => P bindings ∧ S.alike bindings t t')
      (pure (.cast t cast)) (pure (.cast t' cast)) := by
    refine .pure ?_
    rintro bindings ⟨-, ht⟩
    exact S.frame₁ (t := .cast t cast) trivial rfl ht
  rw [h.source, hagree.isInteger]
  split
  · exact .ite (fun _ => hcast _) fun _ => hkeep
  · exact .bind_eq (S.follows_isText h.nodes hagree) fun _ _ =>
      .ite (fun _ => hkeep) fun _ => hcast _
  · exact hkeep

-- Expressions.

theorem simulates_known {e : Expr} (he : S.admits e) {x y : Step Term} (h : S.Simulates P x y) :
    S.Simulates P (c.known e x) (c'.known e y) :=
  .ite (fun _ => h) fun _ =>
    .bind_eq (S.extract e he).within fun v _ => (S.constant v).within

theorem simulates_member {id : NodeId} {owner : Expr} {name : Text}
    (hself : S.admits (.member id owner name)) {x y : Step Term}
    (h : S.Simulates (fun _ => True) x y) :
    S.Simulates P (c.member group (.member id owner name) owner name x)
      (c'.member group' (.member id owner name) owner name y) := by
  cases hroot : owner.rootParameter? with
  | some p => exact (S.member hroot hself h).within
  | none =>
    unfold Compiler.member
    rw [hroot]
    refine .ite (fun _ => ?_) fun _ => .throw
    refine .bind h.within fun t t' _ => .pure ?_
    rintro bindings ⟨-, ht⟩
    exact S.frame₁ (t := .apply .length t) trivial rfl ht

theorem source_parts (c : Compiler) (group : GroupColumns) (args : List Expr) :
    (c.parts group args).map Part.source = args := by
  induction args with
  | nil => rfl
  | cons e rest ih => rw [parts, List.map_cons, ih]

theorem exists_source_of_getElem? {args : List Expr} {p : Part} {index : Nat}
    (h : (c.parts group args)[index]? = some p) : args[index]? = some p.source := by
  rw [← source_parts c group args, List.getElem?_map, h]
  rfl

variable (S)

mutual

-- By the recursion of the compiler.
theorem simulates_term (e : Expr) (he : ∀ n ∈ e.nodes, S.admits n) :
    S.Simulates (fun _ => True) (c.term group e) (c'.term group' e) := by
  have hself := he e (Expr.mem_nodes_self e)
  cases e with
  | constant id v =>
    rw [term, term]
    exact S.constant v
  | parameter id p =>
    rw [term]
    exact .throw
  | lambda id p body =>
    rw [term, term]
    exact simulates_term body fun n hn => he n (by simp [Expr.nodes, hn])
  | initializer id entity bindings =>
    rw [term]
    exact .throw
  | array id items =>
    have hitems := simulates_terms items fun n hn => he n (by simp [Expr.nodes, hn])
    rw [term, term]
    refine .bind (.sequence hitems) fun terms terms' _ => .pure ?_
    rintro bindings ⟨-, hterms⟩
    exact S.frame (t := .array terms) trivial hterms
  | captured id name slot =>
    rw [term, term]
    exact .bind_eq (S.extract _ hself) fun v _ => (S.constant v).within
  | member id owner name =>
    rw [term, term]
    have howner := simulates_term owner fun n hn => he n (by simp [Expr.nodes, hn])
    exact simulates_known hself (simulates_member hself howner)
  | binary id op l r =>
    rw [term, term]
    have hl := simulates_part l fun n hn => he n (by simp [Expr.nodes, hn])
    have hr := simulates_part r fun n hn => he n (by simp [Expr.nodes, hn])
    exact simulates_known hself (simulates_binary op hl.withoutElements hr.withoutElements)
  | not id e =>
    rw [term, term]
    have hoperand := simulates_term e fun n hn => he n (by simp [Expr.nodes, hn])
    refine simulates_known hself (.bind hoperand fun t t' _ => .pure ?_)
    rintro bindings ⟨-, ht⟩
    exact S.frame₁ (t := .not t) trivial rfl ht
  | negate id e =>
    rw [term, term]
    have hoperand := simulates_term e fun n hn => he n (by simp [Expr.nodes, hn])
    refine simulates_known hself (.bind hoperand fun t t' _ => .pure ?_)
    rintro bindings ⟨-, ht⟩
    exact S.frame₁ (t := .negate t) trivial rfl ht
  | convert id e type =>
    rw [term, term]
    have hoperand := simulates_part e fun n hn => he n (by simp [Expr.nodes, hn])
    exact simulates_known hself (simulates_conversion hoperand.withoutElements type)
  | conditional id test a b =>
    rw [term, term]
    have htest := simulates_term test fun n hn => he n (by simp [Expr.nodes, hn])
    have ha := simulates_term a fun n hn => he n (by simp [Expr.nodes, hn])
    have hb := simulates_term b fun n hn => he n (by simp [Expr.nodes, hn])
    refine simulates_known hself (.bind htest fun test test' _ => ?_)
    refine .bind ha.within fun a a' _ => .bind hb.within fun b b' _ => .pure ?_
    rintro bindings ⟨⟨⟨-, htest⟩, ha⟩, hb⟩
    exact S.frame₃ (t := .conditional test a b) trivial rfl htest ha hb
  | call id target method args =>
    rw [term, term]
    have htarget := simulates_part target fun n hn => he n (by simp [Expr.nodes, hn])
    have hargs := simulates_parts args fun n hn => he n (by simp [Expr.nodes, hn])
    rw [S.grouped]
    refine simulates_known hself (simulates_call _ method (.some htarget) hargs hself ?_ ?_)
    · rintro - (rfl | rfl) p hp
      · exact .start (exists_source_of_getElem? hp)
      · exact .finish (exists_source_of_getElem? hp)
    · rintro rfl collection item (⟨hcollection, hitem⟩ | ⟨hnone, -⟩) hsearched
      · obtain rfl : target = collection := Option.some.inj hcollection
        rw [source_parts] at hitem
        obtain ⟨rest, rfl⟩ := List.head?_eq_some_iff.mp hitem
        exact .contained hsearched
      · cases hnone
  | staticCall id method args =>
    rw [term, term]
    have hargs := simulates_parts args fun n hn => he n (by simp [Expr.nodes, hn])
    rw [S.grouped]
    refine simulates_known hself (simulates_call _ method .none hargs hself ?_ ?_)
    · intro hnone
      cases hnone
    · rintro rfl collection item (⟨hnone, -⟩ | ⟨-, rest, hrest⟩) hsearched
      · cases hnone
      · rw [source_parts] at hrest
        subst hrest
        exact .containedStatically hsearched
termination_by (sizeOf e, 0)

theorem simulates_elements (e : Expr) (he : ∀ n ∈ e.nodes, S.admits n) :
    List.Forall₂ (S.Simulates fun _ => True) (c.elements group e) (c'.elements group' e) := by
  cases e with
  | array id items =>
    rw [elements, elements]
    exact simulates_terms items fun n hn => he n (by simp [Expr.nodes, hn])
  | _ => exact .nil
termination_by (sizeOf e, 0)

theorem simulates_part (e : Expr) (he : ∀ n ∈ e.nodes, S.admits n) :
    S.Parts ⟨e, c.term group e, c.elements group e⟩ ⟨e, c'.term group' e, c'.elements group' e⟩ :=
  have hterm := simulates_term e he
  have helements := simulates_elements e he
  { source := rfl, nodes := he, term := hterm, elements := helements,
    agrees := S.agrees he }
termination_by (sizeOf e, 1)

theorem simulates_terms (items : List Expr) (h : ∀ n ∈ Expr.nodesOf items, S.admits n) :
    List.Forall₂ (S.Simulates fun _ => True) (c.terms group items) (c'.terms group' items) := by
  cases items with
  | nil => exact .nil
  | cons e rest =>
    rw [terms, terms]
    exact .cons (simulates_term e fun n hn => h n (by simp [Expr.nodesOf, hn]))
      (simulates_terms rest fun n hn => h n (by simp [Expr.nodesOf, hn]))
termination_by (sizeOf items, 0)

theorem simulates_parts (args : List Expr) (h : ∀ n ∈ Expr.nodesOf args, S.admits n) :
    List.Forall₂ S.Parts (c.parts group args) (c'.parts group' args) := by
  cases args with
  | nil => exact .nil
  | cons e rest =>
    rw [parts, parts]
    exact .cons (simulates_part e fun n hn => h n (by simp [Expr.nodesOf, hn]))
      (simulates_parts rest fun n hn => h n (by simp [Expr.nodesOf, hn]))
termination_by (sizeOf args, 0)

end

end Simulation

end Compiler

end EntitySql.Sql
