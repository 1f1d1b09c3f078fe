import EntitySql.Proofs.Expr.Nodes
import EntitySql.Proofs.Run
import EntitySql.Proofs.Sql.Terms
import EntitySql.Sql.Compiler.Expression

-- Books that are kept on what compiling binds and on the placeholders that it
-- names. Whoever can book the leaves of expressions can book all expressions,
-- from left to right.

namespace EntitySql

-- Tests whether a list has an item.
def Expr.isMembership : Expr → Bool
  | .call _ _ method _ => method == "Contains"
  | .staticCall _ method _ => method == "Contains"
  | _ => false

namespace Sql

theorem Term.placeholders_of_isNullWord {t : Term} (h : t.isNullWord = true) : t.placeholders = [] := by
  cases t with
  | null => exact placeholders_of_not_mem (by decide)
  | groupKey sql =>
    rw [placeholders, text, eq_of_beq h]
    exact placeholders_of_not_mem (by decide)
  | _ => cases h

namespace Compiler

theorem not_mem_text_of_isNumeric {v : Value} (h : v.isNumeric = true) : atSign ∉ v.text := by
  cases v with
  | int n => exact (Text.Plain.of_numeral (.ofInt n.toInt)).not_mem rfl
  | double x => exact (Text.Plain.seventeenDigits x).not_mem rfl
  | _ => cases h

theorem yields_placeholder (v : Value) (s : State) :
    Yields (placeholder v) s (.placeholder s.bindings.length) (s.push v) := rfl

-- Accessors are kept in the cache; what is bound stays.
theorem bindings_of_accessor {c : Compiler} {e : Expr} {s u : State} {a : Accessor}
    (h : Yields (c.accessor e) s a u) : u.bindings = s.bindings := by
  unfold accessor at h
  rw [Yields.get_bind_iff] at h
  cases hcache : s.cache with
  | none =>
    rw [hcache] at h
    obtain ⟨-, rfl⟩ := Yields.lift_iff.mp h
    rfl
  | some cache =>
    rw [hcache] at h
    obtain ⟨-, rfl⟩ := Yields.lift_iff.mp (Yields.modify_bind_iff.mp h)
    rfl

theorem mem_of_argument {source : Expr} {method : Text} {args : List Part} {index : Nat} {p : Part}
    (h : argument source method args index = .ok p) : p ∈ args := by
  unfold argument at h
  split at h
  · next part hpart =>
    cases h
    exact List.mem_of_getElem? hpart
  · cases h

-- Evaluating binds nothing and columns name nothing new. A membership test
-- that no item passes may name nothing at all.
structure Ledger (c : Compiler) (group : GroupColumns) (admits : Expr → Prop) where
  books : State → State → List Text → Prop
  refl (s : State) : books s s []
  trans {s t u : State} {names others : List Text} :
    books s t names → books t u others → books s u (names ++ others)
  push (s : State) (v : Value) : books s (s.push v) [parameterName s.bindings.length]
  accessor {e : Expr} {s u : State} {a : Accessor} :
    admits e → Yields (c.accessor e) s a u → books s u []
  groupMember {source owner : Expr} {name : Text} {t : Term} (s : State) :
    groupMember group source owner name = .ok t → books s s t.placeholders
  rowMember {p : Parameter} {source owner : Expr} {name : Text} {t : Term} (s : State) :
    c.rowMember p source owner name = .ok t → books s s t.placeholders
  emptied {e : Expr} {s u : State} {names : List Text} : admits e → e.isMembership = true →
    Yields (c.term group e) s .falsity u → books s u names → books s u []

namespace Ledger

variable {α β : Type} {c : Compiler} {group : GroupColumns} {admits : Expr → Prop}

-- Behind what has been booked, the step is booked up to its result.
def Tracks (L : Ledger c group admits) (pre : List Text) (x : Step α) (names : α → List Text) : Prop :=
  ∀ before s a u, L.books before s pre → Yields x s a u → L.books before u (names a)

variable {L : Ledger c group admits}

namespace Tracks

variable {pre : List Text} {x : Step α} {names : α → List Text} {others : β → List Text}

theorem booked (h : L.Tracks [] x names) {s u : State} {a : α} (ha : Yields x s a u) :
    L.books s u (names a) := h _ s a u (L.refl s) ha

-- It is enough to look at the step alone.
theorem of_books (h : ∀ s a u, Yields x s a u → L.books s u (names a)) :
    L.Tracks pre x fun a => pre ++ names a :=
  fun _ s a u hbefore ha => L.trans hbefore (h s a u ha)

theorem behind (h : L.Tracks [] x names) (pre : List Text) : L.Tracks pre x fun a => pre ++ names a :=
  of_books fun _ _ _ ha => h.booked ha

-- A step that names nothing.
theorem silent (h : L.Tracks [] x fun _ => []) (pre : List Text) : L.Tracks pre x fun _ => pre := by
  have hbehind := h.behind pre
  rwa [List.append_nil] at hbehind

protected theorem pure {a : α} (h : names a = pre) : L.Tracks pre (pure a) names := by
  intro before s b u hbefore hb
  obtain ⟨rfl, rfl⟩ := Yields.pure_iff.mp hb
  rwa [h]

protected theorem bind {f : α → Step β} (hx : L.Tracks pre x names)
    (hf : ∀ a, L.Tracks (names a) (f a) others) : L.Tracks pre (x >>= f) others := by
  intro before s b u hbefore hb
  obtain ⟨a, t, ha, hb⟩ := Yields.bind_iff.mp hb
  exact hf a before t b u (hx before s a t hbefore ha) hb

theorem lift {r : Result α} (h : ∀ s a, r = .ok a → L.books s s (names a)) :
    L.Tracks [] (liftM r) names := by
  intro before s a u hbefore ha
  obtain ⟨hr, rfl⟩ := Yields.lift_iff.mp ha
  exact L.trans hbefore (h u a hr)

-- What a computation without a state has to say is known behind it.
theorem lift_bind {r : Result α} {f : α → Step β}
    (hf : ∀ a, r = .ok a → L.Tracks pre (f a) others) :
    L.Tracks pre ((liftM r : Step α) >>= f) others := by
  intro before s b u hbefore hb
  obtain ⟨a, hr, hb⟩ := Yields.lift_bind_iff.mp hb
  exact hf a hr before s b u hbefore hb

protected theorem throw {e : Error} : L.Tracks pre (throw e : Step α) names :=
  fun _ _ _ _ _ h => absurd h Yields.throw_iff

theorem throw_bind {e : Error} {f : α → Step β} :
    L.Tracks pre ((throw e : Step α) >>= f) others := by
  intro before s b u hbefore hb
  obtain ⟨a, t, ha, -⟩ := Yields.bind_iff.mp hb
  exact absurd ha Yields.throw_iff

protected theorem ite {p : Prop} [Decidable p] {y : Step α} (hx : p → L.Tracks pre x names)
    (hy : ¬p → L.Tracks pre y names) : L.Tracks pre (if p then x else y) names := by
  by_cases h : p
  · rw [if_pos h]
    exact hx h
  · rw [if_neg h]
    exact hy h

protected theorem mapM {f : β → Step α} {items : List β}
    (h : ∀ b ∈ items, L.Tracks [] (f b) names) :
    L.Tracks [] (items.mapM f) fun results => results.flatMap names := by
  induction items with
  | nil => exact .pure rfl
  | cons b rest ih =>
    rw [List.mapM_cons]
    refine .bind (h b (by simp)) fun a => ?_
    refine .bind ((ih fun d hd => h d (List.mem_cons_of_mem b hd)).behind _) fun results => ?_
    exact .pure (by simp)

-- A term of terms that have been compiled, from left to right.
theorem compound {t : Term} (ht : t.isCompound = true) (h : t.operands.flatMap Term.placeholders = pre) :
    L.Tracks pre (Pure.pure t) Term.placeholders :=
  .pure (by rwa [Term.placeholders_of_isCompound ht])

end Tracks

-- Values.

theorem tracks_placeholder (v : Value) : L.Tracks [] (placeholder v) Term.placeholders := by
  intro before s t u hbefore h
  obtain ⟨rfl, rfl⟩ := h.unique (yields_placeholder v s)
  rw [Term.placeholders, Term.text, placeholders_parameterName]
  exact L.trans hbefore (L.push s v)

theorem tracks_constant (hmode : c.mode = .parameterized) (v : Value) :
    L.Tracks [] (c.constant v) Term.placeholders := by
  unfold constant
  simp only [hmode]
  exact .ite (fun _ => .compound rfl rfl) fun _ =>
    .ite (fun _ => .compound rfl rfl) fun _ => tracks_placeholder v

theorem tracks_extract {e : Expr} (he : admits e) (pre : List Text) :
    L.Tracks pre (c.extract e) fun _ => pre := by
  have hread : L.Tracks [] (do
      let read ← c.accessor e
      read { captures := c.captures } : Step Value) fun _ => [] :=
    .bind (.of_books fun s a u ha => L.accessor he ha) fun read => .lift fun s _ _ => L.refl s
  cases e with
  | constant id v => exact .pure rfl
  | _ => exact hread.silent pre

-- The form of an expression is seen in some of its nodes.
theorem tracks_isText {e : Expr} (he : ∀ n ∈ e.nodes, admits n) (pre : List Text) :
    L.Tracks pre (c.isText e) fun _ => pre := by
  have hextract := tracks_extract (L := L) (he e (Expr.mem_nodes_self e)) pre
  cases e with
  | captured id name slot =>
    rw [isText]
    exact .bind hextract fun v => .pure rfl
  | member id owner name =>
    rw [isText]
    exact .ite (fun _ => .pure rfl) fun _ => .bind hextract fun v => .pure rfl
  | binary id op l r =>
    have hl : ∀ n ∈ l.nodes, admits n := fun n hn => he n (by simp [Expr.nodes, hn])
    have hr : ∀ n ∈ r.nodes, admits n := fun n hn => he n (by simp [Expr.nodes, hn])
    rw [isText]
    refine .ite (fun _ => .bind (tracks_isText hl pre) fun found => ?_) fun _ => .pure rfl
    exact .ite (fun _ => .pure rfl) fun _ => tracks_isText hr pre
  | conditional id test ifTrue ifFalse =>
    rw [isText]
    exact tracks_isText (fun n hn => he n (by simp [Expr.nodes, hn])) pre
  | _ => exact .pure rfl
termination_by sizeOf e

theorem tracks_member {source owner : Expr} {name : Text} {ownerTerm : Step Term}
    (howner : L.Tracks [] ownerTerm Term.placeholders) :
    L.Tracks [] (c.member group source owner name ownerTerm) Term.placeholders := by
  have hlength : L.Tracks [] (do return .apply .length (← ownerTerm) : Step Term)
      Term.placeholders := .bind howner fun t => .compound rfl (by simp [Term.operands])
  unfold member
  split
  · exact .ite (fun _ => hlength) fun _ => .throw
  · exact .ite (fun _ => .lift fun s t ht => L.groupMember s ht)
      fun _ => .ite (fun _ => hlength) fun _ => .lift fun s t ht => L.rowMember s ht

-- Calls.

structure TracksPart (L : Ledger c group admits) (p : Part) : Prop where
  nodes : ∀ n ∈ p.source.nodes, admits n
  term : L.Tracks [] p.term Term.placeholders
  elements : ∀ x ∈ p.elements, L.Tracks [] x Term.placeholders

variable {collection item target pattern amount left right operand : Part} {args : List Part}

theorem TracksPart.withoutElements {e : Expr} {x : Step Term} {xs : List (Step Term)}
    (h : L.TracksPart ⟨e, x, xs⟩) : L.TracksPart ⟨e, x, []⟩ :=
  ⟨h.nodes, h.term, by simp⟩

theorem TracksPart.extract (h : L.TracksPart item) (pre : List Text) :
    L.Tracks pre (c.extract item.source) fun _ => pre :=
  tracks_extract (h.nodes _ (Expr.mem_nodes_self _)) pre

theorem tracks_compileAll {terms : List (Step Term)} (h : ∀ x ∈ terms, L.Tracks [] x Term.placeholders) :
    L.Tracks [] (compileAll terms) fun items => items.flatMap Term.placeholders := .mapM h

theorem tracks_searchPattern (hmode : c.mode = .parameterized) (hpattern : L.TracksPart pattern)
    (place : Placement) : L.Tracks [] (c.searchPattern pattern place) Term.placeholders := by
  unfold searchPattern
  simp only [hmode]
  refine .ite (fun _ => .bind hpattern.term fun t => ?_) fun _ => ?_
  · exact .compound rfl (by simp [Placement.around, Term.operands])
  · refine .bind (hpattern.extract []) fun v => .ite (fun _ => .throw_bind) fun _ => ?_
    refine .lift_bind fun text _ => .bind (tracks_constant hmode _) fun t => ?_
    exact .compound rfl (by simp [Placement.around, Term.operands])

theorem tracks_like (hmode : c.mode = .parameterized) (htarget : L.TracksPart target)
    (hpattern : L.TracksPart pattern) (place : Placement) :
    L.Tracks [] (c.like target pattern place) Term.placeholders := by
  refine .bind htarget.term fun t => ?_
  refine .bind ((tracks_searchPattern hmode hpattern place).behind _) fun p => ?_
  exact .compound rfl (by simp [Term.operands])

-- Only the word FALSE may leave out what has been booked.
def Spares (L : Ledger c group admits) (x : Step Term) : Prop :=
  ∀ s t u, Yields x s t u → ∃ names, L.books s u names ∧ (t ≠ .falsity → names = t.placeholders)

theorem Tracks.spares {x : Step Term} (h : L.Tracks [] x Term.placeholders) : L.Spares x :=
  fun _ t _ ht => ⟨t.placeholders, h.booked ht, fun _ => rfl⟩

theorem Spares.throw {e : Error} : L.Spares (throw e) :=
  fun _ _ _ h => absurd h Yields.throw_iff

theorem Spares.bind {x : Step α} {f : α → Step Term} (hx : L.Tracks [] x fun _ => [])
    (hf : ∀ a, L.Spares (f a)) : L.Spares (x >>= f) := by
  intro s t u h
  obtain ⟨a, s', ha, h⟩ := Yields.bind_iff.mp h
  obtain ⟨names, hnames, hsame⟩ := hf a s' t u h
  exact ⟨names, L.trans (hx.booked ha) hnames, hsame⟩

theorem spares_membership (hitem : L.TracksPart item) {items : Step (List Term)}
    (hitems : L.Tracks [] items fun ts => ts.flatMap Term.placeholders) :
    L.Spares (do
      let t ← item.term
      let ts ← items
      return membership t ts) := by
  intro s t u h
  obtain ⟨i, s', hi, h⟩ := Yields.bind_iff.mp h
  obtain ⟨ts, s'', hts, h⟩ := Yields.bind_iff.mp h
  obtain ⟨rfl, rfl⟩ := Yields.pure_iff.mp h
  refine ⟨i.placeholders ++ ts.flatMap Term.placeholders,
    L.trans (hitem.term.booked hi) (hitems.booked hts), fun hsome => ?_⟩
  unfold membership at hsome ⊢
  by_cases hempty : ts.isEmpty
  · rw [if_pos hempty] at hsome
    exact absurd rfl hsome
  · have hcompound : (Term.isIn i ts).isCompound = true := rfl
    rw [if_neg hempty, Term.placeholders_of_isCompound hcompound]
    simp [Term.operands]

theorem spares_containsKnown (hmode : c.mode = .parameterized) (source : Expr)
    (hcollection : L.TracksPart collection) (hitem : L.TracksPart item) :
    L.Spares (c.containsKnown source collection item) := by
  refine .bind (hcollection.extract []) fun v => ?_
  cases v with
  | string t => exact (tracks_like hmode hcollection hitem .anywhere).spares
  | array values => exact spares_membership hitem (.mapM fun v _ => tracks_constant hmode v)
  | _ => exact .throw

theorem spares_contains (hmode : c.mode = .parameterized) (source : Expr)
    (hcollection : L.TracksPart collection) (hitem : L.TracksPart item) :
    L.Spares (c.contains source collection item) := by
  unfold contains
  split
  · split
    · refine Tracks.spares (.bind hitem.term fun t => .bind (hcollection.term.behind _) fun items => ?_)
      exact .compound rfl (by simp [Term.operands])
    · exact (tracks_like hmode hcollection hitem .anywhere).spares
  · split
    · exact spares_membership hitem (tracks_compileAll hcollection.elements)
    · exact spares_containsKnown hmode source hcollection hitem

theorem spares_containsCall (hmode : c.mode = .parameterized) (source : Expr) (method : Text)
    {target : Option Part} (htarget : ∀ p ∈ target, L.TracksPart p) (hargs : ∀ p ∈ args, L.TracksPart p) :
    L.Spares (c.containsCall source method target args) := by
  unfold containsCall
  split
  · exact spares_contains hmode source (htarget _ rfl) (hargs _ (by simp))
  · exact spares_contains hmode source (hargs _ (by simp)) (hargs _ (by simp))
  · exact .throw

theorem tracks_aggregateCall (grouped : Bool) (source : Expr) (method : Text)
    (hargs : ∀ p ∈ args, L.TracksPart p) :
    L.Tracks [] (aggregateCall grouped source method args) Term.placeholders := by
  unfold aggregateCall
  refine .ite (fun _ => .throw) fun _ => ?_
  split
  · exact .compound rfl rfl
  · refine .bind (hargs _ (by simp)).term fun t => ?_
    exact .compound rfl (by simp [Term.operands])
  · exact .throw
  · refine .bind (hargs _ (by simp)).term fun t => ?_
    exact .compound rfl (by simp [Term.operands])

theorem tracks_addInterval (source : Expr) (t : Term) (hamount : L.TracksPart amount)
    (unit : Eval.Interval) :
    L.Tracks t.placeholders (c.addInterval source t amount unit) Term.placeholders := by
  unfold addInterval
  refine .ite (fun _ => .bind (hamount.term.behind _) fun t => ?_) fun _ => ?_
  · exact .compound rfl (by simp [Term.operands])
  · refine .bind (hamount.extract _) fun v => .ite (fun hnumeric => ?_) fun _ => .throw
    have hcompound : (Term.addInterval t v.text unit).isCompound = true := by
      simpa [Term.isCompound] using not_mem_text_of_isNumeric hnumeric
    exact .compound hcompound (by simp [Term.operands])

theorem tracks_argument {source : Expr} {method : Text} (index : Nat)
    (hargs : ∀ p ∈ args, L.TracksPart p) {pre : List Text} {f : Part → Step Term}
    (hf : ∀ p : Part, L.TracksPart p → L.Tracks pre (f p) Term.placeholders) :
    L.Tracks pre (do f (← argument source method args index)) Term.placeholders :=
  .lift_bind fun p hp => hf p (hargs p (mem_of_argument hp))

theorem tracks_scalarCall (source : Expr) (method : Text) (t : Term)
    (hargs : ∀ p ∈ args, L.TracksPart p) :
    L.Tracks t.placeholders (c.scalarCall source method t args) Term.placeholders := by
  unfold scalarCall
  refine .ite (fun _ => ?_) fun _ => ?_
  · refine tracks_argument 0 hargs fun p hp => .bind (hp.term.behind _) fun other => ?_
    refine .ite (fun hnull => .compound rfl ?_) fun _ => .compound rfl (by simp [Term.operands])
    rw [Term.placeholders_of_isNullWord hnull]
    simp [Term.operands]
  split
  · exact .compound rfl (by simp [Term.operands])
  refine .ite (fun _ => ?_) fun _ => ?_
  · refine tracks_argument 0 hargs fun p hp => .bind (hp.term.behind _) fun start => ?_
    split
    · exact .compound rfl (by simp [Term.operands])
    · next count hcount =>
      refine .bind ((hargs count (List.mem_of_getElem? hcount)).term.behind _) fun n => ?_
      exact .compound rfl (by simp [Term.operands])
  split
  · exact .compound rfl (by simp [Term.operands])
  split
  · exact tracks_argument 0 hargs fun p hp => tracks_addInterval source t hp _
  refine .ite (fun _ => ?_) fun _ => .throw
  split
  · exact .compound rfl (by simp [Term.operands])
  · refine .bind ((hargs _ (by simp)).term.behind _) fun digits => ?_
    exact .compound rfl (by simp [Term.operands])

theorem tracks_targetCall (hmode : c.mode = .parameterized) (source : Expr) (method : Text)
    (htarget : L.TracksPart target) (hargs : ∀ p ∈ args, L.TracksPart p) :
    L.Tracks [] (c.targetCall source method target args) Term.placeholders := by
  unfold targetCall
  refine .ite (fun _ => ?_) fun _ => .ite (fun _ => ?_) fun _ => ?_
  · exact tracks_argument 0 hargs fun p hp => tracks_like hmode htarget hp .start
  · exact tracks_argument 0 hargs fun p hp => tracks_like hmode htarget hp .finish
  · exact .bind htarget.term fun t => tracks_scalarCall source method t hargs

-- All calls but membership tests.
theorem tracks_call (hmode : c.mode = .parameterized) (grouped : Bool) (source : Expr) {method : Text}
    (hmethod : ¬(method == "Contains") = true) {target : Option Part}
    (htarget : ∀ p ∈ target, L.TracksPart p) (hargs : ∀ p ∈ args, L.TracksPart p) :
    L.Tracks [] (c.call grouped source method target args) Term.placeholders := by
  unfold call
  refine .ite (fun _ => tracks_aggregateCall grouped source method hargs) fun _ => ?_
  rw [if_neg hmethod]
  cases target with
  | none => exact .throw
  | some target => exact tracks_targetCall hmode source method (htarget target rfl) hargs

theorem spares_call (hmode : c.mode = .parameterized) (grouped : Bool) (source : Expr) {method : Text}
    (hmethod : (method == "Contains") = true) {target : Option Part}
    (htarget : ∀ p ∈ target, L.TracksPart p) (hargs : ∀ p ∈ args, L.TracksPart p) :
    L.Spares (c.call grouped source method target args) := by
  unfold call
  split
  · exact (tracks_aggregateCall grouped source method hargs).spares
  · exact spares_containsCall hmode source method htarget hargs

-- Operators.

theorem tracks_equality {pre : List Text} (negated : Bool) (l r : Term)
    (h : l.placeholders ++ r.placeholders = pre) :
    L.Tracks pre (Pure.pure (equality negated l r)) Term.placeholders := by
  unfold equality
  by_cases hr : r.isNullWord
  · rw [if_pos hr]
    rw [Term.placeholders_of_isNullWord hr] at h
    exact .compound rfl (by simpa [Term.operands] using h)
  · rw [if_neg hr]
    by_cases hl : l.isNullWord
    · rw [if_pos hl]
      rw [Term.placeholders_of_isNullWord hl] at h
      exact .compound rfl (by simpa [Term.operands] using h)
    · rw [if_neg hl]
      exact .compound rfl (by simpa [Term.operands] using h)

theorem tracks_binary (op : BinaryOp) (hleft : L.TracksPart left) (hright : L.TracksPart right) :
    L.Tracks [] (c.binary op left right) Term.placeholders := by
  refine .bind hleft.term fun l => .bind (hright.term.behind _) fun r => ?_
  have hoperation (operator : Operator) : L.Tracks (l.placeholders ++ r.placeholders)
      (Pure.pure (.operation operator l r)) Term.placeholders :=
    .compound rfl (by simp [Term.operands])
  cases op with
  | coalesce => exact .compound rfl (by simp [Term.operands])
  | equal => exact tracks_equality false l r rfl
  | notEqual => exact tracks_equality true l r rfl
  | compare o => exact hoperation (.compare o)
  | and => exact hoperation .and
  | or => exact hoperation .or
  | arithmetic a =>
    cases a with
    | add =>
      refine .bind (tracks_isText hleft.nodes _) fun text => .ite (fun _ => hoperation _) fun _ => ?_
      exact .bind (tracks_isText hright.nodes _) fun text =>
        .ite (fun _ => hoperation _) fun _ => hoperation _
    | _ => exact hoperation _

theorem tracks_conversion (h : L.TracksPart operand) (type : Option FieldType) :
    L.Tracks [] (c.conversion operand type) Term.placeholders := by
  refine .bind h.term fun t => ?_
  have hcast (type : CastType) : L.Tracks t.placeholders (Pure.pure (.cast t type))
      Term.placeholders := .compound rfl (by simp [Term.operands])
  split
  · exact .ite (fun _ => hcast _) fun _ => .pure rfl
  · exact .bind (tracks_isText h.nodes _) fun text => .ite (fun _ => .pure rfl) fun _ => hcast _
  · exact .pure rfl

-- Expressions.

theorem tracks_value {e : Expr} (hmode : c.mode = .parameterized) (he : admits e) :
    L.Tracks [] (do c.constant (← c.extract e)) Term.placeholders :=
  .bind (tracks_extract he []) fun v => tracks_constant hmode v

theorem tracks_known {e : Expr} (hmode : c.mode = .parameterized) (he : admits e) {otherwise : Step Term}
    (h : L.Tracks [] otherwise Term.placeholders) :
    L.Tracks [] (c.known e otherwise) Term.placeholders :=
  .ite (fun _ => h) fun _ => tracks_value hmode he

theorem spares_known {e : Expr} (hmode : c.mode = .parameterized) (he : admits e) {otherwise : Step Term}
    (h : L.Spares otherwise) : L.Spares (c.known e otherwise) := by
  unfold known
  split
  · exact h
  · exact (tracks_value hmode he).spares

theorem tracks_of_spares {e : Expr} (he : admits e) (hmembership : e.isMembership = true)
    (h : L.Spares (c.term group e)) : L.Tracks [] (c.term group e) Term.placeholders := by
  intro before s t u hbefore ht
  obtain ⟨names, hnames, hsame⟩ := h s t u ht
  have hown : L.books s u t.placeholders := by
    by_cases hfalsity : t = .falsity
    · subst hfalsity
      have hnone : Term.falsity.placeholders = [] := placeholders_of_not_mem (by decide)
      rw [hnone]
      exact L.emptied he hmembership ht hnames
    · rw [← hsame hfalsity]
      exact hnames
  exact L.trans hbefore hown

mutual

-- By the recursion of the compiler.
theorem tracks_term (L : Ledger c group admits) (hmode : c.mode = .parameterized) (e : Expr)
    (he : ∀ n ∈ e.nodes, admits n) : L.Tracks [] (c.term group e) Term.placeholders := by
  have hself := he e (Expr.mem_nodes_self e)
  cases e with
  | constant id v =>
    rw [term]
    exact tracks_constant hmode v
  | parameter id p =>
    rw [term]
    exact .throw
  | lambda id p body =>
    rw [term]
    exact tracks_term L hmode body fun n hn => he n (by simp [Expr.nodes, hn])
  | initializer id entity bindings =>
    rw [term]
    exact .throw
  | array id items =>
    have hitems := tracks_terms L hmode items fun n hn => he n (by simp [Expr.nodes, hn])
    rw [term]
    exact .bind (tracks_compileAll hitems) fun terms => .compound rfl rfl
  | captured id name slot =>
    rw [term]
    exact tracks_value hmode hself
  | member id owner name =>
    have howner := tracks_term L hmode owner fun n hn => he n (by simp [Expr.nodes, hn])
    rw [term]
    exact tracks_known hmode hself (tracks_member howner)
  | binary id op l r =>
    have hl := tracks_part L hmode l fun n hn => he n (by simp [Expr.nodes, hn])
    have hr := tracks_part L hmode r fun n hn => he n (by simp [Expr.nodes, hn])
    rw [term]
    exact tracks_known hmode hself (tracks_binary op hl.withoutElements hr.withoutElements)
  | not id operand =>
    have hoperand := tracks_term L hmode operand fun n hn => he n (by simp [Expr.nodes, hn])
    rw [term]
    refine tracks_known hmode hself (.bind hoperand fun t => ?_)
    exact .compound rfl (by simp [Term.operands])
  | negate id operand =>
    have hoperand := tracks_term L hmode operand fun n hn => he n (by simp [Expr.nodes, hn])
    rw [term]
    refine tracks_known hmode hself (.bind hoperand fun t => ?_)
    exact .compound rfl (by simp [Term.operands])
  | convert id operand type =>
    have hoperand := tracks_part L hmode operand fun n hn => he n (by simp [Expr.nodes, hn])
    rw [term]
    exact tracks_known hmode hself (tracks_conversion hoperand.withoutElements type)
  | conditional id test a b =>
    have htest := tracks_term L hmode test fun n hn => he n (by simp [Expr.nodes, hn])
    have ha := tracks_term L hmode a fun n hn => he n (by simp [Expr.nodes, hn])
    have hb := tracks_term L hmode b fun n hn => he n (by simp [Expr.nodes, hn])
    rw [term]
    refine tracks_known hmode hself (.bind htest fun test => ?_)
    refine .bind (ha.behind _) fun a => .bind (hb.behind _) fun b => ?_
    exact .compound rfl (by simp [Term.operands])
  | call id target method args =>
    have htarget := tracks_part L hmode target fun n hn => he n (by simp [Expr.nodes, hn])
    have hargs := tracks_parts L hmode args fun n hn => he n (by simp [Expr.nodes, hn])
    have htarget' : ∀ p ∈ some ⟨target, c.term group target, c.elements group target⟩,
        L.TracksPart p := by
      rintro p ⟨⟩
      exact htarget
    by_cases hmethod : (method == "Contains") = true
    · refine tracks_of_spares hself hmethod ?_
      rw [term]
      exact spares_known hmode hself (spares_call hmode _ _ hmethod htarget' hargs)
    · rw [term]
      exact tracks_known hmode hself (tracks_call hmode _ _ hmethod htarget' hargs)
  | staticCall id method args =>
    have hargs := tracks_parts L hmode args fun n hn => he n (by simp [Expr.nodes, hn])
    by_cases hmethod : (method == "Contains") = true
    · refine tracks_of_spares hself hmethod ?_
      rw [term]
      exact spares_known hmode hself (spares_call hmode _ _ hmethod (by simp) hargs)
    · rw [term]
      exact tracks_known hmode hself (tracks_call hmode _ _ hmethod (by simp) hargs)
termination_by (sizeOf e, 0)

theorem tracks_part (L : Ledger c group admits) (hmode : c.mode = .parameterized) (e : Expr)
    (he : ∀ n ∈ e.nodes, admits n) : L.TracksPart ⟨e, c.term group e, c.elements group e⟩ := by
  refine ⟨he, tracks_term L hmode e he, ?_⟩
  cases e with
  | array id items =>
    rw [elements]
    exact tracks_terms L hmode items fun n hn => he n (by simp [Expr.nodes, hn])
  | _ => simp [elements]
termination_by (sizeOf e, 1)

theorem tracks_terms (L : Ledger c group admits) (hmode : c.mode = .parameterized) (items : List Expr)
    (h : ∀ n ∈ Expr.nodesOf items, admits n) :
    ∀ x ∈ c.terms group items, L.Tracks [] x Term.placeholders := by
  cases items with
  | nil => simp [terms]
  | cons e rest =>
    rw [terms]
    exact List.forall_mem_cons.mpr
      ⟨tracks_term L hmode e fun n hn => h n (by simp [Expr.nodesOf, hn]),
        tracks_terms L hmode rest fun n hn => h n (by simp [Expr.nodesOf, hn])⟩
termination_by (sizeOf items, 0)

theorem tracks_parts (L : Ledger c group admits) (hmode : c.mode = .parameterized) (args : List Expr)
    (h : ∀ n ∈ Expr.nodesOf args, admits n) : ∀ p ∈ c.parts group args, L.TracksPart p := by
  cases args with
  | nil => simp [parts]
  | cons e rest =>
    rw [parts]
    exact List.forall_mem_cons.mpr
      ⟨tracks_part L hmode e fun n hn => h n (by simp [Expr.nodesOf, hn]),
        tracks_parts L hmode rest fun n hn => h n (by simp [Expr.nodesOf, hn])⟩
termination_by (sizeOf args, 0)

end

end Ledger

end Compiler

end Sql

end EntitySql
