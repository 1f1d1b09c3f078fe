import EntitySql.Proofs.Sql.Equations
import EntitySql.Proofs.Sql.Frames
import EntitySql.Proofs.Sql.Invariant
import EntitySql.Proofs.Sql.Ledger

-- Comparisons with NULL in whole expressions. Every part of a compiled term that
-- has NULL beside an equality sign is traced to the node that it stems from.

namespace EntitySql.Sql

namespace Term

theorem infix_text_of_mem_operands {t o : Term} (h : o ∈ t.operands) : o.text <:+: t.text := by
  rw [← t.map_fst_behind] at h
  obtain ⟨p, hp, rfl⟩ := List.mem_map.mp h
  obtain ⟨before, after, hsplit⟩ := List.append_of_mem hp
  rw [t.text_eq_spread, spread, hsplit, List.flatMap_append, List.flatMap_cons]
  exact ⟨t.opening ++ before.flatMap fun p => p.1.text ++ p.2,
    p.2 ++ after.flatMap fun p => p.1.text ++ p.2, by simp⟩

theorem Occurs.infix_text {t u : Term} (h : t.Occurs u) : t.text <:+: u.text := by
  induction h with
  | here => exact List.infix_rfl
  | inside hv _ ih => exact ih.trans (infix_text_of_mem_operands hv)

end Term

namespace Compiler

variable {c : Compiler} {group : GroupColumns} {s s' : State} {t : Term}

-- What holds of every result of a step.
abbrev Gives {α : Type} (P : α → Prop) (x : Step α) : Prop := ∀ s a u, Yields x s a u → P a

namespace Gives

variable {α β : Type} {P : α → Prop} {Q : β → Prop} {x : Step α} {y : Step β}

theorem pure {a : α} (h : P a) : Gives P (Pure.pure a) := by
  intro s b u hx
  rw [(Yields.pure_iff.mp hx).1]
  exact h

theorem bind {f : β → Step α} (hy : Gives Q y) (hf : ∀ b, Q b → Gives P (f b)) :
    Gives P (y >>= f) := by
  intro s a u h
  obtain ⟨b, v, hb, ha⟩ := Yields.bind_iff.mp h
  exact hf b (hy s b v hb) v a u ha

theorem bind_any {f : β → Step α} (hf : ∀ b, Gives P (f b)) : Gives P (y >>= f) :=
  .bind (Q := fun _ => True) (fun _ _ _ _ => trivial) fun b _ => hf b

theorem lift_bind {r : Result β} {f : β → Step α} (hf : ∀ b, r = .ok b → Gives P (f b)) :
    Gives P ((liftM r : Step β) >>= f) := by
  intro s a u h
  obtain ⟨b, hb, ha⟩ := Yields.lift_bind_iff.mp h
  exact hf b hb s a u ha

theorem lift {r : Result α} (h : ∀ a, r = .ok a → P a) : Gives P (liftM r : Step α) :=
  fun _ a _ hx => h a (Yields.lift_iff.mp hx).1

theorem throw {e : Error} : Gives P (MonadExcept.throw e : Step α) :=
  fun _ _ _ h => absurd h Yields.throw_iff

theorem throw_bind {e : Error} {f : β → Step α} :
    Gives P ((MonadExcept.throw e : Step β) >>= f) := by
  intro s a u h
  obtain ⟨b, v, hb, -⟩ := Yields.bind_iff.mp h
  exact absurd hb Yields.throw_iff

theorem ite {b : Prop} [Decidable b] {z : Step α} (hx : b → Gives P x) (hz : ¬b → Gives P z) :
    Gives P (if b then x else z) := by
  by_cases h : b
  · rw [if_pos h]
    exact hx h
  · rw [if_neg h]
    exact hz h

theorem mapM {f : β → Step α} {items : List β} (h : ∀ i ∈ items, Gives P (f i)) :
    Gives (fun results => ∀ a ∈ results, P a) (items.mapM f) :=
  fun _ _ _ hx => Yields.forall_of_mapM (fun i hi => h i hi) hx

end Gives

-- All comparisons with NULL inside the term stem from such nodes.
def Traced (c : Compiler) (group : GroupColumns) (nodes : List Expr) (t : Term) : Prop :=
  ∀ v, v.Occurs t → v.comparesNull = true →
    ∃ n ∈ nodes, ∃ s u, Yields (c.term group n) s v u ∧ c.ComparesNull group n s

section Traced

variable {nodes : List Expr}

abbrev Traces (c : Compiler) (group : GroupColumns) (nodes : List Expr) (x : Step Term) : Prop :=
  Gives (c.Traced group nodes) x

theorem Traced.of_operands (hplain : t.comparesNull = false)
    (h : ∀ o ∈ t.operands, c.Traced group nodes o) : c.Traced group nodes t := by
  intro v hv hnull
  cases hv with
  | here => simp [hplain] at hnull
  | inside ho hv => exact h _ ho v hv hnull

theorem Traced.of_run {n : Expr} (hn : n ∈ nodes) (hrun : Yields (c.term group n) s t s')
    (hnull : c.ComparesNull group n s) (h : ∀ o ∈ t.operands, c.Traced group nodes o) :
    c.Traced group nodes t := by
  intro v hv hcompares
  cases hv with
  | here => exact ⟨n, hn, s, s', hrun, hnull⟩
  | inside ho hv => exact h _ ho v hv hcompares

-- A frame that compares nothing with NULL.
theorem traces_pure (hplain : t.comparesNull = false)
    (h : ∀ o ∈ t.operands, c.Traced group nodes o) : Traces c group nodes (pure t) :=
  .pure (.of_operands hplain h)

theorem traces_constant (v : Value) : Traces c group nodes (c.constant v) := by
  unfold constant
  refine .ite (fun _ => traces_pure rfl (by simp [Term.operands])) fun _ => ?_
  refine .ite (fun _ => traces_pure rfl (by simp [Term.operands])) fun _ => ?_
  cases c.mode with
  | literal => exact .lift_bind fun l _ => traces_pure rfl (by simp [Term.operands])
  | parameterized =>
    exact .bind_any fun s => .bind_any fun _ => traces_pure rfl (by simp [Term.operands])

-- Calls.

structure TracesPart (c : Compiler) (group : GroupColumns) (nodes : List Expr) (p : Part) :
    Prop where
  term : Traces c group nodes p.term
  elements : ∀ x ∈ p.elements, Traces c group nodes x

variable {collection item target pattern amount left right operand : Part} {args : List Part}

theorem traces_searchPattern (h : TracesPart c group nodes pattern) (place : Placement) :
    Traces c group nodes (c.searchPattern pattern place) := by
  have haround {t : Term} (ht : c.Traced group nodes t) :
      Traces c group nodes (pure (place.around t)) :=
    traces_pure rfl (by simpa [Placement.around, Term.operands] using ht)
  unfold searchPattern
  refine .ite (fun _ => .bind h.term fun t ht => haround ht) fun _ => .bind_any fun v => ?_
  refine .ite (fun _ => .throw_bind) fun _ => .lift_bind fun text _ => ?_
  cases c.mode with
  | literal => exact .lift_bind fun l _ => traces_pure rfl (by simp [Term.operands])
  | parameterized => exact .bind (traces_constant _) fun t ht => haround ht

theorem traces_like (htarget : TracesPart c group nodes target)
    (hpattern : TracesPart c group nodes pattern) (place : Placement) :
    Traces c group nodes (c.like target pattern place) := by
  refine .bind htarget.term fun t ht => .bind (traces_searchPattern hpattern place) fun p hp => ?_
  exact traces_pure rfl (by simp [Term.operands, ht, hp])

theorem traces_membership {found : Term} {items : List Term} (hfound : c.Traced group nodes found)
    (hitems : ∀ i ∈ items, c.Traced group nodes i) :
    Traces c group nodes (pure (membership found items)) := by
  unfold membership
  split
  · exact traces_pure rfl (by simp [Term.operands])
  · exact traces_pure rfl (by simpa [Term.operands] using ⟨hfound, hitems⟩)

theorem traces_containsKnown (source : Expr) (hcollection : TracesPart c group nodes collection)
    (hitem : TracesPart c group nodes item) :
    Traces c group nodes (c.containsKnown source collection item) := by
  refine .bind_any fun v => ?_
  cases v with
  | string t => exact traces_like hcollection hitem .anywhere
  | array values =>
    refine .bind hitem.term fun found hfound => ?_
    exact .bind (.mapM fun v _ => traces_constant v) fun items hitems =>
      traces_membership hfound hitems
  | _ => exact .throw

theorem traces_contains (source : Expr) (hcollection : TracesPart c group nodes collection)
    (hitem : TracesPart c group nodes item)
    (hfield : collection.source.referencesParameter = true →
      (c.field? collection.source).map Field.type ≠ some .array) :
    Traces c group nodes (c.contains source collection item) := by
  unfold contains
  refine .ite (fun href => ?_) fun _ => ?_
  · split
    · next hsome => exact absurd hsome (hfield href)
    · exact traces_like hcollection hitem .anywhere
  · split
    · refine .bind hitem.term fun found hfound => ?_
      exact .bind (.mapM hcollection.elements) fun items hitems => traces_membership hfound hitems
    · exact traces_containsKnown source hcollection hitem

theorem traces_aggregateCall (grouped : Bool) (source : Expr) (method : Text)
    (hargs : ∀ p ∈ args, TracesPart c group nodes p) :
    Traces c group nodes (aggregateCall grouped source method args) := by
  unfold aggregateCall
  refine .ite (fun _ => .throw) fun _ => ?_
  split
  · exact traces_pure rfl (by simp [Term.operands])
  · refine .bind (hargs _ (by simp)).term fun t ht => ?_
    exact traces_pure rfl (by simpa [Term.operands] using ht)
  · exact .throw
  · refine .bind (hargs _ (by simp)).term fun t ht => ?_
    exact traces_pure rfl (by simpa [Term.operands] using ht)

theorem traces_addInterval (source : Expr) (ht : c.Traced group nodes t)
    (hamount : TracesPart c group nodes amount) (unit : Eval.Interval) :
    Traces c group nodes (c.addInterval source t amount unit) := by
  unfold addInterval
  refine .ite (fun _ => .bind hamount.term fun a ha => ?_) fun _ => .bind_any fun v => ?_
  · exact traces_pure rfl (by simp [Term.operands, ht, ha])
  · exact .ite (fun _ => traces_pure rfl (by simpa [Term.operands] using ht)) fun _ => .throw

theorem traces_scalarCall (source : Expr) {method : Text}
    (hequals : (method == "Equals") = true → args = []) (ht : c.Traced group nodes t)
    (hargs : ∀ p ∈ args, TracesPart c group nodes p) :
    Traces c group nodes (c.scalarCall source method t args) := by
  have hargument {index : Nat} {p : Part} (hp : argument source method args index = .ok p) :
      TracesPart c group nodes p := hargs p (mem_of_argument hp)
  unfold scalarCall
  refine .ite (fun h => .lift_bind fun p hp => ?_) fun _ => ?_
  · rw [hequals h] at hp
    cases hp
  split
  · exact traces_pure rfl (by simpa [Term.operands] using ht)
  refine .ite (fun _ => .lift_bind fun p hp => .bind (hargument hp).term fun start hstart => ?_)
    fun _ => ?_
  · split
    · exact traces_pure rfl (by simp [Term.operands, ht, hstart])
    · next count hcount =>
      refine .bind (hargs count (List.mem_of_getElem? hcount)).term fun n hn => ?_
      exact traces_pure rfl (by simp [Term.operands, ht, hstart, hn])
  split
  · exact traces_pure rfl (by simpa [Term.operands] using ht)
  split
  · exact .lift_bind fun p hp => traces_addInterval source ht (hargument hp) _
  refine .ite (fun _ => ?_) fun _ => .throw
  split
  · exact traces_pure rfl (by simpa [Term.operands] using ht)
  · refine .bind (hargs _ (by simp)).term fun digits hdigits => ?_
    exact traces_pure rfl (by simp [Term.operands, ht, hdigits])

-- All calls but comparisons and membership tests.
theorem traces_call (grouped : Bool) (source : Expr) {method : Text} {target : Option Part}
    (hequals : target.isSome → (method == "Equals") = true → args = [])
    (hcontains : (method == "Contains") = true →
      Traces c group nodes (c.containsCall source method target args))
    (htarget : ∀ p ∈ target, TracesPart c group nodes p)
    (hargs : ∀ p ∈ args, TracesPart c group nodes p) :
    Traces c group nodes (c.call grouped source method target args) := by
  unfold call
  refine .ite (fun _ => traces_aggregateCall grouped source method hargs) fun _ => ?_
  refine .ite hcontains fun _ => ?_
  cases target with
  | none => exact .throw
  | some target =>
    have htarget := htarget target rfl
    have hlike (index : Nat) (place : Placement) : Traces c group nodes
        (do c.like target (← argument source method args index) place) :=
      .lift_bind fun p hp => traces_like htarget (hargs p (mem_of_argument hp)) place
    unfold targetCall
    refine .ite (fun _ => hlike 0 .start) fun _ => .ite (fun _ => hlike 0 .finish) fun _ => ?_
    exact .bind htarget.term fun t ht => traces_scalarCall source (hequals rfl) ht hargs

-- Nodes that may compare with NULL are traced to themselves.

theorem traced_of_equation? {n : Expr} {q : Equation} (hn : n ∈ nodes)
    (hq : n.equation? = some q) (href : n.referencesParameter = true)
    (hleft : Traces c group nodes (c.term group q.left))
    (hright : Traces c group nodes (c.term group q.right))
    (h : Yields (c.term group n) s t s') : c.Traced group nodes t := by
  obtain ⟨l, u, r, hl, hr, hrenders⟩ := renders_of_equation? hq href h
  have hltraced := hleft s l u hl
  have hrtraced := hright u r s' hr
  cases hrenders with
  | nullRight => exact .of_operands rfl (by simpa [Term.operands] using hltraced)
  | nullLeft => exact .of_operands rfl (by simpa [Term.operands] using hrtraced)
  | nullReceiver hrnull hlnull hmethod =>
    exact .of_run hn h (.receiver hq hmethod href hl hlnull hr hrnull)
      (by simp [Term.operands, hltraced, hrtraced])
  | values hrnull hlnull =>
    exact .of_operands (by simp [Term.comparesNull_operation, hlnull, hrnull])
      (by simp [Term.operands, hltraced, hrtraced])

theorem traced_of_membership? {n collection item : Expr} (hn : n ∈ nodes)
    (hmembership : n.membership? = some (collection, item))
    (href : n.referencesParameter = true)
    (hcollection : TracesPart c group nodes
      ⟨collection, c.term group collection, c.elements group collection⟩)
    (hitem : TracesPart c group nodes ⟨item, c.term group item, c.elements group item⟩)
    (h : Yields (c.term group n) s t s') : c.Traced group nodes t := by
  by_cases hcolumn : collection.referencesParameter = true ∧
      (c.field? collection).map Field.type = some .array
  · obtain ⟨hread, hfield⟩ := hcolumn
    obtain ⟨i, u, items, hi, hitems, rfl⟩ := yields_element hmembership hread hfield h
    have hoperands : ∀ o ∈ (Term.isElement i items).operands, c.Traced group nodes o := by
      simp [Term.operands, hitem.term s i u hi, hcollection.term u items s' hitems]
    cases hnull : i.isNullWord with
    | true => exact .of_run hn h (.element hmembership hread hfield hi hnull) hoperands
    | false =>
      have harray := isNullWord_of_field? hread hfield hitems
      exact .of_operands (by simp [Term.comparesNull, hnull, harray]) hoperands
  · have hcontains := yields_contains_of_membership? hmembership href h
    exact traces_contains n hcollection hitem (fun hread hfield => hcolumn ⟨hread, hfield⟩)
      s t s' hcontains

-- Operators.

theorem traces_binary {op : BinaryOp} (hop : op ≠ .equal ∧ op ≠ .notEqual)
    (hleft : TracesPart c group nodes left) (hright : TracesPart c group nodes right) :
    Traces c group nodes (c.binary op left right) := by
  refine .bind hleft.term fun l hl => .bind hright.term fun r hr => ?_
  have hoperation (operator : Operator)
      (hplain : (Term.operation operator l r).comparesNull = false) :
      Traces c group nodes (pure (.operation operator l r)) :=
    traces_pure hplain (by simp [Term.operands, hl, hr])
  cases op with
  | equal => exact absurd rfl hop.1
  | notEqual => exact absurd rfl hop.2
  | coalesce => exact traces_pure rfl (by simp [Term.operands, hl, hr])
  | compare o => exact hoperation (.compare o) rfl
  | and => exact hoperation .and rfl
  | or => exact hoperation .or rfl
  | arithmetic a =>
    cases a with
    | add =>
      refine .bind_any fun text => .ite (fun _ => hoperation _ rfl) fun _ => ?_
      exact .bind_any fun text => .ite (fun _ => hoperation _ rfl) fun _ => hoperation _ rfl
    | _ => exact hoperation _ rfl

theorem traces_conversion (h : TracesPart c group nodes operand) (type : Option FieldType) :
    Traces c group nodes (c.conversion operand type) := by
  refine .bind h.term fun t ht => ?_
  have hcast (type : CastType) : Traces c group nodes (pure (.cast t type)) :=
    traces_pure rfl (by simpa [Term.operands] using ht)
  split
  · exact .ite (fun _ => hcast _) fun _ => .pure ht
  · exact .bind_any fun text => .ite (fun _ => .pure ht) fun _ => hcast _
  · exact .pure ht

theorem traces_member (source owner : Expr) (name : Text) {ownerTerm : Step Term}
    (howner : Traces c group nodes ownerTerm) :
    Traces c group nodes (c.member group source owner name ownerTerm) := by
  have hlength : Traces c group nodes (do return .apply .length (← ownerTerm)) :=
    .bind howner fun t ht => traces_pure rfl (by simpa [Term.operands] using ht)
  unfold member
  split
  · exact .ite (fun _ => hlength) fun _ => .throw
  · refine .ite (fun _ => .lift fun t ht => ?_) fun _ =>
      .ite (fun _ => hlength) fun _ => .lift fun t ht => ?_
    · obtain ⟨column, -, rfl⟩ := exists_groupKey_of_groupMember ht
      exact .of_operands rfl (by simp [Term.operands])
    · obtain ⟨table, column, rfl⟩ := exists_column_of_rowMember ht
      exact .of_operands rfl (by simp [Term.operands])

theorem traces_value (e : Expr) : Traces c group nodes (do c.constant (← c.extract e)) :=
  .bind_any fun v => traces_constant v

-- What reads no row is a value.
theorem traces_known {e : Expr} {otherwise : Step Term} (h : Traces c group nodes otherwise) :
    Traces c group nodes (c.known e otherwise) :=
  .ite (fun _ => h) fun _ => traces_value e

theorem traces_of_reading {e : Expr} {otherwise : Step Term}
    (hknown : c.term group e = c.known e otherwise)
    (h : e.referencesParameter = true → Traces c group nodes (c.term group e)) :
    Traces c group nodes (c.term group e) := by
  by_cases href : e.referencesParameter
  · exact h href
  · rw [hknown, known, if_neg href]
    exact traces_value e

mutual

-- By the recursion of the compiler.
theorem traces_term (c : Compiler) (group : GroupColumns) (nodes : List Expr) (e : Expr)
    (he : ∀ n ∈ e.nodes, n ∈ nodes) : Traces c group nodes (c.term group e) := by
  have hself := he e (Expr.mem_nodes_self e)
  cases e with
  | constant id v =>
    rw [term]
    exact traces_constant v
  | parameter id p =>
    rw [term]
    exact .throw
  | lambda id p body =>
    rw [term]
    exact traces_term c group nodes body fun n hn => he n (by simp [Expr.nodes, hn])
  | initializer id entity bindings =>
    rw [term]
    exact .throw
  | array id items =>
    have hitems := traces_terms c group nodes items fun n hn => he n (by simp [Expr.nodes, hn])
    rw [term]
    exact .bind (.mapM hitems) fun terms hterms => traces_pure rfl hterms
  | captured id name slot =>
    rw [term]
    exact traces_value _
  | member id owner name =>
    have howner := traces_term c group nodes owner fun n hn => he n (by simp [Expr.nodes, hn])
    rw [term]
    exact traces_known (traces_member _ owner name howner)
  | binary id op l r =>
    have hl := traces_term c group nodes l fun n hn => he n (by simp [Expr.nodes, hn])
    have hr := traces_term c group nodes r fun n hn => he n (by simp [Expr.nodes, hn])
    have hother (hop : op ≠ .equal ∧ op ≠ .notEqual) :
        Traces c group nodes (c.term group (.binary id op l r)) := by
      rw [term]
      exact traces_known (traces_binary hop ⟨hl, by simp⟩ ⟨hr, by simp⟩)
    cases op with
    | equal =>
      exact traces_of_reading (by rw [term]) fun href _ _ _ h =>
        traced_of_equation? hself rfl href hl hr h
    | notEqual =>
      exact traces_of_reading (by rw [term]) fun href _ _ _ h =>
        traced_of_equation? hself rfl href hl hr h
    | _ => exact hother (by simp)
  | not id operand =>
    have hoperand := traces_term c group nodes operand fun n hn => he n (by simp [Expr.nodes, hn])
    rw [term]
    refine traces_known (.bind hoperand fun t ht => ?_)
    exact traces_pure rfl (by simpa [Term.operands] using ht)
  | negate id operand =>
    have hoperand := traces_term c group nodes operand fun n hn => he n (by simp [Expr.nodes, hn])
    rw [term]
    refine traces_known (.bind hoperand fun t ht => ?_)
    exact traces_pure rfl (by simpa [Term.operands] using ht)
  | convert id operand type =>
    have hoperand := traces_term c group nodes operand fun n hn => he n (by simp [Expr.nodes, hn])
    rw [term]
    exact traces_known (traces_conversion ⟨hoperand, by simp⟩ type)
  | conditional id test a b =>
    have htest := traces_term c group nodes test fun n hn => he n (by simp [Expr.nodes, hn])
    have ha := traces_term c group nodes a fun n hn => he n (by simp [Expr.nodes, hn])
    have hb := traces_term c group nodes b fun n hn => he n (by simp [Expr.nodes, hn])
    rw [term]
    refine traces_known (.bind htest fun test htest => ?_)
    refine .bind ha fun a ha => .bind hb fun b hb => ?_
    exact traces_pure rfl (by simp [Term.operands, htest, ha, hb])
  | call id target method args =>
    have htarget := traces_part c group nodes target fun n hn => he n (by simp [Expr.nodes, hn])
    have hargs := traces_parts c group nodes args fun n hn => he n (by simp [Expr.nodes, hn])
    have htarget' : ∀ p ∈ some ⟨target, c.term group target, c.elements group target⟩,
        TracesPart c group nodes p := by
      rintro p ⟨⟩
      exact htarget
    have hother (hequals : (method == "Equals") = true → args = [])
        (hcontains : (method == "Contains") = true → args = []) :
        Traces c group nodes (c.term group (.call id target method args)) := by
      rw [term]
      refine traces_known (traces_call _ _ (fun _ h => ?_) (fun h => ?_) htarget' hargs)
      · rw [hequals h, parts]
      · rw [hcontains h]
        exact .throw
    cases args with
    | nil => exact hother (fun _ => rfl) fun _ => rfl
    | cons arg rest =>
      have harg : TracesPart c group nodes ⟨arg, c.term group arg, c.elements group arg⟩ :=
        hargs _ (by simp [parts])
      by_cases hequals : (method == "Equals") = true
      · refine traces_of_reading (by rw [term]) fun href _ _ _ h => ?_
        exact traced_of_equation? hself (if_pos hequals) href htarget.term harg.term h
      by_cases hcontains : (method == "Contains") = true
      · refine traces_of_reading (by rw [term]) fun href _ _ _ h => ?_
        exact traced_of_membership? hself (if_pos hcontains) href htarget harg h
      · exact hother (fun h => absurd h hequals) fun h => absurd h hcontains
  | staticCall id method args =>
    have hargs := traces_parts c group nodes args fun n hn => he n (by simp [Expr.nodes, hn])
    have hother (hcontains : (method == "Contains") = true →
        Traces c group nodes (c.containsCall (.staticCall id method args) method none
          (c.parts group args))) :
        Traces c group nodes (c.term group (.staticCall id method args)) := by
      rw [term]
      exact traces_known (traces_call _ _ (by simp) hcontains (by simp) hargs)
    match args with
    | [] => exact hother fun _ => .throw
    | [_] => exact hother fun _ => .throw
    | collection :: item :: rest =>
      by_cases hcontains : (method == "Contains") = true
      · refine traces_of_reading (by rw [term]) fun href _ _ _ h => ?_
        exact traced_of_membership? hself (if_pos hcontains) href
          (hargs _ (by simp [parts])) (hargs _ (by simp [parts])) h
      · exact hother fun h => absurd h hcontains
termination_by (sizeOf e, 0)

theorem traces_part (c : Compiler) (group : GroupColumns) (nodes : List Expr) (e : Expr)
    (he : ∀ n ∈ e.nodes, n ∈ nodes) :
    TracesPart c group nodes ⟨e, c.term group e, c.elements group e⟩ := by
  refine ⟨traces_term c group nodes e he, ?_⟩
  cases e with
  | array id items =>
    rw [elements]
    exact traces_terms c group nodes items fun n hn => he n (by simp [Expr.nodes, hn])
  | _ => simp [elements]
termination_by (sizeOf e, 1)

theorem traces_terms (c : Compiler) (group : GroupColumns) (nodes : List Expr) (items : List Expr)
    (h : ∀ n ∈ Expr.nodesOf items, n ∈ nodes) :
    ∀ x ∈ c.terms group items, Traces c group nodes x := by
  cases items with
  | nil => simp [terms]
  | cons e rest =>
    rw [terms]
    exact List.forall_mem_cons.mpr
      ⟨traces_term c group nodes e fun n hn => h n (by simp [Expr.nodesOf, hn]),
        traces_terms c group nodes rest fun n hn => h n (by simp [Expr.nodesOf, hn])⟩
termination_by (sizeOf items, 0)

theorem traces_parts (c : Compiler) (group : GroupColumns) (nodes : List Expr) (args : List Expr)
    (h : ∀ n ∈ Expr.nodesOf args, n ∈ nodes) :
    ∀ p ∈ c.parts group args, TracesPart c group nodes p := by
  cases args with
  | nil => simp [parts]
  | cons e rest =>
    rw [parts]
    exact List.forall_mem_cons.mpr
      ⟨traces_part c group nodes e fun n hn => h n (by simp [Expr.nodesOf, hn]),
        traces_parts c group nodes rest fun n hn => h n (by simp [Expr.nodesOf, hn])⟩
termination_by (sizeOf args, 0)

end

end Traced

-- A comparison with NULL is a null test of the other side, on whichever side
-- the NULL is, and NULL stands beside an equality sign only where the method is
-- called on it or where an array column is searched for it.
theorem comparesNull_iff {e : Expr} (h : Yields (c.expression (some e)) s t s') :
    (∀ n ∈ e.nodes, n.isFolded = true → ∀ s₁ l s₂, Yields (c.term none n) s₁ l s₂ →
      ∃ v u, Yields (c.extract n) s₁ v u ∧ l.isNullWord = v.isNull) ∧
    (∀ n ∈ e.nodes, ∀ q, n.equation? = some q → n.referencesParameter = true →
      ∀ s₁ v s₂, Yields (c.term none n) s₁ v s₂ →
        ∃ l u r, Yields (c.term none q.left) s₁ l u ∧ Yields (c.term none q.right) u r s₂ ∧
          q.Renders l r v) ∧
    ∀ v, v.Occurs t → v.text <:+: t.text ∧ (v.comparesNull = true ↔
      ∃ n ∈ e.nodes, ∃ s₁ s₂, Yields (c.term none n) s₁ v s₂ ∧ c.ComparesNull none n s₁) := by
  refine ⟨fun n _ hfolded _ _ _ hrun => isNullWord_of_isFolded hfolded hrun,
    fun n _ q hq href _ _ _ hrun => renders_of_equation? hq href hrun, fun v hv => ?_⟩
  refine ⟨hv.infix_text, fun hnull => ?_, ?_⟩
  · exact traces_term c none e.nodes e (fun _ hn => hn) s t s' h v hv hnull
  · rintro ⟨n, -, s₁, s₂, hrun, hcompares⟩
    exact hcompares.comparesNull hrun

-- A missing rating, looked for by the operator and by the method.

def unratedPosts : Expr :=
  .binary 10 .and
    (.binary 4 .notEqual (.constant 3 .null) (postColumn 1 "Rating"))
    (.call 9 (.captured 5 "none" 0) "Equals" [postColumn 6 "Rating"])

theorem comparesNull_iff_unratedPosts :
    ∃ (t v : Term) (n : Expr) (s : State),
      Yields (exactCompiler.expression (some unratedPosts)) {} t {} ∧
      t.text = "(\"rating\" IS NOT NULL AND (NULL = \"rating\"))" ∧ v.Occurs t ∧
      v.text = "(NULL = \"rating\")" ∧ v.text <:+: t.text ∧ n ∈ unratedPosts.nodes ∧
      exactCompiler.ComparesNull none n s := by
  have hterm : Yields (exactCompiler.expression (some unratedPosts)) {}
      (.operation .and (.isNull (.column none "rating") true)
        (.operation .equal .null (.column none "rating"))) {} := by rfl
  obtain ⟨-, -, hparts⟩ := comparesNull_iff hterm
  have hoccurs : (Term.operation .equal .null (.column none "rating")).Occurs
      (.operation .and (.isNull (.column none "rating") true)
        (.operation .equal .null (.column none "rating"))) :=
    .inside (by simp [Term.operands]) .here
  obtain ⟨htext, hcompares⟩ := hparts _ hoccurs
  obtain ⟨n, hn, s, -, -, hnull⟩ := hcompares.mp rfl
  exact ⟨_, _, n, s, hterm, by decide, hoccurs, by decide, htext, hn, hnull⟩

end Compiler

end EntitySql.Sql
