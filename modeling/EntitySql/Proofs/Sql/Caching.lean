import EntitySql.Proofs.Expr.Nodes
import EntitySql.Proofs.Sql.Accessors
import EntitySql.Sql.Compiler.Expression

-- Compiling cannot tell an honest cache from another one, or from none: the
-- result or the error is the same, and so is what has been bound.

namespace EntitySql

-- Steps that cannot tell related states apart.

section

variable {σ α β : Type}

def Blind (R : σ → σ → Prop) (x : ExceptT Error (StateM σ) α) : Prop :=
  ∀ s s', R s s' → (x.run.run s).run.1 = (x.run.run s').run.1 ∧
    R (x.run.run s).run.2 (x.run.run s').run.2

namespace Blind

variable {R : σ → σ → Prop} {x y : ExceptT Error (StateM σ) α}

protected theorem pure (a : α) : Blind R (pure a : ExceptT Error (StateM σ) α) :=
  fun _ _ h => ⟨rfl, h⟩

protected theorem throw (e : Error) : Blind R (throw e : ExceptT Error (StateM σ) α) :=
  fun _ _ h => ⟨rfl, h⟩

-- A step that fails is not followed by another one.
theorem throw_bind (e : Error) (f : β → ExceptT Error (StateM σ) α) :
    Blind R ((throw e : ExceptT Error (StateM σ) β) >>= f) :=
  fun _ _ h => ⟨rfl, h⟩

protected theorem lift (r : Result α) : Blind R (liftM r : ExceptT Error (StateM σ) α) := by
  cases r with
  | error e => exact .throw e
  | ok a => exact .pure a

protected theorem bind {f : α → ExceptT Error (StateM σ) β} (hx : Blind R x)
    (hf : ∀ a, Blind R (f a)) : Blind R (x >>= f) := by
  intro s s' hs
  obtain ⟨hresult, hstates⟩ := hx s s' hs
  rw [Yields.run_bind, Yields.run_bind]
  cases hfirst : (x.run.run s).run with
  | mk r t =>
    cases hsecond : (x.run.run s').run with
    | mk r' t' =>
      rw [hfirst, hsecond] at hresult hstates
      obtain rfl : r = r' := hresult
      cases r with
      | error e => exact ⟨rfl, hstates⟩
      | ok a => exact hf a t t' hstates

protected theorem map {f : α → β} (hx : Blind R x) : Blind R (f <$> x) := by
  rw [← bind_pure_comp]
  exact .bind hx fun a => .pure (f a)

protected theorem ite {c : Prop} [Decidable c] (hx : c → Blind R x) (hy : ¬c → Blind R y) :
    Blind R (if c then x else y) := by
  by_cases h : c
  · rw [if_pos h]
    exact hx h
  · rw [if_neg h]
    exact hy h

protected theorem mapM {f : β → ExceptT Error (StateM σ) α} {items : List β}
    (h : ∀ b ∈ items, Blind R (f b)) : Blind R (items.mapM f) := by
  induction items with
  | nil => exact .pure []
  | cons b rest ih =>
    rw [List.mapM_cons]
    refine .bind (h b (by simp)) fun a => ?_
    exact .bind (ih fun d hd => h d (List.mem_cons_of_mem b hd)) fun more => .pure (a :: more)

protected theorem option {f : β → ExceptT Error (StateM σ) α} {item : Option β}
    (h : ∀ b ∈ item, Blind R (f b)) : Blind R (item.mapM f) := by
  cases item with
  | none => exact .pure none
  | some b => exact .map (h b rfl)

end Blind

end

namespace LruCache

variable {κ α ε : Type} [DecidableEq κ]

-- Where a resident entry is what the factory makes, the cache answers as the
-- factory does.
theorem getOrAdd_fst {c : LruCache κ α} {key : κ} {factory : Except ε α}
    (h : ∀ a, c.find? key = some a → factory = .ok a) : (c.getOrAdd key factory).1 = factory := by
  unfold getOrAdd getOrMake lookUp
  cases hslot : c.table.lookup key with
  | some slot => exact (h slot.value (by rw [find?, hslot]; rfl)).symm
  | none =>
    cases factory with
    | error e => rfl
    | ok a => simp only [store, hslot]

end LruCache

namespace Sql.Compiler

variable {names : Naming} {registry : Registry} {c : Compiler} {e : Expr}

-- The states that differ in their honest caches only.
structure SameBindings (names : Naming) (registry : Registry) (s s' : State) : Prop where
  bindings : s.bindings = s'.bindings
  honest : Honest names registry s.cache
  honest' : Honest names registry s'.cache

abbrev Transparent {α : Type} (names : Naming) (registry : Registry) (x : Step α) : Prop :=
  Blind (SameBindings names registry) x

theorem run_accessor_none (c : Compiler) (e : Expr) (bindings : List Binding) :
    ((c.accessor e).run.run ⟨bindings, none⟩).run =
      (Eval.accessor c.registry e, ⟨bindings, none⟩) := by
  unfold accessor
  cases Eval.accessor c.registry e <;> rfl

theorem run_accessor_some (c : Compiler) (e : Expr) (bindings : List Binding)
    (cache : AccessorCache) :
    ((c.accessor e).run.run ⟨bindings, some cache⟩).run =
      ((cache.getOrAdd (c.rootType, e.id) (Eval.accessor c.registry e)).1,
        ⟨bindings, some (cache.getOrAdd (c.rootType, e.id) (Eval.accessor c.registry e)).2⟩) := by
  have hrun : ((c.accessor e).run.run ⟨bindings, some cache⟩).run =
      ((liftM (cache.getOrAdd (c.rootType, e.id) (Eval.accessor c.registry e)).1 :
        Step Accessor).run.run
        ⟨bindings, some (cache.getOrAdd (c.rootType, e.id) (Eval.accessor c.registry e)).2⟩).run :=
    rfl
  rw [hrun]
  cases (cache.getOrAdd (c.rootType, e.id) (Eval.accessor c.registry e)).1 <;> rfl

-- Whatever the cache has kept or forgotten, the accessor is that of the node.
theorem run_accessor {s : State} (h : Honest names c.registry s.cache)
    (he : names e.id = some e) : ∃ cache, Honest names c.registry cache ∧
      ((c.accessor e).run.run s).run = (Eval.accessor c.registry e, ⟨s.bindings, cache⟩) := by
  obtain ⟨bindings, cache⟩ := s
  cases cache with
  | none => exact ⟨none, honest_none names c.registry, run_accessor_none c e bindings⟩
  | some cache =>
    have hfound : (cache.getOrAdd (c.rootType, e.id) (Eval.accessor c.registry e)).1 =
        Eval.accessor c.registry e := by
      refine LruCache.getOrAdd_fst fun a ha => ?_
      obtain ⟨e', he', ha'⟩ := h cache rfl _ (LruCache.mem_of_find? ha)
      obtain rfl : e = e' := Option.some.inj (he.symm.trans he')
      exact ha'
    refine ⟨_, (h.forall_getOrAdd he).1, ?_⟩
    rw [run_accessor_some, hfound]

theorem transparent_accessor (he : names e.id = some e) :
    Transparent names c.registry (c.accessor e) := by
  intro s s' h
  obtain ⟨cache, hcache, hrun⟩ := run_accessor h.honest he
  obtain ⟨cache', hcache', hrun'⟩ := run_accessor h.honest' he
  rw [hrun, hrun']
  exact ⟨rfl, h.bindings, hcache, hcache'⟩

theorem transparent_extract (he : names e.id = some e) :
    Transparent names c.registry (c.extract e) := by
  have hvalue : Transparent names c.registry
      (do
        let read ← c.accessor e
        read { captures := c.captures } : Step Value) :=
    .bind (transparent_accessor he) fun read => .lift _
  cases e with
  | constant id v => exact .pure v
  | _ => exact hvalue

theorem transparent_placeholder (v : Value) :
    Transparent names registry (placeholder v) := by
  intro s s' h
  refine ⟨?_, ?_, h.honest, h.honest'⟩
  · show Except.ok (Term.placeholder s.bindings.length) = .ok (.placeholder s'.bindings.length)
    rw [h.bindings]
  · show (s.push v).bindings = (s'.push v).bindings
    rw [State.push, State.push, h.bindings]

theorem transparent_constant (c : Compiler) (v : Value) :
    Transparent names registry (c.constant v) := by
  unfold constant
  refine .ite (fun _ => .pure _) fun _ => .ite (fun _ => .pure _) fun _ => ?_
  split
  · exact .bind (.lift _) fun t => .pure _
  · exact transparent_placeholder v

-- The nodes of the expression have names of their own.
abbrev AllNamed (names : Naming) (nodes : List Expr) : Prop := ∀ n ∈ nodes, names n.id = some n

theorem transparent_isText {e : Expr} (he : AllNamed names e.nodes) : Transparent names c.registry (c.isText e) := by
  have hextract := transparent_extract (c := c) (he e (Expr.mem_nodes_self e))
  cases e with
  | captured id name slot =>
    rw [isText]
    exact .bind hextract fun v => .pure _
  | member id owner name =>
    rw [isText]
    exact .ite (fun _ => .pure _) fun _ => .bind hextract fun v => .pure _
  | binary id op l r =>
    have hl : AllNamed names l.nodes := fun n hn => he n (by simp [Expr.nodes, hn])
    have hr : AllNamed names r.nodes := fun n hn => he n (by simp [Expr.nodes, hn])
    rw [isText]
    refine .ite (fun _ => ?_) fun _ => .pure _
    exact .bind (transparent_isText hl) fun found => .ite (fun _ => .pure _) fun _ =>
      transparent_isText hr
  | conditional id test ifTrue ifFalse =>
    have htrue : AllNamed names ifTrue.nodes := fun n hn => he n (by simp [Expr.nodes, hn])
    rw [isText]
    exact transparent_isText htrue
  | _ => exact .pure _
termination_by sizeOf e

-- A part of an expression that can be compiled with any honest cache.
structure Part.IsTransparent (names : Naming) (registry : Registry) (p : Part) : Prop where
  nodes : AllNamed names p.source.nodes
  term : Transparent names registry p.term
  elements : ∀ x ∈ p.elements, Transparent names registry x

section

variable {collection item target pattern amount : Part} {args : List Part}

theorem Part.IsTransparent.extract (h : item.IsTransparent names c.registry) :
    Transparent names c.registry (c.extract item.source) :=
  transparent_extract (h.nodes _ (Expr.mem_nodes_self _))

theorem transparent_searchPattern (h : pattern.IsTransparent names c.registry) (place : Placement) :
    Transparent names c.registry (c.searchPattern pattern place) := by
  unfold searchPattern
  refine .ite (fun _ => .bind h.term fun t => .pure _) fun _ => .bind h.extract fun v => ?_
  refine .ite (fun _ => .throw_bind _ _) fun _ => .bind (.lift _) fun text => ?_
  split
  · exact .bind (.lift _) fun t => .pure _
  · exact .bind (transparent_constant c _) fun t => .pure _

theorem transparent_like (htarget : target.IsTransparent names c.registry)
    (h : pattern.IsTransparent names c.registry) (place : Placement) :
    Transparent names c.registry (c.like target pattern place) :=
  .bind htarget.term fun _ => .bind (transparent_searchPattern h place) fun _ => .pure _

theorem transparent_containsKnown {source : Expr} (h : collection.IsTransparent names c.registry)
    (hitem : item.IsTransparent names c.registry) :
    Transparent names c.registry (c.containsKnown source collection item) := by
  refine .bind h.extract fun v => ?_
  split
  · exact transparent_like h hitem .anywhere
  · refine .bind hitem.term fun t => ?_
    exact .bind (.mapM fun v _ => transparent_constant c v) fun items => .pure _
  · exact .throw _

theorem transparent_contains {source : Expr} (h : collection.IsTransparent names c.registry)
    (hitem : item.IsTransparent names c.registry) :
    Transparent names c.registry (c.contains source collection item) := by
  unfold contains
  refine .ite (fun _ => ?_) fun _ => ?_
  · split
    · exact .bind hitem.term fun t => .bind h.term fun items => .pure _
    · exact transparent_like h hitem .anywhere
  · split
    · exact .bind hitem.term fun t => .bind (.mapM h.elements) fun items => .pure _
    · exact transparent_containsKnown h hitem

theorem transparent_containsCall {source : Expr} (method : Text) {target : Option Part}
    (htarget : ∀ p ∈ target, p.IsTransparent names c.registry)
    (hargs : ∀ p ∈ args, p.IsTransparent names c.registry) :
    Transparent names c.registry (c.containsCall source method target args) := by
  unfold containsCall
  split
  · exact transparent_contains (htarget _ rfl) (hargs _ (by simp))
  · exact transparent_contains (hargs _ (by simp)) (hargs _ (by simp))
  · exact .throw _

theorem transparent_aggregateCall (grouped : Bool) {source : Expr} (method : Text)
    (hargs : ∀ p ∈ args, p.IsTransparent names registry) :
    Transparent names registry (aggregateCall grouped source method args) := by
  unfold aggregateCall
  refine .ite (fun _ => .throw _) fun _ => ?_
  split
  · exact .pure _
  · exact .bind (hargs _ (by simp)).term fun t => .pure _
  · exact .throw _
  · exact .bind (hargs _ (by simp)).term fun t => .pure _

theorem transparent_addInterval {source : Expr} (t : Term)
    (h : amount.IsTransparent names c.registry) (unit : Eval.Interval) :
    Transparent names c.registry (c.addInterval source t amount unit) := by
  unfold addInterval
  refine .ite (fun _ => .bind h.term fun t => .pure _) fun _ => .bind h.extract fun v => ?_
  exact .ite (fun _ => .pure _) fun _ => .throw _

-- What is done with an argument, if it is there.
theorem transparent_argument {source : Expr} (method : Text)
    (hargs : ∀ p ∈ args, p.IsTransparent names registry) (index : Nat) {f : Part → Step Term}
    (hf : ∀ p, p.IsTransparent names registry → Transparent names registry (f p)) :
    Transparent names registry (do f (← argument source method args index)) := by
  unfold argument
  cases hfound : args[index]? with
  | none => exact .throw_bind _ f
  | some p => exact hf p (hargs p (List.mem_of_getElem? hfound))

theorem transparent_scalarCall {source : Expr} (method : Text) (t : Term)
    (hargs : ∀ p ∈ args, p.IsTransparent names c.registry) :
    Transparent names c.registry (c.scalarCall source method t args) := by
  unfold scalarCall
  refine .ite (fun _ => transparent_argument method hargs 0 fun p hp => ?_) fun _ => ?_
  · exact .bind hp.term fun other => .ite (fun _ => .pure _) fun _ => .pure _
  cases unaryFunction? method with
  | some f => exact .pure _
  | none =>
    refine .ite (fun _ => transparent_argument method hargs 0 fun p hp => ?_) fun _ => ?_
    · refine .bind hp.term fun start => ?_
      split
      · exact .pure _
      · next count hcount =>
        exact .bind (hargs count (List.mem_of_getElem? hcount)).term fun n => .pure _
    cases Eval.DatePart.ofMethod? method with
    | some part => exact .pure _
    | none =>
      cases Eval.Interval.ofMethod? method with
      | some unit =>
        exact transparent_argument method hargs 0 fun p hp => transparent_addInterval t hp unit
      | none =>
        refine .ite (fun _ => ?_) fun _ => .throw _
        split
        · exact .pure _
        · exact .bind (hargs _ (by simp)).term fun n => .pure _

theorem transparent_targetCall {source : Expr} (method : Text)
    (htarget : target.IsTransparent names c.registry)
    (hargs : ∀ p ∈ args, p.IsTransparent names c.registry) :
    Transparent names c.registry (c.targetCall source method target args) := by
  unfold targetCall
  refine .ite (fun _ => ?_) fun _ => .ite (fun _ => ?_) fun _ => ?_
  · exact transparent_argument method hargs 0 fun p hp => transparent_like htarget hp .start
  · exact transparent_argument method hargs 0 fun p hp => transparent_like htarget hp .finish
  · exact .bind htarget.term fun t => transparent_scalarCall method t hargs

theorem transparent_call (grouped : Bool) {source : Expr} (method : Text) {target : Option Part}
    (htarget : ∀ p ∈ target, p.IsTransparent names c.registry)
    (hargs : ∀ p ∈ args, p.IsTransparent names c.registry) :
    Transparent names c.registry (c.call grouped source method target args) := by
  unfold call
  refine .ite (fun _ => transparent_aggregateCall grouped method hargs) fun _ => ?_
  refine .ite (fun _ => transparent_containsCall method htarget hargs) fun _ => ?_
  cases target with
  | none => exact .throw _
  | some p => exact transparent_targetCall method (htarget p rfl) hargs

theorem transparent_binary (op : BinaryOp) {left right : Part}
    (hleft : left.IsTransparent names c.registry) (hright : right.IsTransparent names c.registry) :
    Transparent names c.registry (c.binary op left right) := by
  refine .bind hleft.term fun l => .bind hright.term fun r => ?_
  split
  case h_7 =>
    refine .bind (transparent_isText hleft.nodes) fun found => .ite (fun _ => .pure _) fun _ => ?_
    refine .bind (transparent_isText hright.nodes) fun found => ?_
    exact .ite (fun _ => .pure _) fun _ => .pure _
  all_goals exact .pure _

theorem transparent_conversion {operand : Part} (h : operand.IsTransparent names c.registry)
    (type : Option FieldType) : Transparent names c.registry (c.conversion operand type) := by
  refine .bind h.term fun t => ?_
  split
  · exact .ite (fun _ => .pure _) fun _ => .pure _
  · exact .bind (transparent_isText h.nodes) fun found => .ite (fun _ => .pure _) fun _ => .pure _
  · exact .pure _

theorem transparent_known {x : Step Term} (he : AllNamed names e.nodes)
    (hx : Transparent names c.registry x) : Transparent names c.registry (c.known e x) := by
  have hextract := transparent_extract (c := c) (he e (Expr.mem_nodes_self e))
  exact .ite (fun _ => hx) fun _ => .bind hextract fun v => transparent_constant c v

theorem transparent_member (group : GroupColumns) (source owner : Expr) (name : Text)
    {ownerTerm : Step Term} (h : Transparent names registry ownerTerm) :
    Transparent names registry (c.member group source owner name ownerTerm) := by
  have hlength : Transparent names registry (do return Term.apply .length (← ownerTerm)) :=
    .bind h fun _ => .pure _
  unfold member
  split
  · exact .ite (fun _ => hlength) fun _ => .throw _
  · exact .ite (fun _ => .lift _) fun _ => .ite (fun _ => hlength) fun _ => .lift _

end

mutual

-- By the recursion of the compiler.
theorem transparent_term (c : Compiler) (group : GroupColumns) (e : Expr)
    (he : AllNamed names e.nodes) : Transparent names c.registry (c.term group e) := by
  cases e with
  | constant id v =>
    rw [term]
    exact transparent_constant c v
  | parameter id p => exact .throw _
  | lambda id p body =>
    rw [term]
    exact transparent_term c group body fun n hn => he n (by simp [Expr.nodes, hn])
  | initializer id entity bindings => exact .throw _
  | array id items =>
    have hitems := transparent_terms c group items fun n hn => he n (by simp [Expr.nodes, hn])
    rw [term]
    exact .bind (.mapM hitems) fun terms => .pure _
  | captured id name slot =>
    rw [term]
    exact .bind (transparent_extract (he _ (Expr.mem_nodes_self _))) fun v =>
      transparent_constant c v
  | member id owner name =>
    have howner := transparent_term c group owner fun n hn => he n (by simp [Expr.nodes, hn])
    rw [term]
    exact transparent_known he (transparent_member group _ owner name howner)
  | binary id op l r =>
    have hl := transparent_term c group l fun n hn => he n (by simp [Expr.nodes, hn])
    have hr := transparent_term c group r fun n hn => he n (by simp [Expr.nodes, hn])
    rw [term]
    refine transparent_known he (transparent_binary op ⟨?_, hl, by simp⟩ ⟨?_, hr, by simp⟩)
    · exact fun n hn => he n (by simp [Expr.nodes, hn])
    · exact fun n hn => he n (by simp [Expr.nodes, hn])
  | not id operand =>
    have h := transparent_term c group operand fun n hn => he n (by simp [Expr.nodes, hn])
    rw [term]
    exact transparent_known he (.bind h fun t => .pure _)
  | negate id operand =>
    have h := transparent_term c group operand fun n hn => he n (by simp [Expr.nodes, hn])
    rw [term]
    exact transparent_known he (.bind h fun t => .pure _)
  | convert id operand type =>
    have hnodes : AllNamed names operand.nodes := fun n hn => he n (by simp [Expr.nodes, hn])
    have h := transparent_term c group operand hnodes
    rw [term]
    exact transparent_known he (transparent_conversion ⟨hnodes, h, by simp⟩ type)
  | conditional id test a b =>
    have htest := transparent_term c group test fun n hn => he n (by simp [Expr.nodes, hn])
    have ha := transparent_term c group a fun n hn => he n (by simp [Expr.nodes, hn])
    have hb := transparent_term c group b fun n hn => he n (by simp [Expr.nodes, hn])
    rw [term]
    exact transparent_known he
      (.bind htest fun test => .bind ha fun a => .bind hb fun b => .pure _)
  | call id target method args =>
    have hnodes : AllNamed names target.nodes := fun n hn => he n (by simp [Expr.nodes, hn])
    have htarget := transparent_term c group target hnodes
    have helements := transparent_elements c group target hnodes
    have hargs := transparent_parts c group args fun n hn => he n (by simp [Expr.nodes, hn])
    rw [term]
    refine transparent_known he (transparent_call _ method ?_ hargs)
    rintro p ⟨⟩
    exact ⟨hnodes, htarget, helements⟩
  | staticCall id method args =>
    have hargs := transparent_parts c group args fun n hn => he n (by simp [Expr.nodes, hn])
    rw [term]
    exact transparent_known he (transparent_call _ method (by simp) hargs)
termination_by sizeOf e

theorem transparent_elements (c : Compiler) (group : GroupColumns) (e : Expr)
    (he : AllNamed names e.nodes) :
    ∀ x ∈ c.elements group e, Transparent names c.registry x := by
  cases e with
  | array id items =>
    rw [elements]
    exact transparent_terms c group items fun n hn => he n (by simp [Expr.nodes, hn])
  | _ => simp [elements]
termination_by sizeOf e

theorem transparent_terms (c : Compiler) (group : GroupColumns) (items : List Expr)
    (h : AllNamed names (Expr.nodesOf items)) :
    ∀ x ∈ c.terms group items, Transparent names c.registry x := by
  cases items with
  | nil => simp [terms]
  | cons e rest =>
    rw [terms]
    have hfirst := transparent_term c group e fun n hn => h n (by simp [Expr.nodesOf, hn])
    have hrest := transparent_terms c group rest fun n hn => h n (by simp [Expr.nodesOf, hn])
    exact List.forall_mem_cons.mpr ⟨hfirst, hrest⟩
termination_by sizeOf items

theorem transparent_parts (c : Compiler) (group : GroupColumns) (args : List Expr)
    (h : AllNamed names (Expr.nodesOf args)) :
    ∀ p ∈ c.parts group args, p.IsTransparent names c.registry := by
  cases args with
  | nil => simp [parts]
  | cons e rest =>
    rw [parts]
    have hnodes : AllNamed names e.nodes := fun n hn => h n (by simp [Expr.nodesOf, hn])
    have hterm := transparent_term c group e hnodes
    have helements := transparent_elements c group e hnodes
    have hrest := transparent_parts c group rest fun n hn => h n (by simp [Expr.nodesOf, hn])
    exact List.forall_mem_cons.mpr ⟨⟨hnodes, hterm, helements⟩, hrest⟩
termination_by sizeOf args

end

theorem transparent_expression (c : Compiler) {e : Option Expr}
    (he : ∀ x ∈ e, AllNamed names x.nodes) : Transparent names c.registry (c.expression e) := by
  cases e with
  | none => exact .throw _
  | some e => exact transparent_term c none e (he e rfl)

theorem transparent_having (c : Compiler) {predicate : Option Expr}
    (h : ∀ x ∈ predicate, AllNamed names x.nodes) (columns : List Text) :
    Transparent names c.registry (c.having predicate columns) := by
  unfold having
  refine .ite (fun _ => .throw _) fun _ => ?_
  cases predicate with
  | none => exact .throw _
  | some e => exact transparent_term c (some columns) e (h e rfl)

theorem transparent_assignment (c : Compiler) (entity : Entity) (source : Expr)
    {binding : Text × Expr} (h : AllNamed names binding.2.nodes) :
    Transparent names c.registry (c.assignment entity source binding) := by
  unfold assignment
  split
  · exact .throw _
  · refine .bind (transparent_term c none binding.2 h) fun t => ?_
    split
    · exact .throw _
    · exact .pure _

theorem transparent_update (c : Compiler) {e : Option Expr}
    (he : ∀ x ∈ e, AllNamed names x.nodes) : Transparent names c.registry (c.update e) := by
  cases e with
  | none => exact .throw _
  | some e =>
    have hbody : AllNamed names e.body.nodes := fun n hn => he e rfl n (Expr.mem_nodes_of_body hn)
    unfold update
    rw [Option.map_some]
    split
    · next id type bindings hinitializer =>
      rw [Option.some.inj hinitializer] at hbody
      refine .bind (.lift _) fun entity => .bind (.mapM fun b hb => ?_) fun assignments => ?_
      · refine transparent_assignment c entity _ fun n hn => hbody n ?_
        simp [Expr.nodes, Expr.mem_nodesOfBindings hb hn]
      · exact .ite (fun _ => .throw_bind _ _) fun _ => .pure _
    · exact .throw _
    · exact .throw _

end Sql.Compiler

end EntitySql
