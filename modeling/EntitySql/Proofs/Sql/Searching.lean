import EntitySql.Proofs.Eval.Known
import EntitySql.Proofs.Sql.Like
import EntitySql.Proofs.Sql.Modes
import EntitySql.Proofs.Sql.Moving
import EntitySql.Proofs.Sql.Reading

-- Searching a text for one that is known: the pattern that is written into the
-- filter or bound for it, against the value that the same call has.

namespace EntitySql.Sql.Compiler

-- The calls that test a text, with the place of the text searched for. The text
-- tested comes before the one searched for.
inductive TextTest : Expr → Placement → Expr → Expr → Prop where
  | edge {id target method pattern place} (h : placement? method = some place) :
      TextTest (.call id target method [pattern]) place target pattern
  | contained {id target pattern} :
      TextTest (.call id target "Contains" [pattern]) .anywhere target pattern
  | containedStatically {id target pattern} :
      TextTest (.staticCall id "Contains" [target, pattern]) .anywhere target pattern

variable {c : Compiler} {names : Naming} {e target pattern : Expr} {place : Placement}
variable {group : GroupColumns} {before after : State}

-- The value of a test.

theorem applyMethod_string (method t : Text) (args : List Value) (source : Expr) :
    Eval.applyMethod method (.string t) args source =
      Eval.scalarMethod method (.string t) args source := by
  rw [Eval.applyMethod] <;> simp

theorem applyMethod_contains (s t : Text) (source : Expr) :
    Eval.applyMethod "Contains" (.string t) [.string s] source =
      .ok (.bool (Placement.anywhere.finds s t)) := by
  rw [applyMethod_string, Eval.scalarMethod, if_pos (beq_self_eq_true _)]
  rfl

theorem applyMethod_edge {method : Text} (h : placement? method = some place) (s t : Text)
    (source : Expr) :
    Eval.applyMethod method (.string t) [.string s] source = .ok (.bool (place.finds s t)) := by
  rw [applyMethod_string, Eval.scalarMethod]
  rcases placement?_eq_some h with ⟨rfl, rfl⟩ | ⟨rfl, rfl⟩
  · rw [if_neg (by decide), if_pos (beq_self_eq_true _)]
    rfl
  · rw [if_neg (by decide), if_neg (by decide), if_pos (beq_self_eq_true _)]
    rfl

theorem exists_accessor_of_method {registry : Registry} {method : Text}
    {readTarget readPattern : Accessor}
    (haccessor : Eval.accessor registry e =
      .ok (Eval.methodAccessor method readTarget [readPattern] e))
    (happly : ∀ s t, Eval.applyMethod method (.string t) [.string s] e =
      .ok (.bool (place.finds s t))) :
    ∃ read, Eval.accessor registry e = .ok read ∧
      ∀ row s t, readTarget row = .ok (.string t) → readPattern row = .ok (.string s) →
        read row = .ok (.bool (place.finds s t)) := by
  refine ⟨_, haccessor, fun row s t htarget hpattern => ?_⟩
  have hcollect : Eval.collect [readPattern] row = .ok [.string s] := by
    rw [Eval.collect, List.mapM_cons, hpattern]
    rfl
  rw [Eval.methodAccessor, htarget, hcollect]
  exact happly s t

theorem TextTest.exists_accessor (h : TextTest e place target pattern) {registry : Registry}
    {readTarget readPattern : Accessor} (htarget : Eval.accessor registry target = .ok readTarget)
    (hpattern : Eval.accessor registry pattern = .ok readPattern) :
    ∃ read, Eval.accessor registry e = .ok read ∧
      ∀ row s t, readTarget row = .ok (.string t) → readPattern row = .ok (.string s) →
        read row = .ok (.bool (place.finds s t)) := by
  have hpatterns : Eval.accessors registry [pattern] = .ok [readPattern] := by
    rw [Eval.accessors, hpattern]
    rfl
  have hcontains : Eval.methods.elem ("Contains" : Text) = true := by decide
  cases h with
  | @edge _ _ method _ _ h =>
    have hmethod : Eval.methods.elem method = true := by
      rcases placement?_eq_some h with ⟨rfl, -⟩ | ⟨rfl, -⟩ <;> decide
    refine exists_accessor_of_method ?_ fun s t => applyMethod_edge h s t _
    rw [Eval.accessor, if_pos hmethod, htarget, hpatterns]
    rfl
  | contained =>
    refine exists_accessor_of_method ?_ fun s t => applyMethod_contains s t _
    rw [Eval.accessor, if_pos hcontains, htarget, hpatterns]
    rfl
  | containedStatically =>
    refine exists_accessor_of_method ?_ fun s t => applyMethod_contains s t _
    rw [Eval.accessor, if_pos hcontains, htarget, hpatterns]
    rfl

-- The filter of a test.

theorem not_yields_constant_like {v : Value} {ignoreCase : Bool} {l p : Term} :
    ¬Yields (c.constant v) before (.like ignoreCase l p) after := by
  intro h
  unfold constant at h
  rcases Yields.ite_iff.mp h with ⟨-, h⟩ | ⟨-, h⟩
  · cases (Yields.pure_iff.mp h).1
  rcases Yields.ite_iff.mp h with ⟨-, h⟩ | ⟨-, h⟩
  · cases (Yields.pure_iff.mp h).1
  cases hmode : c.mode with
  | literal =>
    rw [hmode] at h
    obtain ⟨_, -, h⟩ := Yields.lift_bind_iff.mp h
    cases (Yields.pure_iff.mp h).1
  | parameterized =>
    rw [hmode] at h
    cases h

-- A filter that compares depends on rows.
theorem of_yields_known_like {x : Step Term} {ignoreCase : Bool} {l p : Term}
    (h : Yields (c.known e x) before (.like ignoreCase l p) after) :
    e.referencesParameter = true ∧ Yields x before (.like ignoreCase l p) after := by
  by_cases he : e.referencesParameter = true
  · rw [known, if_pos he] at h
    exact ⟨he, h⟩
  · obtain ⟨v, u, -, hconstant⟩ := known_of_not_referencesParameter (by simpa using he) h
    exact absurd hconstant not_yields_constant_like

theorem of_yields_like {target pattern : Part} {ignoreCase : Bool} {l p : Term}
    (h : Yields (c.like target pattern place) before (.like ignoreCase l p) after) :
    ∃ middle, Yields target.term before l middle ∧
      Yields (c.searchPattern pattern place) middle p after := by
  unfold like at h
  obtain ⟨t, middle, ht, h⟩ := Yields.bind_iff.mp h
  obtain ⟨q, u, hq, h⟩ := Yields.bind_iff.mp h
  obtain ⟨heq, rfl⟩ := Yields.pure_iff.mp h
  cases heq
  exact ⟨middle, ht, hq⟩

-- A collection that is no text is searched by equality.
theorem of_yields_contains_like {source : Expr} {target pattern : Part} {ignoreCase : Bool}
    {l p : Term} (hsource : target.source.referencesParameter = true)
    (h : Yields (c.contains source target pattern) before (.like ignoreCase l p) after) :
    Yields (c.like target pattern .anywhere) before (.like ignoreCase l p) after := by
  unfold contains at h
  rw [if_pos hsource] at h
  split at h
  · obtain ⟨t, _, -, h⟩ := Yields.bind_iff.mp h
    obtain ⟨items, _, -, h⟩ := Yields.bind_iff.mp h
    cases (Yields.pure_iff.mp h).1
  · exact h

theorem TextTest.of_yields (h : TextTest e place target pattern)
    (hpattern : pattern.referencesParameter = false) {ignoreCase : Bool} {l p : Term}
    (hyields : Yields (c.term group e) before (.like ignoreCase l p) after) :
    ∃ middle, Yields (c.term group target) before l middle ∧
      Yields (c.searchPattern ⟨pattern, c.term group pattern, c.elements group pattern⟩ place)
        middle p after := by
  cases h with
  | edge h =>
    rw [term] at hyields
    obtain ⟨-, hcall⟩ := of_yields_known_like hyields
    have hlike := yields_like_of_call h hcall
    exact of_yields_like hlike
  | contained =>
    rw [term] at hyields
    obtain ⟨hsource, hcall⟩ := of_yields_known_like hyields
    rw [Expr.referencesParameter, Expr.anyReferencesParameter, Expr.anyReferencesParameter,
      hpattern, Bool.or_false, Bool.or_false] at hsource
    rw [call_contains] at hcall
    exact of_yields_like (of_yields_contains_like hsource hcall)
  | containedStatically =>
    rw [term] at hyields
    obtain ⟨hsource, hcall⟩ := of_yields_known_like hyields
    simp only [Expr.referencesParameter, Expr.anyReferencesParameter, hpattern, Bool.or_false]
      at hsource
    rw [call_contains] at hcall
    exact of_yields_like (of_yields_contains_like hsource hcall)

theorem TextTest.mem_nodes (h : TextTest e place target pattern) :
    (∀ n ∈ target.nodes, n ∈ e.nodes) ∧ pattern ∈ e.nodes := by
  have hself := pattern.mem_nodes_self
  cases h <;> simp +contextual [Expr.nodes, Expr.nodesOf, hself]

theorem honest_of_yields_term (hnames : ∀ n ∈ e.nodes, names n.id = some n)
    (hcache : Honest names c.registry before.cache) {t : Term}
    (h : Yields (c.term group e) before t after) : Honest names c.registry after.cache := by
  have hstart : Shifted names c.registry 0 before before := ⟨Nat.zero_le _, rfl, hcache, hcache⟩
  obtain ⟨t', after', hyields, hshifted, -, -⟩ :=
    (moving .same names 0 group).simulates_term e hnames before before t after hstart
      (fun _ _ => trivial) h
  exact hshifted.honest

-- The text that is searched for.

def StandsFor (c : Compiler) (e : Expr) (s : Text) : Prop :=
  ∃ read, Eval.accessor c.registry e = .ok read ∧ read { captures := c.captures } = .ok (.string s)

theorem StandsFor.unique {s s' : Text} (h : c.StandsFor e s) (h' : c.StandsFor e s') : s = s' := by
  obtain ⟨read, hread, hvalue⟩ := h
  obtain ⟨read', hread', hvalue'⟩ := h'
  cases hread.symm.trans hread'
  cases hvalue.symm.trans hvalue'
  rfl

theorem standsFor_of_yields (he : names e.id = some e)
    (hcache : Honest names c.registry before.cache) {v : Value} {s : Text}
    (h : Yields (c.extract e) before v after) (hs : v.asString = .ok s) : c.StandsFor e s := by
  obtain rfl : v = .string s := by
    cases v with
    | string t =>
      cases hs
      rfl
    | _ => cases hs
  have hread (h : Yields (do
      let read ← c.accessor e
      read { captures := c.captures } : Step Value) before (.string s) after) :
      c.StandsFor e s := by
    obtain ⟨read, _, haccessor, hvalue⟩ := Yields.bind_iff.mp h
    obtain ⟨hvalue, -⟩ := Yields.lift_iff.mp hvalue
    exact ⟨read, (accessor_of_yields hcache he haccessor).1, hvalue⟩
  cases e with
  | constant id v =>
    obtain ⟨rfl, -⟩ := Yields.pure_iff.mp h
    exact ⟨fun _ => .ok (.string s), rfl, rfl⟩
  | _ => exact hread h

-- The pattern of a text that is known.
def knownPattern (c : Compiler) (place : Placement) (s : Text) : Step Term :=
  match c.mode with
  | .literal => return .value (← stringLiteral (place.likePattern s))
  | .parameterized => return place.around (← c.constant (.string s))

theorem TextTest.exists_text (h : TextTest e place target pattern)
    (hpattern : pattern.referencesParameter = false) (hnames : ∀ n ∈ e.nodes, names n.id = some n)
    (hcache : Honest names c.registry before.cache) {ignoreCase : Bool} {l p : Term}
    (hyields : Yields (c.term group e) before (.like ignoreCase l p) after) :
    ∃ s u, c.StandsFor pattern s ∧ Yields (c.knownPattern place s) u p after := by
  obtain ⟨htarget, hmem⟩ := h.mem_nodes
  obtain ⟨middle, hl, hp⟩ := h.of_yields hpattern hyields
  have hmiddle := honest_of_yields_term (fun n hn => hnames n (htarget n hn)) hcache hl
  unfold searchPattern at hp
  rw [if_neg (by simp [hpattern])] at hp
  obtain ⟨v, u, hv, hp⟩ := Yields.bind_iff.mp hp
  obtain ⟨-, hp⟩ := Yields.guard_iff.mp hp
  obtain ⟨s, hs, hp⟩ := Yields.lift_bind_iff.mp hp
  exact ⟨s, u, standsFor_of_yields (hnames pattern hmem) hmiddle hv hs, hp⟩

theorem TextTest.exists_literal (hmode : c.mode = .literal) (h : TextTest e place target pattern)
    (hpattern : pattern.referencesParameter = false) (hnames : ∀ n ∈ e.nodes, names n.id = some n)
    (hcache : Honest names c.registry before.cache) {ignoreCase : Bool} {l p : Term}
    (hyields : Yields (c.term group e) before (.like ignoreCase l p) after) :
    ∃ s literal, c.StandsFor pattern s ∧ p = .value literal ∧
      stringLiteral (place.likePattern s) = .ok literal := by
  obtain ⟨s, u, hstands, hp⟩ := h.exists_text hpattern hnames hcache hyields
  unfold knownPattern at hp
  rw [hmode] at hp
  obtain ⟨literal, hliteral, hp⟩ := Yields.lift_bind_iff.mp hp
  obtain ⟨rfl, -⟩ := Yields.pure_iff.mp hp
  exact ⟨s, literal, hstands, rfl, hliteral⟩

-- The pattern that a bound text becomes.
def boundPattern? (bindings : List Binding) : Term → Option Text
  | .pattern leading trailing (.placeholder index) => do
    match (← bindings[index]?).value with
    | .string text => some (surrounded leading trailing text)
    | _ => none
  | _ => none

theorem boundPattern?_push (u : State) (place : Placement) (s : Text) :
    boundPattern? (u.push (.string s)).bindings (place.around (.placeholder u.bindings.length)) =
      some (surrounded place.leading place.trailing s) := by
  simp [Placement.around, boundPattern?, State.push]

theorem TextTest.exists_bound (hmode : c.mode = .parameterized)
    (h : TextTest e place target pattern) (hpattern : pattern.referencesParameter = false)
    (hnames : ∀ n ∈ e.nodes, names n.id = some n) (hcache : Honest names c.registry before.cache)
    {ignoreCase : Bool} {l p : Term}
    (hyields : Yields (c.term group e) before (.like ignoreCase l p) after) :
    ∃ s, c.StandsFor pattern s ∧ boundPattern? after.bindings p =
      some (surrounded place.leading place.trailing s) := by
  obtain ⟨s, u, hstands, hp⟩ := h.exists_text hpattern hnames hcache hyields
  have hconstant : c.constant (.string s) = placeholder (.string s) := by
    simp [constant, Value.isNull, isCurrent, hmode]
  unfold knownPattern at hp
  rw [hmode, hconstant] at hp
  obtain ⟨t, w, ht, hp⟩ := Yields.bind_iff.mp hp
  obtain ⟨rfl, rfl⟩ := Yields.pure_iff.mp hp
  have hpush : Yields (placeholder (.string s)) u (.placeholder u.bindings.length)
      (u.push (.string s)) := rfl
  obtain ⟨rfl, rfl⟩ := ht.unique hpush
  exact ⟨s, hstands, boundPattern?_push u place s⟩

-- Titles with a text that has a wildcard.

def discount : Expr := .constant 2 (.string "50%")

def discountedPosts : Expr := .call 3 (postColumn 0 "Title") "Contains" [discount]

def discountedNames : Naming := fun id => discountedPosts.nodes.find? (·.id == id)

theorem named_discountedPosts : ∀ n ∈ discountedPosts.nodes, discountedNames n.id = some n := by
  intro n hn
  simp only [discountedPosts, discount, postColumn, Expr.nodes, Expr.nodesOf, List.append_nil,
    List.cons_append, List.nil_append, List.mem_cons, List.not_mem_nil, or_false] at hn
  rcases hn with rfl | rfl | rfl | rfl <;> rfl

def titleFilter (pattern : Term) : Term := .like false (.column none "title") pattern

def boundDiscount : State := { bindings := [⟨"@p0", .string "50%"⟩] }

theorem yields_discountedPosts_literal :
    Yields ((exactCompiler.withMode .literal).term none discountedPosts) {}
      (titleFilter (.value "E'%50\\\\%%'")) {} := by
  rfl

theorem yields_discountedPosts_parameterized :
    Yields ((exactCompiler.withMode .parameterized).term none discountedPosts) {}
      (titleFilter (.pattern true true (.placeholder 0))) boundDiscount := by
  rfl

-- The pattern of a known text matches the texts in which that stands in the
-- place, and these are the ones of which the same call is true.
theorem accepts_literalPattern (hmode : c.mode = .literal) (h : TextTest e place target pattern)
    (hpattern : pattern.referencesParameter = false) (hnames : ∀ n ∈ e.nodes, names n.id = some n)
    (hcache : Honest names c.registry before.cache) {ignoreCase : Bool} {l p : Term}
    (hyields : Yields (c.term group e) before (.like ignoreCase l p) after) :
    (∀ s t,
      (Like.accepts ([Byte.percent] ++ likeEscape s ++ [Byte.percent]) t = true ↔ s <:+: t) ∧
      (Like.accepts (likeEscape s ++ [Byte.percent]) t = true ↔ s <+: t) ∧
      (Like.accepts ([Byte.percent] ++ likeEscape s) t = true ↔ s <:+ t)) ∧
    ∃ s literal, c.StandsFor pattern s ∧ p = .value literal ∧
      stringLiteral (place.likePattern s) = .ok literal ∧
      ∀ readTarget, Eval.accessor c.registry target = .ok readTarget →
        ∃ read, Eval.accessor c.registry e = .ok read ∧
          ∀ row t, row.captures = c.captures → readTarget row = .ok (.string t) →
            read row = .ok (.bool (Like.accepts (place.likePattern s) t)) := by
  refine ⟨fun s t => ⟨Like.accepts_containing, Like.accepts_starting, Like.accepts_ending⟩, ?_⟩
  obtain ⟨s, literal, hstands, rfl, hliteral⟩ :=
    h.exists_literal hmode hpattern hnames hcache hyields
  refine ⟨s, literal, hstands, rfl, hliteral, fun readTarget htarget => ?_⟩
  obtain ⟨readPattern, hreadPattern, hvalue⟩ := hstands
  obtain ⟨read, hread, hfinds⟩ := h.exists_accessor htarget hreadPattern
  refine ⟨read, hread, fun row t hrow ht => ?_⟩
  have hknown : readPattern row = .ok (.string s) := by
    rw [← hvalue]
    exact Eval.isKnown_accessor pattern hpattern hreadPattern row { captures := c.captures } hrow
  rw [Placement.accepts_likePattern]
  exact hfinds row s t ht hknown

theorem accepts_literalPattern_discountedPosts :
    ∃ s literal readTitle read,
      (exactCompiler.withMode .literal).StandsFor discount s ∧
      Term.value "E'%50\\\\%%'" = .value literal ∧
      stringLiteral (Placement.anywhere.likePattern s) = .ok literal ∧
      Eval.accessor Catalogue.registry (postColumn 0 "Title") = .ok readTitle ∧
      Eval.accessor Catalogue.registry discountedPosts = .ok read ∧
      ∀ row t, row.captures = exactCompiler.captures → readTitle row = .ok (.string t) →
        read row = .ok (.bool (Like.accepts (Placement.anywhere.likePattern s) t)) := by
  obtain ⟨-, s, literal, hstands, hvalue, hliteral, hread⟩ :=
    accepts_literalPattern (c := exactCompiler.withMode .literal) rfl .contained rfl
      named_discountedPosts (honest_none _ _) yields_discountedPosts_literal
  obtain ⟨readTitle, htitle⟩ :
      ∃ read, Eval.accessor Catalogue.registry (postColumn 0 "Title") = .ok read := ⟨_, rfl⟩
  obtain ⟨read, hread, hrows⟩ := hread readTitle htitle
  exact ⟨s, literal, readTitle, read, hstands, hvalue, hliteral, htitle, hread, hrows⟩

-- The text that is bound is not escaped, so both modes filter alike only if it
-- has no wildcards.
theorem modes_accept_alike_iff (h : TextTest e place target pattern)
    (hpattern : pattern.referencesParameter = false) (hnames : ∀ n ∈ e.nodes, names n.id = some n)
    {before' after' : State} (hcache : Honest names c.registry before.cache)
    (hcache' : Honest names c.registry before'.cache) {ignoreCase ignoreCase' : Bool}
    {l l' p p' : Term}
    (hyields : Yields ((c.withMode .literal).term group e) before (.like ignoreCase l p) after)
    (hyields' : Yields ((c.withMode .parameterized).term group e) before'
      (.like ignoreCase' l' p') after') :
    ∃ s literal bound, c.StandsFor pattern s ∧ p = .value literal ∧
      stringLiteral (place.likePattern s) = .ok literal ∧
      boundPattern? after'.bindings p' = some bound ∧
      ((∀ t, Like.accepts (place.likePattern s) t = Like.accepts bound t) ↔
        ∀ b ∈ s, isWildcard b = false) := by
  obtain ⟨s, literal, hstands, rfl, hliteral⟩ :=
    h.exists_literal (c := c.withMode .literal) rfl hpattern hnames hcache hyields
  obtain ⟨s', hstands', hbound⟩ :=
    h.exists_bound (c := c.withMode .parameterized) rfl hpattern hnames hcache' hyields'
  have hstandsFor : c.StandsFor pattern s := hstands
  obtain rfl : s = s' := hstandsFor.unique hstands'
  exact ⟨s, literal, surrounded place.leading place.trailing s, hstands, rfl, hliteral, hbound,
    place.forall_accepts_eq_iff s⟩

theorem modes_accept_alike_iff_discountedPosts :
    ∃ s literal bound, exactCompiler.StandsFor discount s ∧
      Term.value "E'%50\\\\%%'" = .value literal ∧
      stringLiteral (Placement.anywhere.likePattern s) = .ok literal ∧
      boundPattern? boundDiscount.bindings (.pattern true true (.placeholder 0)) = some bound ∧
      ((∀ t, Like.accepts (Placement.anywhere.likePattern s) t = Like.accepts bound t) ↔
        ∀ b ∈ s, isWildcard b = false) :=
  modes_accept_alike_iff (c := exactCompiler) .contained rfl named_discountedPosts
    (honest_none _ _) (honest_none _ _) yields_discountedPosts_literal
    yields_discountedPosts_parameterized

-- Five hundred of something has no discount.
theorem modes_differ_discountedPosts :
    Yields ((exactCompiler.withMode .literal).term none discountedPosts) {}
      (titleFilter (.value "E'%50\\\\%%'")) {} ∧
    stringLiteral (Placement.anywhere.likePattern "50%") = .ok "E'%50\\\\%%'" ∧
    Yields ((exactCompiler.withMode .parameterized).term none discountedPosts) {}
      (titleFilter (.pattern true true (.placeholder 0))) boundDiscount ∧
    boundPattern? boundDiscount.bindings (.pattern true true (.placeholder 0)) = some "%50%%" ∧
    Like.accepts (Placement.anywhere.likePattern "50%") "500 posts" = false ∧
    Like.accepts "%50%%" "500 posts" = true :=
  ⟨yields_discountedPosts_literal, by rfl, yields_discountedPosts_parameterized, by rfl,
    by decide +kernel, by decide +kernel⟩

end EntitySql.Sql.Compiler
