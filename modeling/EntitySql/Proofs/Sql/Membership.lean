import EntitySql.Proofs.Sql.Accessors
import EntitySql.Proofs.Sql.Modes
import EntitySql.Proofs.Sql.Reading

-- Membership in lists of values. The item and the elements are compiled in
-- turn and stand around the word IN, as long as the list itself reads no row.

namespace EntitySql

-- The collection and the item of a membership test.
def Expr.membership? : Expr → Option (Expr × Expr)
  | .call _ collection method (item :: _) =>
    if method == "Contains" then some (collection, item) else none
  | .staticCall _ method (collection :: item :: _) =>
    if method == "Contains" then some (collection, item) else none
  | _ => none

namespace Sql.Compiler

variable {c : Compiler} {group : GroupColumns} {names : Naming} {s s' : State}
variable {n collection item : Expr} {t : Term}

theorem yields_contains_of_membership? (hn : n.membership? = some (collection, item))
    (href : n.referencesParameter = true) (h : Yields (c.term group n) s t s') :
    Yields (c.contains n ⟨collection, c.term group collection, c.elements group collection⟩
      ⟨item, c.term group item, c.elements group item⟩) s t s' := by
  unfold Expr.membership? at hn
  split at hn
  · split at hn
    · next hmethod =>
      cases hn
      rw [eq_of_beq hmethod] at href h ⊢
      rw [term, known, if_pos href, call_contains] at h
      exact h
    · cases hn
  · split at hn
    · next hmethod =>
      cases hn
      rw [eq_of_beq hmethod] at href h ⊢
      rw [term, known, if_pos href, call_contains] at h
      exact h
    · cases hn
  · cases hn

-- The elements of a collection that is a list, as expressions.
inductive Collects (c : Compiler) : Expr → List Expr → Prop
  | literal (id : NodeId) (items : List Expr) : Collects c (.array id items) items
  | constant (id : NodeId) (values : List Value) :
    Collects c (.constant id (.array values)) (values.map (.constant id))
  | captured (id : NodeId) (name : Text) {slot : Nat} {values : List Value}
    (h : c.captures slot = .array values) :
    Collects c (.captured id name slot) (values.map (.constant id))

theorem compileAll_terms (items : List Expr) :
    compileAll (c.terms group items) = items.mapM (c.term group) := by
  rw [compileAll, terms_eq_map, List.mapM_map]
  rfl

theorem mapM_constant (group : GroupColumns) (id : NodeId) (values : List Value) :
    values.mapM c.constant = (values.map (.constant id)).mapM (c.term group) := by
  rw [List.mapM_map]
  rfl

theorem text_membership (found : Term) (items : List Term) :
    (membership found items).text = if items.isEmpty then Text.ofString "FALSE"
      else found.text ++ " IN (" ++ Text.commaJoin (items.map Term.text) ++ ")" := by
  unfold membership
  cases items with
  | nil => rfl
  | cons first rest =>
    rw [← Term.texts_eq_map]
    rfl

-- A run that compiles the item and then, one by one, the elements.
structure Lists (c : Compiler) (group : GroupColumns) (item : Expr) (elements : List Expr)
    (s s' : State) (found : Term) (items : List Term) : Prop where
  compiles : ∃ cache u, Yields (c.term group item) { s with cache := cache } found u ∧
    Yields (elements.mapM (c.term group)) u items s'
  length : items.length = elements.length

theorem Lists.of_yields {elements : List Expr} (cache : Option AccessorCache) {u : State}
    {found : Term} {items : List Term}
    (hitem : Yields (c.term group item) { s with cache := cache } found u)
    (hitems : Yields (elements.mapM (c.term group)) u items s') :
    Lists c group item elements s s' found items where
  compiles := ⟨cache, u, hitem, hitems⟩
  length := (Yields.forall₂_of_mapM (R := fun _ _ => True)
    (fun _ _ _ _ _ _ => trivial) hitems).length_eq.symm

theorem lists_of_containsKnown {source : Expr} {values : List Value}
    {elements others : List (Step Term)} (id : NodeId)
    (hvalue : ∀ v u, Yields (c.extract collection) s v u →
      v = .array values ∧ ∃ cache, u = { s with cache := cache })
    (h : Yields (c.containsKnown source ⟨collection, c.term group collection, elements⟩
      ⟨item, c.term group item, others⟩) s t s') :
    ∃ found items, Lists c group item (values.map (.constant id)) s s' found items ∧
      t = membership found items := by
  unfold containsKnown at h
  obtain ⟨v, u, hv, h⟩ := Yields.bind_iff.mp h
  obtain ⟨rfl, cache, rfl⟩ := hvalue v u hv
  obtain ⟨found, u, hitem, h⟩ := Yields.bind_iff.mp h
  obtain ⟨items, u', hitems, h⟩ := Yields.bind_iff.mp h
  obtain ⟨rfl, rfl⟩ := Yields.pure_iff.mp h
  rw [mapM_constant group id] at hitems
  exact ⟨found, items, .of_yields cache hitem hitems, rfl⟩

theorem extract_captured {id : NodeId} {name : Text} {slot : Nat}
    (hcache : Honest names c.registry s.cache)
    (hname : names id = some (.captured id name slot)) {v : Value}
    (h : Yields (c.extract (.captured id name slot)) s v s') :
    v = c.captures slot ∧ ∃ cache, s' = { s with cache := cache } := by
  obtain ⟨read, u, hread, h⟩ := Yields.bind_iff.mp h
  obtain ⟨haccessor, cache, -, rfl⟩ :=
    accessor_of_yields (e := .captured id name slot) hcache hname hread
  obtain ⟨hv, rfl⟩ := Yields.lift_iff.mp h
  cases haccessor
  cases hv
  exact ⟨rfl, cache, rfl⟩

theorem lists_of_collects {elements : List Expr} (hcollection : c.Collects collection elements)
    (hknown : collection.referencesParameter = false) (hcache : Honest names c.registry s.cache)
    (hname : names collection.id = some collection) {source : Expr} {others : List (Step Term)}
    (h : Yields (c.contains source
      ⟨collection, c.term group collection, c.elements group collection⟩
      ⟨item, c.term group item, others⟩) s t s') :
    ∃ found items, Lists c group item elements s s' found items ∧ t = membership found items := by
  unfold contains at h
  rw [if_neg (by simp [hknown])] at h
  cases hcollection with
  | literal id items =>
    obtain ⟨found, u, hitem, h⟩ := Yields.bind_iff.mp h
    obtain ⟨terms, u', hterms, h⟩ := Yields.bind_iff.mp h
    obtain ⟨rfl, rfl⟩ := Yields.pure_iff.mp h
    rw [Compiler.elements, compileAll_terms] at hterms
    exact ⟨found, terms, .of_yields s.cache hitem hterms, rfl⟩
  | constant id values =>
    refine lists_of_containsKnown id (fun v u hv => ?_) h
    obtain ⟨rfl, rfl⟩ := Yields.pure_iff.mp hv
    exact ⟨rfl, u.cache, rfl⟩
  | captured id name hslot =>
    refine lists_of_containsKnown id (fun v u hv => ?_) h
    rw [← hslot]
    exact extract_captured hcache hname hv

-- A list that reads the row is taken for a text.
theorem like_of_collects {elements : List Expr} (hcollection : c.Collects collection elements)
    (hread : collection.referencesParameter = true) {source : Expr} {others : List (Step Term)}
    (h : Yields (c.contains source
      ⟨collection, c.term group collection, c.elements group collection⟩
      ⟨item, c.term group item, others⟩) s t s') :
    ∃ items u wanted, Yields (elements.mapM (c.term group)) s items u ∧
      t = .like c.options.ignoreCase (.array items) wanted := by
  cases hcollection with
  | literal id items =>
    unfold contains at h
    rw [if_pos hread] at h
    unfold like at h
    obtain ⟨listed, u, hlisted, h⟩ := Yields.bind_iff.mp h
    obtain ⟨wanted, u', -, h⟩ := Yields.bind_iff.mp h
    obtain ⟨rfl, rfl⟩ := Yields.pure_iff.mp h
    rw [term, compileAll_terms] at hlisted
    obtain ⟨terms, u'', hterms, h⟩ := Yields.bind_iff.mp hlisted
    obtain ⟨rfl, rfl⟩ := Yields.pure_iff.mp h
    exact ⟨terms, _, wanted, hterms, rfl⟩
  | constant id values => cases hread
  | captured id name h => cases hread

-- Membership in a list of values is written with IN, with the elements of the
-- list, as many and in its order, unless an element reads the row.
theorem text_of_membership? {elements : List Expr}
    (hn : n.membership? = some (collection, item)) (href : n.referencesParameter = true)
    (hcollection : c.Collects collection elements) (hcache : Honest names c.registry s.cache)
    (hname : names collection.id = some collection) (h : Yields (c.term group n) s t s') :
    (collection.referencesParameter = false → ∃ found items,
      Lists c group item elements s s' found items ∧
        t.text = if elements.isEmpty then Text.ofString "FALSE"
          else found.text ++ " IN (" ++ Text.commaJoin (items.map Term.text) ++ ")") ∧
    (collection.referencesParameter = true → ∃ items u wanted,
      Yields (elements.mapM (c.term group)) s items u ∧
        t = .like c.options.ignoreCase (.array items) wanted) := by
  have hcontains := yields_contains_of_membership? hn href h
  refine ⟨fun hknown => ?_, fun hread => like_of_collects hcollection hread hcontains⟩
  obtain ⟨found, items, hlists, rfl⟩ :=
    lists_of_collects hcollection hknown hcache hname hcontains
  have hempty : items.isEmpty = elements.isEmpty := by
    rw [Bool.eq_iff_iff, List.isEmpty_iff_length_eq_zero, List.isEmpty_iff_length_eq_zero,
      hlists.length]
  refine ⟨found, items, hlists, ?_⟩
  rw [text_membership, hempty]

-- A known list of numbers, and a list of texts that has a column.

def listingCompiler : Compiler :=
  { exactCompiler with captures := fun _ => .array [.int 1, .int 2] }

def listedViews : Expr := .call 3 (.captured 2 "wanted" 0) "Contains" [postColumn 0 "Views"]

def mixedTitles : Expr := .array 4 [.constant 0 (.string "a"), postColumn 1 "Title"]

def mixedContains : Expr := .call 5 mixedTitles "Contains" [.constant 3 (.string "x")]

theorem text_of_membership?_mixedTitles :
    (∃ t u, Yields (listingCompiler.term none listedViews) {} t u ∧
      t.text = "\"views\" IN (1, 2)" ∧ ∃ found items,
        Lists listingCompiler none (postColumn 0 "Views")
          [.constant 2 (.int 1), .constant 2 (.int 2)] {} u found items ∧
        t.text = found.text ++ " IN (" ++ Text.commaJoin (items.map Term.text) ++ ")") ∧
    ∃ t u, Yields (listingCompiler.term none mixedContains) {} t u ∧
      t.text = "ARRAY['a', \"title\"] LIKE '%x%'" ∧
      ∃ items u wanted, Yields ([.constant 0 (.string "a"), postColumn 1 "Title"].mapM
        (listingCompiler.term none)) {} items u ∧ t = .like false (.array items) wanted := by
  have hlisted : Yields (listingCompiler.term none listedViews) {}
      (.isIn (.column none "views") [.value "1", .value "2"]) {} := by rfl
  have hmixed : Yields (listingCompiler.term none mixedContains) {}
      (.like false (.array [.value "'a'", .column none "title"]) (.value "'%x%'")) {} := by rfl
  have hcaptured := text_of_membership? (n := listedViews) rfl rfl (.captured 2 "wanted" rfl)
    (honest_none (fun _ => some (.captured 2 "wanted" 0)) _) rfl hlisted
  have hliteral := text_of_membership? (n := mixedContains) rfl rfl (.literal 4 _)
    (honest_none (fun _ => some mixedTitles) _) rfl hmixed
  exact ⟨⟨_, _, hlisted, by decide, hcaptured.1 rfl⟩, _, _, hmixed, by decide, hliteral.2 rfl⟩

end Sql.Compiler

end EntitySql
