import EntitySql.Proofs.Sql.Accessors
import EntitySql.Proofs.Sql.Ledger
import EntitySql.Proofs.Sql.Modes

-- What becomes of the values that are bound: all of them are named in the
-- text, but for those of a membership test of which only FALSE is left. The
-- item that is looked for in an empty list is compiled and then left out.

namespace EntitySql.Sql.Compiler

variable {c : Compiler} {nodes : List Expr} {group : GroupColumns} {s t u v : State} {i : Nat}

-- A state that compiling the nodes may lead to. It has more bindings, and
-- the cache has no other accessors than before, but for those of the nodes.
structure Progress (c : Compiler) (nodes : List Expr) (s u : State) : Prop where
  bindings : s.bindings <+: u.bindings
  cache : ∀ found ∈ u.cache, ∃ old ∈ s.cache, ∀ entry ∈ found.entries, entry ∈ old.entries ∨
    ∃ n ∈ nodes, entry.1 = (c.rootType, n.id) ∧ Eval.accessor c.registry n = .ok entry.2

namespace Progress

theorem refl (s : State) : Progress c nodes s s :=
  ⟨List.prefix_rfl, fun found hfound => ⟨found, hfound, fun _ hentry => .inl hentry⟩⟩

theorem trans (h : Progress c nodes s t) (h' : Progress c nodes t u) : Progress c nodes s u where
  bindings := h.bindings.trans h'.bindings
  cache := by
    intro found hfound
    obtain ⟨between, hbetween, hentries'⟩ := h'.cache found hfound
    obtain ⟨old, hold, hentries⟩ := h.cache between hbetween
    refine ⟨old, hold, fun entry hentry => ?_⟩
    rcases hentries' entry hentry with hentry | hnode
    · exact hentries entry hentry
    · exact .inr hnode

theorem push (s : State) (v : Value) : Progress c nodes s (s.push v) :=
  ⟨List.prefix_append _ _, (refl s).cache⟩

theorem accessor {n : Expr} {a : Accessor} (hn : n ∈ nodes) (h : Yields (c.accessor n) s a u) :
    Progress c nodes s u where
  bindings := (bindings_of_accessor h).symm ▸ List.prefix_rfl
  cache := by
    intro found hfound
    cases hcache : s.cache with
    | none =>
      rw [((yields_accessor_none hcache).mp h).2, hcache] at hfound
      cases hfound
    | some cache =>
      obtain ⟨hentries, -⟩ := LruCache.forall_getOrAdd (c.rootType, n.id)
        (P := fun entry => entry ∈ cache.entries ∨
          ∃ n ∈ nodes, entry.1 = (c.rootType, n.id) ∧ Eval.accessor c.registry n = .ok entry.2)
        (fun entry hentry => .inl hentry) fun a ha => .inr ⟨n, hn, rfl, ha⟩
      rw [((yields_accessor_some hcache).mp h).2] at hfound
      cases hfound
      exact ⟨cache, rfl, hentries⟩

end Progress

-- The place was taken while a membership test was compiled that then became
-- the word FALSE.
def Dropped (c : Compiler) (group : GroupColumns) (nodes : List Expr) (s u : State) (i : Nat) : Prop :=
  ∃ n ∈ nodes, n.isMembership = true ∧ ∃ s₁ u₁, Progress c nodes s s₁ ∧
    Yields (c.term group n) s₁ .falsity u₁ ∧ Progress c nodes u₁ u ∧
    s₁.bindings.length ≤ i ∧ i < u₁.bindings.length

theorem Dropped.mono (h : Dropped c group nodes t u i) (hbefore : Progress c nodes s t)
    (hafter : Progress c nodes u v) : Dropped c group nodes s v i := by
  obtain ⟨n, hn, hmembership, s₁, u₁, hstart, hrun, hend, hplace⟩ := h
  exact ⟨n, hn, hmembership, s₁, u₁, hbefore.trans hstart, hrun, hend.trans hafter, hplace⟩

structure Accounts (c : Compiler) (group : GroupColumns) (nodes : List Expr) (s u : State)
    (names : List Text) : Prop where
  progress : Progress c nodes s u
  named : ∀ i b, s.bindings.length ≤ i → u.bindings[i]? = some b →
    b.name ∈ names ∨ Dropped c group nodes s u i

namespace Accounts

-- Where nothing is bound, there is nothing to account for.
theorem of_bindings_eq (h : Progress c nodes s u) (hsame : u.bindings = s.bindings) (names : List Text) :
    Accounts c group nodes s u names where
  progress := h
  named := by
    intro i b hle hb
    rw [hsame, List.getElem?_eq_none hle] at hb
    cases hb

theorem trans {names others : List Text} (h : Accounts c group nodes s t names)
    (h' : Accounts c group nodes t u others) : Accounts c group nodes s u (names ++ others) where
  progress := h.progress.trans h'.progress
  named := by
    intro i b hle hb
    rw [List.mem_append]
    by_cases hi : i < t.bindings.length
    · obtain ⟨more, hmore⟩ := h'.progress.bindings
      rw [← hmore, List.getElem?_append_left hi] at hb
      rcases h.named i b hle hb with hname | hdropped
      · exact .inl (.inl hname)
      · exact .inr (hdropped.mono (.refl s) h'.progress)
    · rcases h'.named i b (by omega) hb with hname | hdropped
      · exact .inl (.inr hname)
      · exact .inr (hdropped.mono h.progress (.refl u))

theorem push (s : State) (v : Value) :
    Accounts c group nodes s (s.push v) [parameterName s.bindings.length] where
  progress := .push s v
  named := by
    intro i b hle hb
    have hplace : i = s.bindings.length := by
      obtain ⟨hlt, -⟩ := List.getElem?_eq_some_iff.mp hb
      rw [State.push, List.length_append, List.length_singleton] at hlt
      omega
    rw [State.push, hplace, List.getElem?_concat_length] at hb
    rw [← Option.some.inj hb]
    exact .inl (List.mem_singleton_self _)

end Accounts

def accounting (c : Compiler) (group : GroupColumns) (nodes : List Expr) :
    Ledger c group fun n => n ∈ nodes where
  books := Accounts c group nodes
  refl s := .of_bindings_eq (.refl s) rfl []
  trans := .trans
  push := .push
  accessor hn ha := .of_bindings_eq (.accessor hn ha) (bindings_of_accessor ha) []
  groupMember s _ := .of_bindings_eq (.refl s) rfl _
  rowMember s _ := .of_bindings_eq (.refl s) rfl _
  emptied := by
    intro e s u names he hmembership hrun h
    refine ⟨h.progress, fun i b hle hb => .inr ?_⟩
    obtain ⟨hlt, -⟩ := List.getElem?_eq_some_iff.mp hb
    exact ⟨e, he, hmembership, s, u, .refl s, hrun, .refl u, hle, hlt⟩

-- Every value that compiling an expression binds has its placeholder in the
-- text, unless it was bound for a membership test that became FALSE.
theorem bound_named_or_dropped (hmode : c.mode = .parameterized) {e : Expr} {term : Term}
    (h : Yields (c.expression (some e)) s term u) :
    s.bindings <+: u.bindings ∧ ∀ i b, s.bindings.length ≤ i → u.bindings[i]? = some b →
      b.name ∈ placeholders term.text ∨ Dropped c none e.nodes s u i := by
  have hbooked : Accounts c none e.nodes s u term.placeholders :=
    ((accounting c none e.nodes).tracks_term hmode e fun _ hn => hn).booked h
  exact ⟨hbooked.progress.bindings, hbooked.named⟩

-- An empty list does not have the views of a post and one more.
def emptyListPosts : Expr :=
  .binary 12 .and
    (.call 7 (.array 6 []) "Contains"
      [.binary 5 (.arithmetic .add) (postColumn 2 "Views") (.constant 4 (.int 1))])
    (.binary 11 .equal (postColumn 8 "Title") (.constant 10 (.string "x")))

theorem bound_named_or_dropped_emptyListPosts : ∃ t u,
    Yields ((exactCompiler.withMode .parameterized).expression (some emptyListPosts)) {} t u ∧
    t.text = "(FALSE AND (\"title\" = @p1))" ∧
    u.bindings.map Binding.name = [parameterName 0, parameterName 1] ∧
    parameterName 1 ∈ placeholders t.text ∧ parameterName 0 ∉ placeholders t.text ∧
    Dropped (exactCompiler.withMode .parameterized) none emptyListPosts.nodes {} u 0 := by
  obtain ⟨t, u, hrun, htext, hnames⟩ : ∃ t u,
      Yields ((exactCompiler.withMode .parameterized).expression (some emptyListPosts)) {} t u ∧
      t.text = "(FALSE AND (\"title\" = @p1))" ∧
      u.bindings.map Binding.name = [parameterName 0, parameterName 1] :=
    ⟨_, _, by rfl, by rfl, by rfl⟩
  have hnamed : parameterName 1 ∈ placeholders t.text := by
    rw [htext]
    decide
  have hmissing : parameterName 0 ∉ placeholders t.text := by
    rw [htext]
    decide
  obtain ⟨b, hb, hname⟩ : ∃ b, u.bindings[0]? = some b ∧ b.name = parameterName 0 := by
    have hfirst := congrArg (·[0]?) hnames
    simp only [List.getElem?_map] at hfirst
    exact Option.map_eq_some_iff.mp hfirst
  have hdropped := (bound_named_or_dropped rfl hrun).2 0 b (Nat.zero_le _) hb
  rw [hname] at hdropped
  exact ⟨t, u, hrun, htext, hnames, hnamed, hmissing, hdropped.resolve_left hmissing⟩

end EntitySql.Sql.Compiler
