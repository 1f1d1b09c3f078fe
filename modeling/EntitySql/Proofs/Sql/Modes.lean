import EntitySql.Proofs.Sql.Inlining
import EntitySql.Schema.Catalogue

-- Compiling to literals and compiling to placeholders. Both go the same way as
-- long as no known text is searched for, and the literals of what one binds are
-- what the other one writes.

namespace EntitySql.Sql.Compiler

-- The literals of the values that are bound.
abbrev Written (bindings : List Binding) (literals : List Text) : Prop :=
  List.Forall₂ (fun b l => literal b.value = .ok l) bindings literals

-- The same accessors have been found, and every value bound has a literal.
def SameCache (s s' : State) : Prop :=
  s.cache = s'.cache ∧ ∃ literals, Written s'.bindings literals

-- The literals of all that is bound make one text of the other one.
structure Alike (bindings : List Binding) (t t' : Term) : Prop where
  isNullWord : t.isNullWord = t'.isNullWord
  inlines : ∀ literals, Written bindings literals → Inlining.Inlines literals t'.text t.text

theorem Alike.frame {bindings : List Binding} {t : Term} {operands : List Term} (ht : t.IsFrame)
    (h : List.Forall₂ (Alike bindings) t.operands operands) :
    Alike bindings t (t.withOperands operands) where
  isNullWord := (t.isNullWord_withOperands operands).symm
  inlines literals hliterals :=
    Inlining.inlines_withOperands ht (h.imp fun _ _ hoperand => hoperand.inlines literals hliterals)

theorem Alike.column (bindings : List Binding) (table : Option Text) (name : Text) :
    Alike bindings (.column table name) (.column table name) where
  isNullWord := rfl
  inlines _ _ := (Inlining.keeps_columnText table name).closed.inlines

variable {c : Compiler}

-- Values.

theorem Written.literals_getElem? {bindings : List Binding} {literals : List Text}
    (h : Written bindings literals) {index : Nat} {b : Binding} {l : Text}
    (hb : bindings[index]? = some b) (hl : literal b.value = .ok l) : literals[index]? = some l := by
  induction h generalizing index with
  | nil => simp at hb
  | cons hfirst _ ih =>
    cases index with
    | zero =>
      cases hb
      rw [hl] at hfirst
      cases hfirst
      rfl
    | succ index => exact ih hb

theorem follows_placeholder {v : Value} {l : Text} (hl : literal v = .ok l) :
    Follows SameCache (fun _ => True) Alike (pure (.value l)) (placeholder v) := by
  rintro s s' t u ⟨hcache, literals, hliterals⟩ - ht
  obtain ⟨rfl, rfl⟩ := Yields.pure_iff.mp ht
  have hpush : Yields (placeholder v) s' (.placeholder s'.bindings.length) (s'.push v) := rfl
  refine ⟨_, _, hpush, ⟨hcache, literals ++ [l], ?_⟩, List.prefix_append _ _, ?_⟩
  · exact List.rel_append hliterals (.cons hl .nil)
  · rintro final ⟨more, rfl⟩
    refine ⟨rfl, fun literals hliterals => Inlining.inlines_parameterName ?_⟩
    exact hliterals.literals_getElem? (b := ⟨parameterName s'.bindings.length, v⟩)
      (by simp [State.push]) hl

-- The same compiler, with values written into the text or bound.
def withMode (c : Compiler) (mode : Mode) : Compiler := { c with mode := mode }

-- Where the current time is not looked for, both modes treat values alike.
theorem follows_constant (hnow : c.options.nowHeuristic = false) (v : Value) :
    Follows SameCache (fun _ => True) Alike ((c.withMode .literal).constant v)
      ((c.withMode .parameterized).constant v) := by
  have hcurrent (mode : Mode) : (c.withMode mode).isCurrent v = false := by
    cases v <;> simp [isCurrent, withMode, hnow]
  unfold constant
  rw [hcurrent, hcurrent]
  refine .ite (fun _ => .pure fun _ _ => .frame (t := .null) trivial .nil) fun _ => ?_
  exact .ite (fun h => nomatch h) fun _ => .lift_bind_left fun l hl => follows_placeholder hl

theorem follows_member {source owner : Expr} {name : Text} {p : Parameter} {x y : Step Term}
    (hroot : owner.rootParameter? = some p) (h : Follows SameCache (fun _ => True) Alike x y) :
    Follows SameCache (fun _ => True) Alike
      ((c.withMode .literal).member none source owner name x)
      ((c.withMode .parameterized).member none source owner name y) := by
  unfold member
  rw [hroot]
  refine .ite (fun _ => ?_) fun _ => .ite (fun _ => ?_) fun _ => ?_
  · refine .lift fun t ht => ?_
    obtain ⟨_, hnone, -⟩ := exists_groupKey_of_groupMember ht
    cases hnone
  · exact .bind h fun t t' _ => .pure fun bindings ⟨_, ht⟩ =>
      .frame (t := .apply .length t) trivial (.cons ht .nil)
  · refine .lift fun t ht => ⟨t, ht, fun bindings _ => ?_⟩
    obtain ⟨table, column, rfl⟩ := exists_column_of_rowMember ht
    exact .column bindings table column

-- Every known text that an expression looks for would be written as a pattern.
def modes (c : Compiler) (hnow : c.options.nowHeuristic = false) :
    (c.withMode .literal).Simulation (c.withMode .parameterized) none none where
  related := SameCache
  alike := Alike
  admits n := ∀ p, Searches (c.withMode .literal) n p → p.referencesParameter = true
  isNullWord h := h.isNullWord
  frame := .frame
  grouped := rfl
  ignoreCase := rfl
  constant := follows_constant hnow
  extract e _ := follows_extract (fun e => by cases e <;> rfl) (fun h => h.1)
    (fun _ h => ⟨rfl, h.2⟩) e
  member hroot _ := follows_member hroot
  search _ hnode hsearch _ _ hknown := by
    rw [hnode _ hsearch] at hknown
    cases hknown
  agrees _ _ := .of_field? (fun e => by cases e <;> rfl) _

-- What compiles with literals compiles with placeholders, and the literals of
-- the values bound there, put in the places of the placeholders, make the same
-- text.
theorem inlined_parameterized (c : Compiler) (hnow : c.options.nowHeuristic = false) {e : Expr}
    (hpatterns : ∀ n ∈ e.nodes, ∀ p, Searches (c.withMode .literal) n p →
      p.referencesParameter = true) {s u : State} (hs : s.bindings = []) {t : Term}
    (h : Yields ((c.withMode .literal).expression (some e)) s t u) :
    ∃ t' u' literals, Yields ((c.withMode .parameterized).expression (some e)) s t' u' ∧
      List.Forall₂ (fun b l => literal b.value = .ok l) u'.bindings literals ∧
      Inlining.inlined literals t'.text = t.text := by
  have hstart : SameCache s s := ⟨rfl, [], by rw [hs]; exact .nil⟩
  obtain ⟨t', u', hy, ⟨-, literals, hliterals⟩, -, halike⟩ :=
    (c.modes hnow).simulates_term e hpatterns s s t u hstart (fun _ _ => trivial) h
  refine ⟨t', u', literals, hy, hliterals, ?_⟩
  exact ((halike _ List.prefix_rfl).inlines literals hliterals).inlined_eq

-- A pattern that is a column, a number and a text.

def exactCompiler : Compiler where
  registry := Catalogue.registry
  options := { nowHeuristic := false }
  now := 0
  captures := fun _ => .null

def postColumn (id : NodeId) (name : Text) : Expr :=
  .member (id + 1) (.parameter id ⟨"p", Catalogue.post, false⟩) name

def searchedPosts : Expr :=
  .binary 14 .and
    (.call 4 (postColumn 0 "Title") "EndsWith" [postColumn 2 "Title"])
    (.binary 13 .or
      (.binary 8 (.compare .greater) (postColumn 5 "Views") (.constant 7 (.int 5)))
      (.binary 12 .equal (postColumn 9 "Title") (.constant 11 (.string "it's"))))

theorem inlined_parameterized_searchedPosts :
    ∃ t u t' u' literals,
      Yields ((exactCompiler.withMode .literal).expression (some searchedPosts)) {} t u ∧
      Yields ((exactCompiler.withMode .parameterized).expression (some searchedPosts)) {} t' u' ∧
      List.Forall₂ (fun b l => literal b.value = .ok l) u'.bindings literals ∧
      Inlining.inlined literals t'.text = t.text := by
  have hpatterns : ∀ n ∈ searchedPosts.nodes, ∀ p,
      Searches (exactCompiler.withMode .literal) n p → p.referencesParameter = true := by
    intro n hn p hsearch
    simp only [searchedPosts, postColumn, Expr.nodes, Expr.nodesOf, List.append_nil,
      List.cons_append, List.nil_append, List.mem_cons, List.not_mem_nil, or_false] at hn
    rcases hn with rfl | rfl | rfl | rfl | rfl | rfl | rfl | rfl | rfl | rfl | rfl | rfl | rfl |
      rfl | rfl
    all_goals rcases hsearch with h | h
    cases h
    rfl
  obtain ⟨t', u', literals, hrest⟩ :=
    inlined_parameterized exactCompiler rfl hpatterns (s := {}) rfl (by rfl)
  exact ⟨_, _, t', u', literals, by rfl, hrest⟩

end EntitySql.Sql.Compiler
