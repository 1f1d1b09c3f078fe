import EntitySql.Proofs.Sql.Fitting
import EntitySql.Proofs.Sql.Unquoted
import EntitySql.Schema.Catalogue

-- Comments in compiled expressions. All operators but the sign keep their
-- operands apart by blanks, commas or parentheses, so that two bytes that open
-- a comment can meet behind a sign only.

namespace EntitySql.Sql

open Outline (Fits Spaced reserved SingleSigned)
open Unquoted (Shows)
open Compiler (State)

variable {parts : List (Term × Text)} {t : Term}

-- The operands of a frame are as calm together as they are one by one.
theorem shows_spread {i : Nat} (hspaced : Spaced i parts) {calm : Term → Prop}
    (h : ∀ p ∈ parts, Shows p.1.text (calm p.1)) (hne : parts ≠ []) :
    Shows (Term.spread parts) (∀ p ∈ parts, calm p.1) := by
  induction parts generalizing i with
  | nil => exact absurd rfl hne
  | cons p rest ih =>
    obtain ⟨hp, hrest⟩ := List.forall_mem_cons.mp h
    rw [Term.spread, List.flatMap_cons]
    cases rest with
    | nil =>
      rw [List.flatMap_nil, List.append_nil]
      rcases hspaced with ⟨hnone, -⟩ | ⟨hopens, hends⟩
      · rw [hnone, List.append_nil]
        exact hp.congr (by simp)
      · exact (hp.append hopens (Unquoted.shows_of_ends hends)).congr (by simp)
    | cons q rest =>
      obtain ⟨j, ⟨hopens, hleads⟩, hspaced⟩ := hspaced
      have hmore := (ih hspaced hrest (List.cons_ne_nil q rest)).behind hleads
      rw [List.append_assoc]
      exact (hp.append (hopens.append _) hmore).congr (by simp)

theorem singleSigned_iff (hminus : ∀ u, t ≠ .negate u) :
    SingleSigned t ↔ ∀ o ∈ t.operands, SingleSigned o :=
  ⟨fun h _ ho u hu => h u (.inside ho hu), SingleSigned.of_operands hminus⟩

theorem singleSigned_negate : SingleSigned (.negate t) ↔
    t.text.head? ≠ some Byte.minus ∧ SingleSigned t := by
  constructor
  · intro h
    exact ⟨h t .here, fun u hu => h u (.inside (List.mem_singleton_self t) hu)⟩
  · rintro ⟨hhead, h⟩ u hu
    cases hu with
    | here => exact hhead
    | inside hv hu =>
      rw [List.mem_singleton.mp hv] at hu
      exact h u hu

theorem shows_frame (ht : t.IsFrame) (h : ∀ o ∈ t.operands, Shows o.text (SingleSigned o)) :
    Shows t.text (SingleSigned t) := by
  by_cases hminus : ∃ u, t = .negate u
  · obtain ⟨u, rfl⟩ := hminus
    exact (h u (List.mem_singleton_self u)).minus.congr singleSigned_negate.symm
  · have hminus : ∀ u, t ≠ .negate u := fun u hu => hminus ⟨u, hu⟩
    have hoperands : ∀ p ∈ t.behind, Shows p.1.text (SingleSigned p.1) := fun p hp =>
      h p.1 (t.map_fst_behind ▸ List.mem_map_of_mem hp)
    have hcalm : SingleSigned t ↔ ∀ p ∈ t.behind, SingleSigned p.1 := by
      rw [singleSigned_iff hminus, ← t.map_fst_behind, List.forall_mem_map]
    rw [t.text_eq_spread]
    rcases Outline.spaced_frame ht hminus with ⟨hnone, hfits⟩ | ⟨hsome, i, hleads, hspaced⟩
    · rw [hnone] at hcalm ⊢
      rw [Term.spread, List.flatMap_nil, List.append_nil]
      exact (Unquoted.shows_of_ends hfits).congr (by simp [hcalm])
    · exact ((shows_spread hspaced hoperands hsome).behind hleads).congr hcalm.symm

theorem singleSigned_of_leaf (hoperands : t.operands = []) (hminus : ∀ u, t ≠ .negate u) :
    SingleSigned t :=
  .of_operands hminus (by simp [hoperands])

theorem shows_leaf (h : Fits reserved t.text) (hoperands : t.operands = [])
    (hminus : ∀ u, t ≠ .negate u) : Shows t.text (SingleSigned t) :=
  (Unquoted.shows_of_ends h).congr (by simp [singleSigned_of_leaf hoperands hminus])

theorem showing (c : Compiler) {group : Compiler.GroupColumns}
    (hgroup : ∀ sql ∈ group.getD [], Fits reserved sql) :
    c.Invariant group (fun _ => True) fun t => Shows t.text (SingleSigned t) where
  frame := shows_frame
  value hl := shows_leaf (Outline.fits_literal hl) rfl (by simp)
  placeholder index := shows_leaf (Outline.fits_parameterName index) rfl (by simp)
  groupKey sql hsql := shows_leaf (hgroup sql hsql) rfl (by simp)
  row := by
    rintro id owner name x t - - - ht
    obtain ⟨table, column, rfl⟩ := Compiler.exists_column_of_rowMember ht
    exact shows_leaf (Outline.fits_columnText table column) rfl (by simp)

namespace Compiler

-- Outside of quotes no compiled text opens a comment with a star, and it opens
-- one with two signs if and only if a sign stands in front of a text that
-- begins with a sign.
theorem comments_behind_signs {c : Compiler} {e : Expr} {s s' : State} {t : Term}
    (h : Yields (c.expression (some e)) s t s') :
    ∃ u, unquoted? t.text = some u ∧ Text.occurs "/*" u = false ∧
      (Text.occurs "--" u = true ↔
        ∃ v, (Term.negate v).Occurs t ∧ v.text.head? = some Byte.minus) := by
  have hinvariant : c.Invariant none _ _ := showing c (by simp)
  obtain ⟨u, hu, hslash, hminus⟩ := hinvariant.good_of_term (fun _ _ => trivial) h
  refine ⟨u, hu, Unquoted.occurs_pair_eq_false.mpr hslash, ?_⟩
  have hdashes : Text.occurs "--" u = false ↔ SingleSigned t :=
    Unquoted.occurs_pair_eq_false.trans hminus
  rw [← Bool.not_eq_false, hdashes, SingleSigned]
  simp

-- The negation of a negation is the beginning of a comment.

def negatedTwice : Expr :=
  .negate 3 (.negate 2 (.member 1 (.parameter 0 ⟨"p", Catalogue.post, false⟩) "Views"))

theorem comments_behind_signs_negatedTwice :
    ∃ t u, Yields (Compiler.expression
        { registry := Catalogue.registry, now := 0, captures := fun _ => .null }
        (some negatedTwice)) {} t {} ∧
      t.text = "--\"views\"" ∧ unquoted? t.text = some u ∧ Text.occurs "--" u = true := by
  have hterm : Yields (Compiler.expression
      { registry := Catalogue.registry, now := 0, captures := fun _ => .null }
      (some negatedTwice)) {} (.negate (.negate (.column none "views"))) {} := by rfl
  obtain ⟨u, hu, -, hdashes⟩ := comments_behind_signs hterm
  exact ⟨_, u, hterm, by decide, hu, hdashes.mpr ⟨_, .here, by decide⟩⟩

end Compiler

end EntitySql.Sql
