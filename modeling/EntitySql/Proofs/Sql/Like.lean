import EntitySql.Proofs.Text.Join
import EntitySql.Sql.Compiler.Call

-- Matching a text with a LIKE pattern, and what a search accepts: the escaped
-- pattern exactly the texts that have the text in the place, and the pattern
-- that is not escaped the same ones only if there is nothing to escape.

namespace EntitySql

namespace Sql

open Compiler (Placement)

namespace Like

-- A percent sign takes any bytes, an underscore any one byte, and a backslash
-- makes the byte behind it stand for itself. A backslash at the very end is no
-- pattern, so nothing matches it.
def accepts : Text → Text → Bool
  | [], t => t.isEmpty
  | Byte.percent :: p, t => t.tails.any fun rest => accepts p rest
  | Byte.underscore :: p, t => !t.isEmpty && accepts p t.tail
  | [Byte.backslash], _ => false
  | Byte.backslash :: c :: p, t => t.head? == some c && accepts p t.tail
  | c :: p, t => t.head? == some c && accepts p t.tail

theorem accepts_nil {t : Text} : accepts [] t = true ↔ t = [] := by
  rw [accepts, List.isEmpty_iff]

theorem accepts_percent {p t : Text} :
    accepts (Byte.percent :: p) t = true ↔ ∃ rest, rest <:+ t ∧ accepts p rest = true := by
  have hstep : accepts (Byte.percent :: p) t = t.tails.any fun rest => accepts p rest := rfl
  rw [hstep, List.any_eq_true]
  constructor
  · rintro ⟨rest, hrest, hp⟩
    exact ⟨rest, (List.mem_tails rest t).mp hrest, hp⟩
  · rintro ⟨rest, hrest, hp⟩
    exact ⟨rest, (List.mem_tails rest t).mpr hrest, hp⟩

theorem accepts_underscore {p t : Text} :
    accepts (Byte.underscore :: p) t = true ↔ ∃ c rest, t = c :: rest ∧ accepts p rest = true := by
  have hstep : accepts (Byte.underscore :: p) t = (!t.isEmpty && accepts p t.tail) := rfl
  rw [hstep]
  cases t <;> simp

theorem not_accepts_loneBackslash (t : Text) : ¬accepts [Byte.backslash] t = true := by
  have hstep : accepts [Byte.backslash] t = false := rfl
  simp [hstep]

theorem accepts_backslash {c : UInt8} {p t : Text} :
    accepts (Byte.backslash :: c :: p) t = true ↔
      ∃ rest, t = c :: rest ∧ accepts p rest = true := by
  have hstep : accepts (Byte.backslash :: c :: p) t = (t.head? == some c && accepts p t.tail) := rfl
  rw [hstep]
  cases t <;> simp

theorem accepts_cons {c : UInt8} (hc : isWildcard c = false) {p t : Text} :
    accepts (c :: p) t = true ↔ ∃ rest, t = c :: rest ∧ accepts p rest = true := by
  simp only [isWildcard, Bool.or_eq_false_iff, beq_eq_false_iff_ne] at hc
  obtain ⟨⟨hbackslash, hpercent⟩, hunderscore⟩ := hc
  rw [accepts.eq_6 t c p hpercent hunderscore (fun h => absurd h hbackslash)
    fun _ _ h => absurd h hbackslash]
  cases t <;> simp

theorem accepts_percent_nil (t : Text) : accepts [Byte.percent] t = true :=
  accepts_percent.mpr ⟨[], List.nil_suffix, rfl⟩

-- What has been escaped matches itself only.

theorem accepts_likeByte {c : UInt8} {p t : Text} :
    accepts (likeByte c ++ p) t = true ↔ ∃ rest, t = c :: rest ∧ accepts p rest = true := by
  unfold likeByte
  by_cases hc : isWildcard c = true
  · rw [if_pos hc]
    exact accepts_backslash
  · rw [if_neg hc]
    exact accepts_cons (by simpa using hc)

theorem accepts_likeEscape {s p t : Text} :
    accepts (likeEscape s ++ p) t = true ↔ ∃ rest, t = s ++ rest ∧ accepts p rest = true := by
  induction s generalizing t with
  | nil => simp [likeEscape]
  | cons c s ih =>
    have hcons : likeEscape (c :: s) ++ p = likeByte c ++ (likeEscape s ++ p) := by
      simp [likeEscape]
    rw [hcons, accepts_likeByte]
    constructor
    · rintro ⟨rest, rfl, h⟩
      obtain ⟨rest', rfl, hp⟩ := ih.mp h
      exact ⟨rest', rfl, hp⟩
    · rintro ⟨rest, rfl, hp⟩
      exact ⟨s ++ rest, rfl, ih.mpr ⟨rest, rfl, hp⟩⟩

theorem accepts_starting {s t : Text} :
    accepts (likeEscape s ++ [Byte.percent]) t = true ↔ s <+: t := by
  rw [accepts_likeEscape]
  constructor
  · rintro ⟨rest, rfl, -⟩
    exact List.prefix_append s rest
  · rintro ⟨rest, rfl⟩
    exact ⟨rest, rfl, accepts_percent_nil rest⟩

theorem accepts_ending {s t : Text} :
    accepts (Byte.percent :: likeEscape s) t = true ↔ s <:+ t := by
  have hexact (rest : Text) : accepts (likeEscape s) rest = true ↔ rest = s := by
    have h := accepts_likeEscape (s := s) (p := []) (t := rest)
    simpa [accepts_nil] using h
  rw [accepts_percent]
  constructor
  · rintro ⟨rest, hrest, h⟩
    rwa [(hexact rest).mp h] at hrest
  · intro h
    exact ⟨s, h, (hexact s).mpr rfl⟩

theorem accepts_containing {s t : Text} :
    accepts (Byte.percent :: (likeEscape s ++ [Byte.percent])) t = true ↔ s <:+: t := by
  rw [accepts_percent]
  simp only [accepts_starting]
  constructor
  · rintro ⟨rest, hrest, h⟩
    exact h.isInfix.trans hrest.isInfix
  · rintro ⟨before, after, rfl⟩
    refine ⟨s ++ after, ?_, List.prefix_append s after⟩
    exact ⟨before, (List.append_assoc ..).symm⟩

end Like

-- A text with wildcards beside it.
def surrounded (leading trailing : Bool) (text : Text) : Text :=
  (if leading then [Byte.percent] else []) ++ text ++ if trailing then [Byte.percent] else []

namespace Compiler.Placement

-- Whether the text stands in the place of the other one.
def finds : Placement → Text → Text → Bool
  | .start, s, t => s.isPrefixOf t
  | .finish, s, t => s.isSuffixOf t
  | .anywhere, s, t => Text.occurs s t

variable {place : Placement} {s t : Text}

theorem finds_self (place : Placement) (s : Text) : place.finds s s = true := by
  cases place with
  | start => exact List.isPrefixOf_iff_prefix.mpr List.prefix_rfl
  | finish => exact List.isSuffixOf_iff_suffix.mpr List.suffix_rfl
  | anywhere => exact Text.occurs_iff.mpr List.infix_rfl

theorem infix_of_finds (h : place.finds s t = true) : s <:+: t := by
  cases place with
  | start => exact (List.isPrefixOf_iff_prefix.mp h).isInfix
  | finish => exact (List.isSuffixOf_iff_suffix.mp h).isInfix
  | anywhere => exact Text.occurs_iff.mp h

theorem accepts_likePattern (place : Placement) (s t : Text) :
    Like.accepts (place.likePattern s) t = place.finds s t := by
  rw [Bool.eq_iff_iff]
  cases place with
  | start =>
    have hpattern : start.likePattern s = likeEscape s ++ [Byte.percent] := by
      simp [likePattern, leading, trailing]
    rw [hpattern, Like.accepts_starting]
    exact List.isPrefixOf_iff_prefix.symm
  | finish =>
    have hpattern : finish.likePattern s = Byte.percent :: likeEscape s := by
      simp [likePattern, leading, trailing]
    rw [hpattern, Like.accepts_ending]
    exact List.isSuffixOf_iff_suffix.symm
  | anywhere =>
    have hpattern : anywhere.likePattern s = Byte.percent :: (likeEscape s ++ [Byte.percent]) := by
      simp [likePattern, leading, trailing]
    rw [hpattern, Like.accepts_containing]
    exact Text.occurs_iff.symm

end Compiler.Placement

-- The text as a pattern without escapes.

namespace Like

-- A text that matches the pattern, no longer than it and another one than the
-- pattern itself if that has a wildcard.
structure Strays (trail s t : Text) : Prop where
  accepted : accepts (s ++ trail) t = true
  length_le : t.length ≤ s.length
  ne : (∃ c ∈ s, isWildcard c = true) → t ≠ s

theorem Strays.percent {trail s t : Text} (h : Strays trail s t) :
    Strays trail (Byte.percent :: s) t where
  accepted := accepts_percent.mpr ⟨t, List.suffix_rfl, h.accepted⟩
  length_le := h.length_le.trans (Nat.le_succ _)
  ne := by
    rintro - rfl
    have hlength := h.length_le
    simp only [List.length_cons] at hlength
    omega

theorem Strays.underscore {trail s t : Text} (h : Strays trail s t) :
    Strays trail (Byte.underscore :: s) (Byte.percent :: t) where
  accepted := accepts_underscore.mpr ⟨Byte.percent, t, rfl, h.accepted⟩
  length_le := Nat.succ_le_succ h.length_le
  ne _ heq := absurd (List.cons.inj heq).1 (by decide)

theorem Strays.escape {trail s t : Text} (c : UInt8) (h : Strays trail s t) :
    Strays trail (Byte.backslash :: c :: s) (c :: t) where
  accepted := accepts_backslash.mpr ⟨t, rfl, h.accepted⟩
  length_le := Nat.succ_le_succ (h.length_le.trans (Nat.le_succ _))
  ne _ heq := by
    have hlength := h.length_le
    have hsame := congrArg List.length heq
    simp only [List.length_cons] at hsame
    omega

theorem Strays.cons {trail s t : Text} {c : UInt8} (hc : isWildcard c = false)
    (h : Strays trail s t) : Strays trail (c :: s) (c :: t) where
  accepted := (accepts_cons hc).mpr ⟨t, rfl, h.accepted⟩
  length_le := Nat.succ_le_succ h.length_le
  ne := by
    rintro ⟨d, hd, hwildcard⟩ heq
    have hds : d ∈ s := by
      rcases List.mem_cons.mp hd with rfl | hd
      · rw [hc] at hwildcard
        cases hwildcard
      · exact hd
    exact h.ne ⟨d, hds, hwildcard⟩ (List.cons.inj heq).2

-- Only a pattern that ends in half an escape matches nothing at all.
def CanStray (trail s : Text) : Prop :=
  (∃ t, Strays trail s t) ∨ trail = [] ∧ ∀ t, ¬accepts s t = true

theorem CanStray.before {trail s s' : Text} (h : CanStray trail s)
    (hstrays : ∀ t, Strays trail s t → ∃ t', Strays trail s' t')
    (hrest : ∀ t, accepts s' t = true → ∃ rest, accepts s rest = true) : CanStray trail s' := by
  rcases h with ⟨t, ht⟩ | ⟨htrail, hnone⟩
  · exact .inl (hstrays t ht)
  · refine .inr ⟨htrail, fun t ht => ?_⟩
    obtain ⟨rest, hs⟩ := hrest t ht
    exact hnone rest hs

-- The cases are those of the matching, so an escape takes two bytes at once.
theorem canStray (s : Text) {trail : Text} (htrail : trail = [] ∨ trail = [Byte.percent]) :
    CanStray trail s := by
  match s with
  | [] =>
    refine .inl ⟨[], ?_, le_rfl, by simp⟩
    rcases htrail with rfl | rfl
    · exact accepts_nil.mpr rfl
    · exact accepts_percent_nil []
  | c :: s =>
    by_cases hpercent : c = Byte.percent
    · subst hpercent
      refine (canStray s htrail).before (fun t h => ⟨t, h.percent⟩) fun t h => ?_
      obtain ⟨rest, -, hs⟩ := accepts_percent.mp h
      exact ⟨rest, hs⟩
    by_cases hunderscore : c = Byte.underscore
    · subst hunderscore
      refine (canStray s htrail).before (fun t h => ⟨_, h.underscore⟩) fun t h => ?_
      obtain ⟨_, rest, -, hs⟩ := accepts_underscore.mp h
      exact ⟨rest, hs⟩
    by_cases hbackslash : c = Byte.backslash
    · subst hbackslash
      match s with
      | [] =>
        rcases htrail with rfl | rfl
        · exact .inr ⟨rfl, not_accepts_loneBackslash⟩
        · have hne : [Byte.percent] ≠ [Byte.backslash] := by decide
          exact .inl ⟨[Byte.percent], accepts_backslash.mpr ⟨[], rfl, rfl⟩, le_rfl, fun _ => hne⟩
      | d :: s =>
        refine (canStray s htrail).before (fun t h => ⟨_, h.escape d⟩) fun t h => ?_
        obtain ⟨rest, -, hs⟩ := accepts_backslash.mp h
        exact ⟨rest, hs⟩
    have hc : isWildcard c = false := by simp [isWildcard, hpercent, hunderscore, hbackslash]
    refine (canStray s htrail).before (fun t h => ⟨_, h.cons hc⟩) fun t h => ?_
    obtain ⟨rest, -, hs⟩ := (accepts_cons hc).mp h
    exact ⟨rest, hs⟩
termination_by s.length

theorem accepts_surrounded_of_trailing {leading trailing : Bool} {s t : Text}
    (h : accepts (s ++ if trailing then [Byte.percent] else []) t = true) :
    accepts (surrounded leading trailing s) t = true := by
  unfold surrounded
  rw [List.append_assoc]
  cases leading with
  | false => exact h
  | true => exact accepts_percent.mpr ⟨t, List.suffix_rfl, h⟩

theorem not_accepts_surrounded {leading : Bool} {s : Text} (h : ∀ t, ¬accepts s t = true)
    (t : Text) : ¬accepts (surrounded leading false s) t = true := by
  unfold surrounded
  rw [List.append_assoc, if_neg Bool.false_ne_true, List.append_nil]
  cases leading with
  | false => exact h t
  | true =>
    intro ht
    obtain ⟨rest, -, hs⟩ := accepts_percent.mp ht
    exact h rest hs

end Like

theorem likeEscape_eq_self {s : Text} (h : ∀ c ∈ s, isWildcard c = false) : likeEscape s = s := by
  induction s with
  | nil => rfl
  | cons c s ih =>
    obtain ⟨hc, hs⟩ := List.forall_mem_cons.mp h
    have hcons : likeEscape (c :: s) = likeByte c ++ likeEscape s := List.flatMap_cons
    rw [hcons, ih hs, likeByte, hc]
    rfl

-- Both patterns accept the same texts only if there is nothing to escape.
theorem Compiler.Placement.forall_accepts_eq_iff (place : Placement) (s : Text) :
    (∀ t, Like.accepts (place.likePattern s) t =
      Like.accepts (surrounded place.leading place.trailing s) t) ↔
    ∀ c ∈ s, isWildcard c = false := by
  constructor
  · intro h
    by_contra hwildcard
    have hs : ∃ c ∈ s, isWildcard c = true := by simpa using hwildcard
    have htrail : (if place.trailing then [Byte.percent] else [] : Text) = [] ∨
        (if place.trailing then [Byte.percent] else [] : Text) = [Byte.percent] := by
      cases place.trailing <;> simp
    rcases Like.canStray s htrail with ⟨t, ht⟩ | ⟨hnothing, hnone⟩
    · have hfound : place.finds s t = true := by
        rw [← accepts_likePattern, h]
        exact Like.accepts_surrounded_of_trailing ht.accepted
      have hsame : s = t := (infix_of_finds hfound).eq_of_length_le ht.length_le
      exact ht.ne hs hsame.symm
    · have htrailing : place.trailing = false := by
        cases htrailing : place.trailing with
        | false => rfl
        | true => simp [htrailing] at hnothing
      have hfound := finds_self place s
      rw [← accepts_likePattern, h, htrailing] at hfound
      exact Like.not_accepts_surrounded hnone s hfound
  · intro h t
    have hpattern : place.likePattern s =
        surrounded place.leading place.trailing (likeEscape s) := rfl
    rw [hpattern, likeEscape_eq_self h]

end Sql

end EntitySql
