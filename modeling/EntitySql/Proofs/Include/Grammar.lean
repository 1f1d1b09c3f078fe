import EntitySql.Include.Path
import EntitySql.Proofs.Text.Plain

-- Which include paths a validator accepts: the checks, taken together, are a
-- grammar of paths. A validator remembers no other path, so what it has seen
-- before changes nothing.

namespace EntitySql.Include

-- A name of at most 64 letters, digits and underscores that no digit begins.
structure IsSegment (segment : Text) : Prop where
  nonempty : 1 ≤ segment.length
  length_le : segment.length ≤ 64
  bytes : ∀ c ∈ segment, Byte.isLetter c = true ∨ Byte.isDigit c = true ∨ c = Byte.underscore
  start : ∀ c ∈ segment.head?, Byte.isDigit c = false
  unreserved : ∀ word ∈ reserved, Text.sameFolded segment word = false

-- The segments with dots between them are the path.
structure Spells (maxDepth : Int) (segments : List Text) (path : Text) : Prop where
  path_eq : path = Text.join [Byte.dot] segments
  length_le : path.length ≤ 500
  nonempty : 1 ≤ segments.length
  depth_le : segments.length ≤ maxDepth
  segment : ∀ s ∈ segments, IsSegment s
  repetition : 3 < segments.length → ∀ s ∈ segments, segments.countP (Text.sameFolded s) ≤ 2

variable {maxDepth : Int} {path : Text}

-- One check in front of others.
theorem ite_some_eq_none {α : Type} {p : Prop} [Decidable p] {fault : α} {others : Option α} :
    (if p then some fault else others) = none ↔ ¬p ∧ others = none := by
  by_cases h : p <;> simp [h]

-- Segments.

theorem isWordByte_iff {c : UInt8} : isWordByte c = true ↔
    Byte.isLetter c = true ∨ Byte.isDigit c = true ∨ c = Byte.underscore := by
  simp [isWordByte, Byte.isAlphanumeric, or_assoc]

-- Of the bytes of a word, those that are no digit may begin it.
theorem starts_iff : ∀ c : UInt8, isWordByte c = true →
    ((!Byte.isLetter c && c != Byte.underscore) = false ↔ Byte.isDigit c = false) :=
  forall_byte (by decide +kernel)

-- The reserved words are written in small letters.
theorem elem_reserved_iff {segment : Text} : reserved.elem (Text.lower segment) = false ↔
    ∀ word ∈ reserved, Text.sameFolded segment word = false := by
  have hlower : ∀ word ∈ reserved, Text.lower word = word := by decide
  rw [← Bool.not_eq_true, List.elem_iff]
  simp only [Text.sameFolded, beq_eq_false_iff_ne]
  constructor
  · rintro h word hword heq
    rw [hlower word hword] at heq
    exact h (heq ▸ hword)
  · intro h hmem
    exact h _ hmem (hlower _ hmem).symm

theorem segmentFault?_eq_none {segment : Text} :
    segmentFault? segment = none ↔ IsSegment segment := by
  cases segment with
  | nil =>
    constructor
    · intro h
      cases h
    · intro h
      cases h.nonempty
  | cons first rest =>
    have hchecks : segmentFault? (first :: rest) = none ↔ (first :: rest).length ≤ 64 ∧
        (!Byte.isLetter first && first != Byte.underscore) = false ∧
        (first :: rest).find? (fun c => !isWordByte c) = none ∧
        reserved.elem (Text.lower (first :: rest)) = false := by
      rw [segmentFault?, ite_some_eq_none, ite_some_eq_none, Nat.not_lt, Bool.not_eq_true]
      refine and_congr_right fun _ => and_congr_right fun _ => ?_
      cases (first :: rest).find? fun c => !isWordByte c with
      | none => simp
      | some c => simp
    rw [hchecks, elem_reserved_iff, List.find?_eq_none]
    constructor
    · rintro ⟨hlength, hstart, hbytes, hunreserved⟩
      have hword : ∀ c ∈ first :: rest, isWordByte c = true := by simpa using hbytes
      refine ⟨by simp, hlength, fun c hc => isWordByte_iff.mp (hword c hc), ?_, hunreserved⟩
      rintro c ⟨⟩
      exact (starts_iff first (hword first (by simp))).mp hstart
    · intro h
      have hword : ∀ c ∈ first :: rest, isWordByte c = true :=
        fun c hc => isWordByte_iff.mpr (h.bytes c hc)
      refine ⟨h.length_le, ?_, by simpa using hword, h.unreserved⟩
      exact (starts_iff first (hword first (by simp))).mpr (h.start first rfl)

-- Repetitions.

-- Counted from any of them, segments that are the same are as many.
theorem countP_sameFolded {a b : Text} (h : Text.sameFolded a b = true) (t : List Text) :
    t.countP (Text.sameFolded a) = t.countP (Text.sameFolded b) := by
  refine List.countP_congr fun s _ => ?_
  rw [Text.sameFolded_iff, Text.sameFolded_iff, Text.sameFolded_iff.mp h]

-- By induction on the segments that are left; those before them are counted in.
theorem repetition?_eq_none (earlier t : List Text) : repetition? earlier t = none ↔
    ∀ s ∈ t, (t ++ earlier).countP (Text.sameFolded s) ≤ 2 := by
  induction t generalizing earlier with
  | nil => simp [repetition?]
  | cons segment rest ih =>
    have hself : Text.sameFolded segment segment = true := Text.sameFolded_iff.mpr rfl
    have hmove (s : Text) : (rest ++ segment :: earlier).countP (Text.sameFolded s) =
        (segment :: rest ++ earlier).countP (Text.sameFolded s) :=
      List.perm_middle.countP_eq _
    have hstep : repetition? earlier (segment :: rest) = none ↔
        earlier.countP (Text.sameFolded segment) < 2 ∧
          repetition? (segment :: earlier) rest = none := by
      rw [repetition?, ite_some_eq_none, Nat.not_le]
    rw [hstep, ih, List.forall_mem_cons]
    simp only [hmove]
    refine and_congr_left fun hrest => ?_
    rw [List.cons_append, List.countP_cons_of_pos hself, List.countP_append]
    constructor
    · intro hearlier
      -- A segment that stands further on has been counted there.
      by_cases hagain : ∃ s ∈ rest, Text.sameFolded s segment = true
      · obtain ⟨s, hs, hsame⟩ := hagain
        have hcount := hrest s hs
        rwa [countP_sameFolded hsame, List.cons_append, List.countP_cons_of_pos hself,
          List.countP_append] at hcount
      · have hnone : rest.countP (Text.sameFolded segment) = 0 := by
          rw [List.countP_eq_zero]
          intro s hs hsame
          exact hagain ⟨s, hs, Text.sameFolded_iff.mpr (Text.sameFolded_iff.mp hsame).symm⟩
        omega
    · omega

-- Paths.

section Words

variable (h : ∀ s ∈ segments path, IsSegment s)

include h

-- The checks in front refuse nothing that consists of segments.

theorem not_blank : path.all Byte.isSpace = false := by
  obtain ⟨first, rest, hsegments⟩ := List.exists_cons_of_ne_nil (Text.split_ne_nil Byte.dot path)
  have hfirst := h first (by rw [segments, hsegments]; simp)
  obtain ⟨c, hc⟩ := List.exists_mem_of_length_pos hfirst.nonempty
  have hpath : c ∈ path := by
    rw [← Text.join_split Byte.dot path, hsegments, Text.join_cons]
    exact List.mem_append_left _ hc
  have hspace : ∀ c : UInt8, isWordByte c = true → Byte.isSpace c = false :=
    forall_byte (by decide +kernel)
  rw [List.all_eq_false]
  exact ⟨c, hpath, by simp [hspace c (isWordByte_iff.mpr (hfirst.bytes c hc))]⟩

theorem not_doubled : (Text.occurs ".." path || Text.occurs "//" path) = false := by
  rw [Bool.or_eq_false_iff, ← Bool.not_eq_true, ← Bool.not_eq_true, Text.occurs_iff, Text.occurs_iff]
  constructor
  · -- Between two dots there is an empty segment.
    rintro ⟨a, b, hpath⟩
    have hempty : [] ∈ segments path := by
      have hsplit : path = a ++ Byte.dot :: ([] ++ Byte.dot :: b) := by
        rw [← hpath, List.append_assoc]
        rfl
      rw [segments, hsplit, Text.split_append_cons, Text.split_append_cons]
      simp [Text.split]
    cases (h [] hempty).nonempty
  · rintro ⟨a, b, hpath⟩
    have hslash : Byte.slash ∈ path := by
      rw [← hpath]
      exact List.mem_append_left b (List.mem_append_right a (by decide))
    rw [← Text.join_split Byte.dot path] at hslash
    rcases Text.mem_join hslash with hdot | ⟨s, hs, hc⟩
    · exact absurd hdot (by decide)
    · exact absurd (isWordByte_iff.mpr ((h s hs).bytes _ hc)) (by decide)

end Words

theorem fault?_eq_none : fault? maxDepth path = none ↔ Spells maxDepth (segments path) path := by
  have hchecks : fault? maxDepth path = none ↔ path.all Byte.isSpace = false ∧ path.length ≤ 500 ∧
      (Text.occurs ".." path || Text.occurs "//" path) = false ∧
      (∀ s ∈ segments path, IsSegment s) ∧ (segments path).length ≤ maxDepth ∧
      (3 < (segments path).length → repetition? [] (segments path) = none) := by
    rw [fault?, ite_some_eq_none, ite_some_eq_none, ite_some_eq_none, Bool.not_eq_true, Nat.not_lt,
      Bool.not_eq_true]
    refine and_congr_right fun _ => and_congr_right fun _ => and_congr_right fun _ => ?_
    rw [← forall₂_congr fun _ _ => segmentFault?_eq_none, ← List.findSome?_eq_none_iff]
    cases hfound : (segments path).findSome? segmentFault? with
    | some fault => simp [hfound]
    | none =>
      simp only [hfound, ite_some_eq_none, true_and, Int.not_lt]
      refine and_congr_right fun _ => ?_
      by_cases hdeep : 3 < (segments path).length <;> simp [hdeep]
  rw [hchecks]
  constructor
  · rintro ⟨-, hlength, -, hsegments, hdepth, hrepetition⟩
    have hnonempty := List.length_pos_iff.mpr (Text.split_ne_nil Byte.dot path)
    refine ⟨(Text.join_split Byte.dot path).symm, hlength, hnonempty, hdepth, hsegments, ?_⟩
    intro hdeep
    simpa using (repetition?_eq_none [] _).mp (hrepetition hdeep)
  · intro h
    refine ⟨not_blank h.segment, h.length_le, not_doubled h.segment, h.segment, h.depth_le, ?_⟩
    intro hdeep
    exact (repetition?_eq_none [] _).mpr (by simpa using h.repetition hdeep)

theorem Spells.segments_eq {t : List Text} (h : Spells maxDepth t path) : segments path = t := by
  rw [segments, h.path_eq]
  refine Text.split_join (List.length_pos_iff.mp h.nonempty) fun s hs hdot => ?_
  have hword := isWordByte_iff.mpr ((h.segment s hs).bytes _ hdot)
  exact absurd hword (by decide)

-- Validators.

namespace Validator

-- What is asked of a validator.
inductive Call where
  | validate (path : Text)
  | validateAll (paths : List Text)
  | clear

-- A validation that fails leaves the validator as it was.
def Call.run (v : Validator) : Call → Validator
  | .validate path =>
    match v.validate path with
    | .ok v => v
    | .error _ => v
  | .validateAll paths => (v.validateAll paths).2
  | .clear => v.clear

def after (v : Validator) (calls : List Call) : Validator := calls.foldl Call.run v

-- The maximum depth stays, and every path that is remembered would be accepted again.
structure Remembers (maxDepth : Int) (v : Validator) : Prop where
  maxDepth_eq : v.maxDepth = maxDepth
  accepted : ∀ path ∈ v.accepted, fault? maxDepth path = none

variable {v w : Validator} {e : Error}

theorem Remembers.validate_eq_error (h : v.Remembers maxDepth) (path : Text) :
    v.validate path = .error e ↔
      (v.check path).map (fun fault => .contract (.path fault)) = some e := by
  unfold validate
  by_cases hseen : v.accepted.elem path = true
  · have hcheck : v.check path = none := by
      rw [check, h.maxDepth_eq]
      exact h.accepted path (List.elem_iff.mp hseen)
    rw [if_pos hseen, hcheck]
    simp
  · rw [if_neg hseen]
    cases v.check path <;> simp

theorem Remembers.validate (h : v.Remembers maxDepth) (hw : v.validate path = .ok w) :
    w.Remembers maxDepth := by
  unfold Validator.validate at hw
  by_cases hseen : v.accepted.elem path = true
  · rw [if_pos hseen] at hw
    cases hw
    exact h
  · rw [if_neg hseen] at hw
    cases hcheck : v.check path with
    | some fault =>
      rw [hcheck] at hw
      cases hw
    | none =>
      rw [hcheck] at hw
      cases hw
      rw [check, h.maxDepth_eq] at hcheck
      exact ⟨h.maxDepth_eq, List.forall_mem_cons.mpr ⟨hcheck, h.accepted⟩⟩

theorem Remembers.validateAll (h : v.Remembers maxDepth) (paths : List Text) :
    (v.validateAll paths).2.Remembers maxDepth := by
  induction paths generalizing v with
  | nil => exact h
  | cons path rest ih =>
    rw [Validator.validateAll]
    cases hpath : v.validate path with
    | error e => exact h
    | ok w => exact ih (h.validate hpath)

theorem Remembers.run (h : v.Remembers maxDepth) (call : Call) :
    (call.run v).Remembers maxDepth := by
  cases call with
  | validate path =>
    rw [Call.run]
    cases hpath : v.validate path with
    | error e => exact h
    | ok w => exact h.validate hpath
  | validateAll paths => exact h.validateAll paths
  | clear => exact ⟨h.maxDepth_eq, by simp [Call.run, clear]⟩

theorem Remembers.after (h : v.Remembers maxDepth) (calls : List Call) :
    (v.after calls).Remembers maxDepth := by
  induction calls generalizing v with
  | nil => exact h
  | cons call rest ih => exact ih (h.run call)

-- Whatever a validator has been asked before, it accepts the paths that segments
-- spell and refuses all others, with the fault that the check reports.
theorem accepts_spelled (hdepth : 1 ≤ maxDepth) :
    ∃ v, Validator.new maxDepth = .ok v ∧ ∀ (calls : List Call) (path : Text),
      ((v.after calls).check path = none ↔ ∃ segments, Spells maxDepth segments path) ∧
      ∀ e, (v.after calls).validate path = .error e ↔
        ((v.after calls).check path).map (fun fault => .contract (.path fault)) = some e := by
  refine ⟨{ maxDepth }, if_neg (by omega), fun calls path => ?_⟩
  have hnew : Remembers maxDepth { maxDepth } := ⟨rfl, by simp⟩
  have hafter := hnew.after calls
  refine ⟨?_, fun e => hafter.validate_eq_error path⟩
  rw [check, hafter.maxDepth_eq, fault?_eq_none]
  constructor
  · intro h
    exact ⟨_, h⟩
  · rintro ⟨t, h⟩
    rwa [h.segments_eq]

-- Paths that have been accepted and refused by a validator of depth 2.
def askedBefore : List Call :=
  [.validate "Author", .validate "Author.DROP", .validateAll ["Author", "A.B.C", "Comments"]]

theorem accepts_spelled_askedBefore :
    (1 : Int) ≤ 2 ∧ ∃ v, Validator.new 2 = .ok v ∧
      (∃ segments, Spells 2 segments "Author.Company_2") ∧
      (v.after askedBefore).validate "Author.DROP" = .error (.contract (.path (.reserved "DROP"))) := by
  obtain ⟨v, hv, h⟩ := accepts_spelled (by decide : (1 : Int) ≤ 2)
  obtain rfl : { maxDepth := 2 } = v := Except.ok.inj hv
  refine ⟨by decide, _, hv, ?_, ?_⟩
  · exact (h askedBefore "Author.Company_2").1.mp rfl
  · exact ((h askedBefore "Author.DROP").2 _).mpr rfl

end Validator

end EntitySql.Include
