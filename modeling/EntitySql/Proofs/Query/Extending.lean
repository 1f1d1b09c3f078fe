import EntitySql.Proofs.Include.Prefixes
import EntitySql.Proofs.Query.WellFormed

-- Which include a further segment extends. A plan keeps every path once and
-- no trace of when it was named again, so what a segment extends is the path
-- that was registered last, and this is not always the one named last.

namespace EntitySql.Query

-- The path of a further segment below a path.
def extended (path segment : Text) : Text := path ++ Byte.dot :: segment

-- A step that leaves the includes alone.
def SparesIncludes {α : Type} (x : Builder α) : Prop :=
  ∀ p : Plan, (x.run.run p).run.2.clauses.includes = p.clauses.includes

namespace SparesIncludes

variable {α β : Type} {x : Builder α}

theorem bind {f : α → Builder β} (hx : Looks x) (hf : ∀ a, SparesIncludes (f a)) :
    SparesIncludes (x >>= f) := by
  intro p
  have hp := hx p
  rw [Yields.run_bind]
  cases hrun : (x.run.run p).run with
  | mk result q =>
    obtain rfl : q = p := by rw [← hp, hrun]
    cases result with
    | error e => rfl
    | ok a => exact hf a q

theorem get_bind {f : Plan → Builder α} (h : ∀ p, SparesIncludes (f p)) :
    SparesIncludes (get >>= f) := fun p => h p p

theorem modify {f : Plan → Plan} (h : ∀ p : Plan, (f p).clauses.includes = p.clauses.includes) :
    SparesIncludes (modify f : Builder Unit) := fun p => h p

theorem change {f : Clauses → Clauses} (h : ∀ c, (f c).includes = c.includes) :
    SparesIncludes (Builder.change f) := fun p => h p.clauses

end SparesIncludes

-- The calls for includes.
def Registration.includes : Registration → Bool
  | addInclude _ => true
  | thenInclude _ => true
  | _ => false

theorem Registration.sparesIncludes {r : Registration} (h : r.includes = false) :
    SparesIncludes r.run := by
  cases r with
  | filter predicate =>
    exact .bind (.requireUncombined _) fun _ => .bind (.require _ _) fun _ => .modify fun _ => rfl
  | filterRaw sql values =>
    exact .bind (.requireUncombined _) fun _ => .bind (.requireText _ _) fun _ => .modify fun _ => rfl
  | filterIn column values negated =>
    exact .bind (.requireUncombined _) fun _ => .modify fun _ => rfl
  | filterInQuery column query negated =>
    exact .bind (.requireUncombined _) fun _ => .bind (.require _ _) fun _ => .modify fun _ => rfl
  | filterInRaw column sql negated =>
    exact .bind (.requireUncombined _) fun _ => .bind (.requireText _ _) fun _ => .modify fun _ => rfl
  | filterExists query negated =>
    exact .bind (.requireUncombined _) fun _ => .bind (.require _ _) fun _ => .modify fun _ => rfl
  | order selector ascending => exact .bind (.require _ _) fun _ => .change fun _ => rfl
  | clearOrder => exact .change fun _ => rfl
  | groupBy key =>
    exact .bind (.requireUncombined _) fun _ => .bind (.require _ _) fun _ => .change fun _ => rfl
  | having predicate =>
    exact .bind (.requireUncombined _) fun _ => .bind (.require _ _) fun _ =>
      .get_bind fun _ => .bind (.refuseIf _ _) fun _ => .change fun _ => rfl
  | addInclude path => cases h
  | thenInclude segment => cases h
  | declare table => exact .bind (.check _) fun _ => .change fun _ => rfl
  | addWindow w => exact .change fun _ => rfl
  | addCase c => exact .bind (.refuseIf _ _) fun _ => .change fun _ => rfl
  | combine operator other => exact .bind (.require _ _) fun _ => .modify fun _ => rfl
  | combineRaw operator sql => exact .bind (.requireText _ _) fun _ => .modify fun _ => rfl
  | joinRaw sql => exact .bind (.requireText _ _) fun _ => .change fun _ => rfl
  | selectRaw sql => exact .get_bind fun _ => .bind (.refuseIf _ _) fun _ => .change fun _ => rfl
  | fromRaw sql => exact .change fun _ => rfl
  | setDistinct distinct => exact .change fun _ => rfl
  | limit n => exact .bind (.refuseIf _ _) fun _ => .change fun _ => rfl
  | offset n => exact .bind (.refuseIf _ _) fun _ => .change fun _ => rfl

namespace Plan

-- The full path that a call names, if it is a call for an include.
def includePath? (p : Plan) : Registration → Option Text
  | .addInclude path => some path
  | .thenInclude segment => p.clauses.includes.getLast?.map (extended · segment)
  | _ => none

-- The path that a call names if it succeeds.
def accepted? (p : Plan) (r : Registration) : Option Text :=
  if (r.run.run.run p).run.1.isOk then p.includePath? r else none

-- The paths that are named by the calls that succeed, in their order.
def accepted (p : Plan) : List Registration → List Text
  | [] => []
  | r :: rest => (p.accepted? r).toList ++ (p.called r).accepted rest

variable {p q : Plan}

theorem accepted_append (p : Plan) (calls more : List Registration) :
    p.accepted (calls ++ more) = p.accepted calls ++ (p.after calls).accepted more := by
  induction calls generalizing p with
  | nil => rfl
  | cons r rest ih =>
    rw [List.cons_append, accepted, accepted, ih, List.append_assoc]
    rfl

theorem after_append (p : Plan) (calls more : List Registration) :
    p.after (calls ++ more) = (p.after calls).after more := List.foldl_append

-- A path is registered unless it is registered already.
def withInclude (includes : List Text) (path : Text) : List Text :=
  if path ∈ includes then includes else includes ++ [path]

theorem eraseDups_append_singleton (paths : List Text) (path : Text) :
    (paths ++ [path]).eraseDups = withInclude paths.eraseDups path := by
  rw [withInclude]
  simp only [List.mem_eraseDups]
  split
  · next hmem => exact Include.eraseDups_append_singleton_of_mem hmem
  · next hmem => exact Include.eraseDups_append_singleton_of_not_mem hmem

open Builder Yields in
theorem includes_of_addInclude {path : Text} {u : Unit} (h : Yields (addInclude path) p u q) :
    q.clauses.includes = withInclude p.clauses.includes path := by
  obtain ⟨-, h⟩ := requireUncombined_bind_iff.mp h
  obtain ⟨-, h⟩ := refuseIf_bind_iff.mp (get_bind_iff.mp h)
  obtain ⟨_, -, h⟩ := lift_bind_iff.mp (get_bind_iff.mp h)
  obtain ⟨-, h⟩ := check_bind_iff.mp h
  replace h := get_bind_iff.mp h
  rcases ite_iff.mp h with ⟨hmem, h⟩ | ⟨hmem, h⟩
  · rw [(pure_iff.mp h).2, withInclude, if_pos (List.elem_iff.mp hmem)]
  · rw [modify_iff.mp h, withInclude, if_neg (mt List.elem_iff.mpr hmem)]
    rfl

theorem run_get_bind {α : Type} (f : Plan → Builder α) :
    (get >>= f).run.run p = (f p).run.run p := rfl

-- A further segment extends the path that stands last.
theorem run_thenInclude {path : Text} (hlast : p.clauses.includes.getLast? = some path)
    (segment : Text) :
    (Registration.thenInclude segment).run.run.run p =
      (Builder.addInclude (extended path segment)).run.run p := by
  rw [Registration.run, run_get_bind, hlast]
  rfl

theorem fails_thenInclude (hnone : p.clauses.includes = []) (segment : Text) :
    Fails (Registration.thenInclude segment).run p (.contract .thenIncludeAlone) p := by
  rw [Fails, Registration.run, run_get_bind, hnone]
  rfl

-- What a call makes of the includes.
theorem includes_called (p : Plan) (r : Registration) :
    (p.called r).clauses.includes =
      ((p.accepted? r).map (withInclude p.clauses.includes)).getD p.clauses.includes := by
  rw [called, accepted?]
  cases hrun : (r.run.run.run p).run with
  | mk result q =>
    cases result with
    | error e =>
      rw [r.guarded p e q hrun]
      rfl
    | ok u =>
      cases hr : r.includes with
      | false =>
        have hsame := r.sparesIncludes hr p
        rw [hrun] at hsame
        rw [hsame]
        cases r <;> first | rfl | cases hr
      | true =>
        cases r with
        | addInclude path => exact includes_of_addInclude hrun
        | thenInclude segment =>
          cases hlast : p.clauses.includes.getLast? with
          | none =>
            have hfails := fails_thenInclude (List.getLast?_eq_none_iff.mp hlast) segment
            rw [Fails, hrun] at hfails
            cases hfails
          | some path =>
            rw [run_thenInclude hlast segment] at hrun
            simp only [Except.isOk, Except.toBool, if_true, includePath?, hlast, Option.map_some,
              Option.getD_some]
            exact includes_of_addInclude hrun
        | _ => cases hr

-- The includes of a plan are the paths that calls have named, each where it
-- was named first.
theorem includes_after (root : Entity) (depth : Int) (calls : List Registration) :
    ((new root depth).after calls).clauses.includes = ((new root depth).accepted calls).eraseDups := by
  induction calls using List.reverseRecOn with
  | nil => rfl
  | append_singleton calls r ih =>
    rw [after_append, accepted_append]
    have hcalled : (((new root depth).after calls).after [r]).clauses.includes = _ :=
      includes_called ((new root depth).after calls) r
    rw [hcalled, ih, accepted, accepted, List.append_nil]
    cases ((new root depth).after calls).accepted? r with
    | none => rw [Option.toList_none, List.append_nil, Option.map_none, Option.getD_none]
    | some path =>
      rw [Option.toList_some, eraseDups_append_singleton, Option.map_some, Option.getD_some]

-- A segment that makes any path too long.
def longSegment : Text := List.replicate (Include.maxPathLength + 1) 0x61

theorem fault?_longSegment (depth : Int) (path : Text) :
    Include.fault? depth (extended path longSegment) =
      some (.tooLong (extended path longSegment)) := by
  have hspace : (extended path longSegment).all Byte.isSpace = false := by
    rw [extended, List.all_append, List.all_cons, Bool.and_eq_false_iff]
    exact .inr rfl
  have hlength : Include.maxPathLength < (extended path longSegment).length := by
    rw [extended, List.length_append, List.length_cons, longSegment, List.length_replicate]
    omega
  rw [Include.fault?, hspace, if_neg Bool.false_ne_true, if_pos hlength]

-- Errors tell which path was too long.
theorem fails_longSegment (hsole : p.operations = []) (hselect : p.clauses.rawSelect = [])
    (hdepth : ¬p.clauses.maxIncludeDepth < 1) (path : Text) :
    Fails (Builder.addInclude (extended path longSegment)) p
      (.contract (.path (.tooLong (extended path longSegment)))) p := by
  have hvalidator : Include.Validator.new p.clauses.maxIncludeDepth =
      .ok { maxDepth := p.clauses.maxIncludeDepth } := by
    rw [Include.Validator.new, if_neg hdepth]
  have hcombined : p.hasOperations = false := by simp [hasOperations, hsole]
  have hraw : p.hasRawSelect = false := by simp [hasRawSelect, hselect]
  refine Fails.bind_iff.mpr (.inr ⟨(), p, ?_, ?_⟩)
  · exact Yields.get_bind_iff.mpr (by rw [hcombined]; rfl)
  refine Fails.bind_iff.mpr (.inr ⟨p, p, rfl, Fails.bind_iff.mpr (.inr ⟨(), p, ?_, ?_⟩)⟩)
  · rw [hraw]
    rfl
  refine Fails.bind_iff.mpr (.inr ⟨p, p, rfl, Fails.bind_iff.mpr (.inr
    ⟨{ maxDepth := p.clauses.maxIncludeDepth }, p, Yields.lift_iff.mpr ⟨hvalidator, rfl⟩, ?_⟩)⟩)
  refine Fails.bind_iff.mpr (.inl ?_)
  rw [Include.Validator.check, fault?_longSegment]
  exact Fails.throw_iff.mpr ⟨rfl, rfl⟩

-- Paths differ if their extensions by one segment do.
theorem extended_injective (segment : Text) : Function.Injective (extended · segment) := by
  intro path other h
  exact List.append_cancel_right h

-- Behind a set operation all paths are refused alike.
theorem fails_combined (hcombined : p.operations ≠ []) (path : Text) :
    Fails (Builder.addInclude path) p (.contract (.afterSetOperation .includes)) p := by
  have hoperations : p.hasOperations = true := by simpa [hasOperations] using hcombined
  refine Fails.bind_iff.mpr (.inl (Fails.bind_iff.mpr (.inr ⟨p, p, rfl, ?_⟩)))
  rw [hoperations]
  rfl

-- Where paths are accepted, errors tell what a segment has extended.
theorem eq_of_extends {path last : Text} (hp : p.clauses.WellFormed) (hsole : p.operations = [])
    (hlast : last ∈ p.clauses.includes)
    (h : ∀ segment, (Builder.addInclude (extended last segment)).run.run p =
      (Builder.addInclude (extended path segment)).run.run p) : last = path := by
  have hselect : p.clauses.rawSelect = [] :=
    hp.exclusive.resolve_left (List.ne_nil_of_mem hlast)
  have hdepth : ¬p.clauses.maxIncludeDepth < 1 := by
    intro hlow
    obtain ⟨validator, hvalidator, -⟩ := hp.admitted last hlast
    rw [Include.Validator.new, if_pos hlow] at hvalidator
    cases hvalidator
  have hfails := fails_longSegment hsole hselect hdepth last
  have hfails' := fails_longSegment hsole hselect hdepth path
  rw [Fails, h longSegment, hfails'] at hfails
  have herror := (Prod.mk.inj hfails).1
  simp only [Except.error.injEq, Error.contract.injEq, ContractFault.path.injEq,
    PathFault.tooLong.injEq] at herror
  exact extended_injective longSegment herror.symm

-- What a further segment extends is the path registered last: the last of the
-- paths that calls have named, without those that were named before. It is
-- refused if no path has been named. So it extends the path named last just if
-- that one is also the one registered last.
theorem extends_last_registered (root : Entity) (depth : Int) (calls : List Registration) :
    ((new root depth).accepted calls = [] → ∀ segment,
      Fails (Registration.thenInclude segment).run ((new root depth).after calls)
        (.contract .thenIncludeAlone) ((new root depth).after calls)) ∧
    (∀ path ∈ ((new root depth).accepted calls).eraseDups.getLast?, ∀ segment,
      (Registration.thenInclude segment).run.run.run ((new root depth).after calls) =
        (Registration.addInclude (extended path segment)).run.run.run
          ((new root depth).after calls)) ∧
    ∀ path ∈ ((new root depth).accepted calls).getLast?,
      (∀ segment, (Registration.thenInclude segment).run.run.run ((new root depth).after calls) =
        (Registration.addInclude (extended path segment)).run.run.run
          ((new root depth).after calls)) ↔
      (((new root depth).after calls).operations = [] →
        ((new root depth).accepted calls).eraseDups.getLast? = some path) := by
  obtain ⟨hp, -, -⟩ := wellFormed_after root depth calls []
  have hincludes := includes_after root depth calls
  generalize (new root depth).accepted calls = named at hincludes ⊢
  generalize (new root depth).after calls = p at hp hincludes ⊢
  rw [← hincludes]
  refine ⟨?_, ?_, ?_⟩
  · rintro rfl
    exact fails_thenInclude hincludes
  · intro path hpath segment
    exact run_thenInclude hpath segment
  · intro path hpath
    have hmem : path ∈ p.clauses.includes := by
      rw [hincludes, List.mem_eraseDups]
      exact List.mem_of_getLast? hpath
    obtain ⟨last, hlast⟩ : ∃ last, p.clauses.includes.getLast? = some last :=
      ⟨_, List.getLast?_eq_some_getLast (List.ne_nil_of_mem hmem)⟩
    constructor
    · intro h hsole
      rw [hlast]
      refine congrArg some (eq_of_extends hp hsole (List.mem_of_getLast? hlast) fun segment => ?_)
      rw [← run_thenInclude hlast]
      exact h segment
    · intro h segment
      rw [run_thenInclude hlast]
      by_cases hsole : p.operations = []
      · rw [h hsole, Option.some.injEq] at hlast
        rw [hlast]
        rfl
      · exact (fails_combined hsole _).trans (fails_combined hsole _).symm

-- The author is named first, and once more behind the comments.
def repeatedPaths : List Registration :=
  [.addInclude "Author", .addInclude "Comments", .addInclude "Author"]

theorem extends_last_registered_repeatedPaths :
    ∃ p, p = (new Catalogue.postEntity 5).after repeatedPaths ∧
      (new Catalogue.postEntity 5).accepted repeatedPaths = ["Author", "Comments", "Author"] ∧
      (∀ segment, (Registration.thenInclude segment).run.run.run p =
        (Registration.addInclude (extended "Comments" segment)).run.run.run p) ∧
      (¬∀ segment, (Registration.thenInclude segment).run.run.run p =
        (Registration.addInclude (extended "Author" segment)).run.run.run p) ∧
      (p.called (.thenInclude "Company")).clauses.includes =
        ["Author", "Comments", "Comments.Company"] ∧
      Fails (Registration.thenInclude "Company").run (new Catalogue.postEntity 5)
        (.contract .thenIncludeAlone) (new Catalogue.postEntity 5) := by
  have hnamed : (new Catalogue.postEntity 5).accepted repeatedPaths =
      ["Author", "Comments", "Author"] := by decide
  obtain ⟨-, hlast, hnamed_last⟩ :=
    extends_last_registered Catalogue.postEntity 5 repeatedPaths
  have hnone := (extends_last_registered Catalogue.postEntity 5 []).1 rfl
  rw [hnamed] at hlast hnamed_last
  refine ⟨_, rfl, hnamed, hlast "Comments" (by decide), fun hsame => ?_, by decide, hnone "Company"⟩
  have hregistered := (hnamed_last "Author" (by decide)).mp hsame (by decide)
  revert hregistered
  decide

end Plan

end EntitySql.Query
