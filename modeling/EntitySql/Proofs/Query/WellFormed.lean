import EntitySql.Proofs.Query.Registration

-- Plans that registrations can make. Every clause is checked by the calls that
-- add to it, and the clauses that exclude each other are checked from both
-- sides, so what a plan keeps stays well formed whatever is called.

namespace EntitySql.Query

namespace Builder

open Yields (bind_iff get_bind_iff lift_bind_iff modify_iff throw_iff)

variable {α β : Type} {p q : Plan} {b : β}

theorem refuseIf_bind_iff {wrong : Bool} {fault : ContractFault} {f : Unit → Builder β} :
    Yields (refuseIf wrong fault >>= f) p b q ↔ wrong = false ∧ Yields (f ()) p b q := by
  cases wrong <;> simp [refuseIf]

theorem requireUncombined_bind_iff {clause : Clause} {f : Unit → Builder β} :
    Yields (requireUncombined clause >>= f) p b q ↔ p.operations = [] ∧ Yields (f ()) p b q := by
  rw [requireUncombined, bind_assoc, get_bind_iff, refuseIf_bind_iff]
  simp [Plan.hasOperations]

theorem require_bind_iff {what : Requirement} {found : Option α} {f : α → Builder β} :
    Yields (require what found >>= f) p b q ↔ ∃ a, found = some a ∧ Yields (f a) p b q := by
  cases found <;> simp [require]

theorem requireText_bind_iff {what : Requirement} {sql : Text} {f : Unit → Builder β} :
    Yields (requireText what sql >>= f) p b q ↔ sql ≠ [] ∧ Yields (f ()) p b q := by
  rw [requireText, refuseIf_bind_iff]
  simp

theorem check_bind_iff {fault : Option ContractFault} {f : Unit → Builder β} :
    Yields (check fault >>= f) p b q ↔ fault = none ∧ Yields (f ()) p b q := by
  cases fault <;> simp [check]

end Builder

-- The path would be accepted as an include.
def Clauses.Admits (c : Clauses) (path : Text) : Prop :=
  ∃ validator, Include.Validator.new c.maxIncludeDepth = .ok validator ∧
    validator.check path = none

-- What a registration can make of a plan, and when. A table that is declared
-- stands beside the plan.
inductive Registers (p : Plan) : Option CommonTable → Plan → Prop where
  | condition (c : Condition Plan) (hsole : p.operations = []) :
      Registers p none { p with conditions := p.conditions ++ [c] }
  | orders (orders : List Order) : Registers p none (p.change fun c => { c with orders })
  | groupKey (e : Expr) (hsole : p.operations = []) :
      Registers p none (p.change fun c => { c with groupKeys := c.groupKeys ++ [e] })
  | having (e : Expr) (hsole : p.operations = []) (hkeys : p.clauses.groupKeys ≠ []) :
      Registers p none (p.change fun c => { c with having := c.having ++ [e] })
  | again (path : Text) (hpath : path ∈ p.clauses.includes) : Registers p none p
  | path (path : Text) (hsole : p.operations = []) (hselect : p.clauses.rawSelect = [])
      (hadmits : p.clauses.Admits path) (hnew : path ∉ p.clauses.includes) :
      Registers p none (p.change fun c => { c with includes := c.includes ++ [path] })
  | table (t : CommonTable) (hfault : t.fault? = none) :
      Registers p (some t) (p.change fun c => { c with tables := c.tables ++ [t] })
  | window (w : Window) :
      Registers p none (p.change fun c => { c with windows := c.windows ++ [w] })
  | case (k : Case Expr) (hbranches : k.branches ≠ []) :
      Registers p none (p.change fun c => { c with cases := c.cases ++ [k] })
  | operation (o : SetOperation Plan) :
      Registers p none { p with operations := p.operations ++ [o] }
  | join (sql : Text) :
      Registers p none (p.change fun c => { c with rawJoins := c.rawJoins ++ [sql] })
  | select (sql : Text) (hincludes : p.clauses.includes = []) :
      Registers p none (p.change fun c => { c with rawSelect := sql })
  | source (sql : Text) : Registers p none (p.change fun c => { c with rawFrom := sql })
  | distinct (distinct : Bool) : Registers p none (p.change fun c => { c with distinct })
  | limit (n : Int) (hn : 0 ≤ n) : Registers p none (p.change fun c => { c with limit := some n })
  | offset (n : Int) (hn : 0 ≤ n) : Registers p none (p.change fun c => { c with offset := some n })

-- The table that a registration declares, if it is complete.
def Registration.declared : Registration → Option CommonTable
  | declare t => if t.fault?.isNone then some t else none
  | _ => none

open Builder Yields in
theorem Builder.registers_addInclude {path : Text} {p q : Plan} {u : Unit}
    (h : Yields (addInclude path) p u q) : Registers p none q := by
  obtain ⟨hsole, h⟩ := requireUncombined_bind_iff.mp h
  obtain ⟨hselect, h⟩ := refuseIf_bind_iff.mp (get_bind_iff.mp h)
  obtain ⟨validator, hvalidator, h⟩ := lift_bind_iff.mp (get_bind_iff.mp h)
  obtain ⟨hcheck, h⟩ := check_bind_iff.mp h
  have hadmits : p.clauses.Admits path :=
    ⟨validator, hvalidator, Option.map_eq_none_iff.mp hcheck⟩
  replace h := get_bind_iff.mp h
  rcases ite_iff.mp h with ⟨hpath, h⟩ | ⟨hpath, h⟩
  · rw [(pure_iff.mp h).2]
    exact .again path (List.elem_iff.mp hpath)
  · exact modify_iff.mp h ▸ .path path hsole (by simpa [Plan.hasRawSelect] using hselect) hadmits
      (mt List.elem_iff.mpr hpath)

open Builder Yields in
theorem Registration.registers {r : Registration} {p q : Plan} {u : Unit}
    (h : Yields r.run p u q) : Registers p r.declared q := by
  cases r with
  | filter predicate =>
    obtain ⟨hsole, h⟩ := requireUncombined_bind_iff.mp h
    obtain ⟨e, -, h⟩ := require_bind_iff.mp h
    exact modify_iff.mp h ▸ .condition _ hsole
  | filterRaw sql values =>
    obtain ⟨hsole, h⟩ := requireUncombined_bind_iff.mp h
    obtain ⟨-, h⟩ := requireText_bind_iff.mp h
    exact modify_iff.mp h ▸ .condition _ hsole
  | filterIn column values negated =>
    obtain ⟨hsole, h⟩ := requireUncombined_bind_iff.mp h
    exact modify_iff.mp h ▸ .condition _ hsole
  | filterInQuery column query negated =>
    obtain ⟨hsole, h⟩ := requireUncombined_bind_iff.mp h
    obtain ⟨other, -, h⟩ := require_bind_iff.mp h
    exact modify_iff.mp h ▸ .condition _ hsole
  | filterInRaw column sql negated =>
    obtain ⟨hsole, h⟩ := requireUncombined_bind_iff.mp h
    obtain ⟨-, h⟩ := requireText_bind_iff.mp h
    exact modify_iff.mp h ▸ .condition _ hsole
  | filterExists query negated =>
    obtain ⟨hsole, h⟩ := requireUncombined_bind_iff.mp h
    obtain ⟨other, -, h⟩ := require_bind_iff.mp h
    exact modify_iff.mp h ▸ .condition _ hsole
  | order selector ascending =>
    obtain ⟨e, -, h⟩ := require_bind_iff.mp h
    exact modify_iff.mp h ▸ .orders (p.clauses.orders ++ [⟨e.body, ascending⟩])
  | clearOrder => exact modify_iff.mp h ▸ .orders []
  | groupBy key =>
    obtain ⟨hsole, h⟩ := requireUncombined_bind_iff.mp h
    obtain ⟨e, -, h⟩ := require_bind_iff.mp h
    exact modify_iff.mp h ▸ .groupKey e.body hsole
  | having predicate =>
    obtain ⟨hsole, h⟩ := requireUncombined_bind_iff.mp h
    obtain ⟨e, -, h⟩ := require_bind_iff.mp h
    obtain ⟨hkeys, h⟩ := refuseIf_bind_iff.mp (get_bind_iff.mp h)
    exact modify_iff.mp h ▸ .having e.body hsole (by simpa using hkeys)
  | addInclude path => exact registers_addInclude h
  | thenInclude segment =>
    replace h := get_bind_iff.mp h
    cases hlast : p.clauses.includes.getLast? with
    | none =>
      rw [hlast] at h
      exact absurd h throw_iff
    | some path =>
      rw [hlast] at h
      exact registers_addInclude h
  | declare table =>
    obtain ⟨hfault, h⟩ := check_bind_iff.mp h
    have hdeclared : (declare table).declared = some table := by simp [declared, hfault]
    rw [hdeclared]
    exact modify_iff.mp h ▸ .table table hfault
  | addWindow w => exact modify_iff.mp h ▸ .window w
  | addCase c =>
    obtain ⟨hbranches, h⟩ := refuseIf_bind_iff.mp h
    exact modify_iff.mp h ▸ .case c (by simpa using hbranches)
  | combine operator other =>
    obtain ⟨other, -, h⟩ := require_bind_iff.mp h
    exact modify_iff.mp h ▸ .operation _
  | combineRaw operator sql =>
    obtain ⟨-, h⟩ := requireText_bind_iff.mp h
    exact modify_iff.mp h ▸ .operation _
  | joinRaw sql =>
    obtain ⟨-, h⟩ := requireText_bind_iff.mp h
    exact modify_iff.mp h ▸ .join sql
  | selectRaw sql =>
    obtain ⟨hincludes, h⟩ := refuseIf_bind_iff.mp (get_bind_iff.mp h)
    exact modify_iff.mp h ▸ .select sql (by simpa using hincludes)
  | fromRaw sql => exact modify_iff.mp h ▸ .source sql
  | setDistinct distinct => exact modify_iff.mp h ▸ .distinct distinct
  | limit n =>
    obtain ⟨hn, h⟩ := refuseIf_bind_iff.mp h
    exact modify_iff.mp h ▸ .limit n (by simpa using hn)
  | offset n =>
    obtain ⟨hn, h⟩ := refuseIf_bind_iff.mp h
    exact modify_iff.mp h ▸ .offset n (by simpa using hn)

structure Clauses.WellFormed (c : Clauses) : Prop where
  exclusive : c.includes = [] ∨ c.rawSelect = []
  grouped : c.having ≠ [] → c.groupKeys ≠ []
  distinct : c.includes.Nodup
  admitted : ∀ path ∈ c.includes, c.Admits path
  limit : ∀ n ∈ c.limit, 0 ≤ n
  offset : ∀ n ∈ c.offset, 0 ≤ n
  tables : ∀ t ∈ c.tables, t.name ≠ [] ∧ t.body.isComplete = true
  cases : ∀ k ∈ c.cases, k.branches ≠ []

theorem CommonTable.complete_of_fault? {t : CommonTable} (h : t.fault? = none) :
    t.name ≠ [] ∧ t.body.isComplete = true := by
  unfold CommonTable.fault? at h
  split at h
  · cases h
  · next hname =>
    split at h
    · next hbody => exact ⟨by simpa using hname, hbody⟩
    · cases h

-- A registration keeps what the others have checked.
theorem Registers.wellFormed {p q : Plan} {t : Option CommonTable} (h : Registers p t q)
    (hp : p.clauses.WellFormed) :
    q.clauses.WellFormed := by
  cases h with
  | condition c hsole => exact hp
  | orders orders => exact { hp with }
  | groupKey e hsole => exact { hp with grouped := fun _ => by simp [Plan.change] }
  | having e hsole hkeys => exact { hp with grouped := fun _ => hkeys }
  | again path hpath => exact hp
  | path path hsole hselect hadmits hnew =>
    exact
      { hp with
        exclusive := .inr hselect
        distinct := List.nodup_append.mpr
          ⟨hp.distinct, List.pairwise_singleton _ path, by
            rintro a ha b hb rfl
            exact hnew (List.mem_singleton.mp hb ▸ ha)⟩
        admitted := List.forall_mem_append.mpr
          ⟨hp.admitted, List.forall_mem_singleton.mpr hadmits⟩ }
  | table t hfault =>
    exact
      { hp with
        tables := List.forall_mem_append.mpr
          ⟨hp.tables, List.forall_mem_singleton.mpr (CommonTable.complete_of_fault? hfault)⟩ }
  | window w => exact { hp with }
  | case k hbranches =>
    exact
      { hp with
        cases := List.forall_mem_append.mpr ⟨hp.cases, List.forall_mem_singleton.mpr hbranches⟩ }
  | operation o => exact hp
  | join sql => exact { hp with }
  | select sql hincludes => exact { hp with exclusive := .inl hincludes }
  | source sql => exact { hp with }
  | distinct distinct => exact { hp with }
  | limit n hn => exact { hp with limit := by rintro m ⟨⟩; exact hn }
  | offset n hn => exact { hp with offset := by rintro m ⟨⟩; exact hn }

theorem Registers.maxIncludeDepth {p q : Plan} {t : Option CommonTable} (h : Registers p t q) :
    q.clauses.maxIncludeDepth = p.clauses.maxIncludeDepth := by
  cases h <;> rfl

-- The clauses that are refused behind a set operation are the same.
structure Plan.Settled (p q : Plan) : Prop where
  conditions : q.conditions = p.conditions
  groupKeys : q.clauses.groupKeys = p.clauses.groupKeys
  having : q.clauses.having = p.clauses.having
  includes : q.clauses.includes = p.clauses.includes

namespace Plan.Settled

variable {p q r : Plan}

theorem refl (p : Plan) : p.Settled p := ⟨rfl, rfl, rfl, rfl⟩

theorem trans (h : p.Settled q) (h' : q.Settled r) : p.Settled r :=
  ⟨h'.conditions.trans h.conditions, h'.groupKeys.trans h.groupKeys, h'.having.trans h.having,
    h'.includes.trans h.includes⟩

end Plan.Settled

theorem Registers.settled {p q : Plan} {t : Option CommonTable} (h : Registers p t q)
    (hp : p.operations ≠ []) :
    p.Settled q ∧ q.operations ≠ [] := by
  cases h with
  | condition c hsole => exact absurd hsole hp
  | groupKey e hsole => exact absurd hsole hp
  | having e hsole hkeys => exact absurd hsole hp
  | path path hsole hselect hadmits hnew => exact absurd hsole hp
  | operation o => exact ⟨⟨rfl, rfl, rfl, rfl⟩, by simp⟩
  | _ => exact ⟨⟨rfl, rfl, rfl, rfl⟩, hp⟩

namespace Plan

-- The plan behind a call, whether the call succeeds or fails.
def called (p : Plan) (r : Registration) : Plan := (r.run.run.run p).run.2

-- The plan behind many calls.
def after (p : Plan) (calls : List Registration) : Plan := calls.foldl called p

variable {p : Plan}

theorem eq_or_registers_called (p : Plan) (r : Registration) :
    p.called r = p ∨ Registers p r.declared (p.called r) := by
  cases hrun : (r.run.run.run p).run with
  | mk result q =>
    have hq : p.called r = q := by rw [called, hrun]
    rw [hq]
    cases result with
    | error e => exact .inl (r.guarded p e q hrun)
    | ok u => exact .inr (Registration.registers hrun)

-- What every registration keeps holds behind all calls.
theorem keeps_after {P : Plan → Prop} (hstep : ∀ p t q, Registers p t q → P p → P q)
    (calls : List Registration) (hp : P p) : P (p.after calls) := by
  induction calls generalizing p with
  | nil => exact hp
  | cons r rest ih =>
    refine ih ?_
    rcases p.eq_or_registers_called r with h | h
    · rwa [h]
    · exact hstep p _ _ h hp

theorem wellFormed_new (root : Entity) (maxIncludeDepth : Int) :
    (new root maxIncludeDepth).clauses.WellFormed where
  exclusive := .inl rfl
  grouped h := absurd rfl h
  distinct := .nil
  admitted := by simp [new]
  limit := by rintro n ⟨⟩
  offset := by rintro n ⟨⟩
  tables := by simp [new]
  cases := by simp [new]

theorem settled_after (calls : List Registration) (hp : p.operations ≠ []) :
    p.Settled (p.after calls) ∧ (p.after calls).operations ≠ [] :=
  keeps_after (P := fun q => p.Settled q ∧ q.operations ≠ [])
    (fun _ _ _ h hq => ⟨hq.1.trans (h.settled hq.2).1, (h.settled hq.2).2⟩) calls ⟨.refl p, hp⟩

-- What calls make of a new plan is well formed for the depth it was made with.
-- Behind a set operation, further calls leave the clauses before it alone.
theorem wellFormed_after (root : Entity) (maxIncludeDepth : Int)
    (calls more : List Registration) :
    ((new root maxIncludeDepth).after calls).clauses.WellFormed ∧
      ((new root maxIncludeDepth).after calls).clauses.maxIncludeDepth = maxIncludeDepth ∧
      (((new root maxIncludeDepth).after calls).operations ≠ [] →
        ((new root maxIncludeDepth).after calls).Settled
          (((new root maxIncludeDepth).after calls).after more)) :=
  ⟨keeps_after (P := fun p => p.clauses.WellFormed) (fun _ _ _ h hp => h.wellFormed hp) calls
      (wellFormed_new root maxIncludeDepth),
    keeps_after (P := fun p => p.clauses.maxIncludeDepth = maxIncludeDepth)
      (fun _ _ _ h hp => h.maxIncludeDepth.trans hp) calls rfl,
    fun hoperations => (settled_after more hoperations).1⟩

def combiningCalls : List Registration :=
  [.addInclude "Author", .having none, .addInclude "Author", .thenInclude "Company",
    .combineRaw .union "SELECT * FROM old_posts", .selectRaw "1"]

def lateCalls : List Registration :=
  [.addInclude "Comments", .groupBy none, .filterRaw "views > 1" [], .limit 3]

theorem wellFormed_after_combiningCalls :
    ∃ p, p = (new Catalogue.postEntity 5).after combiningCalls ∧ p.clauses.WellFormed ∧
      p.clauses.includes = ["Author", "Author.Company"] ∧
      (p.after lateCalls).clauses.includes = ["Author", "Author.Company"] ∧
      (p.after lateCalls).clauses.limit = some 3 := by
  obtain ⟨hformed, -, hsettled⟩ :=
    wellFormed_after Catalogue.postEntity 5 combiningCalls lateCalls
  have hincludes : ((new Catalogue.postEntity 5).after combiningCalls).clauses.includes =
      ["Author", "Author.Company"] := by decide
  exact ⟨_, rfl, hformed, hincludes, (hsettled (by decide)).includes.trans hincludes, by decide⟩

end Plan

end EntitySql.Query
