import EntitySql.Proofs.Include.Related

-- How many rows the joins of a plan make of one record of the root, and what
-- these rows hold.

namespace EntitySql.Include

-- A row before any join: the record alone, behind the alias of the root.
def Joined.alone (r : Record) : Joined := Joined.bind (fun _ => none) Node.rootAlias (some r)

-- The records that a chain of navigations leads to from one record.
def reachedFrom (db : Database) (chain : List Node) (r : Record) : List Record :=
  chain.foldl (fun records n => records.flatMap (related db n)) [r]

variable {db : Database} {n : Node} {row last : Joined} {r other : Record}

theorem mem_reachedFrom_append_singleton {chain : List Node} :
    other ∈ reachedFrom db (chain ++ [n]) r ↔
      ∃ mid ∈ reachedFrom db chain r, other ∈ related db n mid := by
  simp [reachedFrom]

theorem joinAll_append (js more : List Join) (rows : List Joined) :
    joinAll db (js ++ more) rows = joinAll db more (joinAll db js rows) := List.foldl_append ..

theorem joinAll_eq_flatMap (js : List Join) (rows : List Joined) :
    joinAll db js rows = rows.flatMap fun row => joinAll db js [row] := by
  induction js generalizing rows with
  | nil => simp [joinAll]
  | cons j rest ih =>
    have hstep : ∀ rows, joinAll db (j :: rest) rows = joinAll db rest (leftJoin db rows j) :=
      fun _ => rfl
    simp only [hstep]
    rw [ih, leftJoin, List.flatMap_assoc]
    refine congrArg (rows.flatMap ·) (funext fun row => ?_)
    rw [ih (leftJoin db [row] j), leftJoin, List.flatMap_singleton]

-- A join that finds one record at most makes one row.
theorem Join.length_extend {j : Join} (h : ((db j.table).filter (j.holds row)).length ≤ 1) :
    (j.extend db row).length = 1 := by
  rw [extend]
  cases hfound : (db j.table).filter (j.holds row) with
  | nil => rfl
  | cons first rest =>
    rw [hfound] at h
    simpa using h

-- The join of a reference or a collection finds the related records.
theorem filter_holds {j : Join} (hjoins : joinsOf n = [j])
    (hparent : n.parentAlias ≠ n.aliasName) :
    (db j.table).filter (j.holds row) = ((row n.parentAlias).map (related db n)).getD [] := by
  have hholds : ∀ left right, Join.holds ⟨n.target.table, n.aliasName, (n.parentAlias, left),
      (n.aliasName, right)⟩ row = fun r => (row.value (n.parentAlias, left)).equals (r.cell right) :=
    fun _ _ => funext fun _ => Join.holds_eq hparent rfl
  unfold joinsOf at hjoins
  split at hjoins
  case h_3 => cases hjoins
  all_goals
    next column hrelationship =>
    cases hjoins
    rw [hholds]
    cases hrow : row n.parentAlias with
    | none => simp [Joined.value, hrow, Value.equals, Value.isNull]
    | some r => simp [Joined.value, hrow, related, hrelationship, keyOf]

namespace Plan

variable {registry : Registry} {p : Plan}

-- The rows of a plan that one record of the root has.
def joinedFrom (db : Database) (p : Plan) (r : Record) : List Joined :=
  joinAll db (joins p) [Joined.alone r]

def fanOut (db : Database) (p : Plan) (r : Record) : Nat := (p.joinedFrom db r).length

theorem joined_eq_flatMap (db : Database) (p : Plan) :
    p.joined db = (db p.root.table).flatMap (p.joinedFrom db) := by
  rw [joined, joinAll_eq_flatMap, List.flatMap_map]
  rfl

theorem Sound.recordAt_joinedFrom (h : p.Sound registry) (hrow : row ∈ p.joinedFrom db r) :
    row.recordAt [] = some r := by
  rw [h.recordAt_nil hrow, Joined.alone, Joined.bind_self]

-- The rows of a plan hold every record of the root as often as it fans out.
theorem Sound.map_recordAt_joined (h : p.Sound registry) :
    (p.joined db).map (·.recordAt []) =
      ((db p.root.table).flatMap fun r => List.replicate (p.fanOut db r) r).map some := by
  rw [joined_eq_flatMap, List.map_flatMap, List.map_flatMap]
  refine congrArg ((db p.root.table).flatMap ·) (funext fun r => ?_)
  rw [List.map_replicate]
  refine List.eq_replicate_iff.mpr ⟨by rw [List.length_map, fanOut], fun found hfound => ?_⟩
  obtain ⟨row, hrow, rfl⟩ := List.mem_map.mp hfound
  exact h.recordAt_joinedFrom hrow

-- The rows of a record hold what the chains lead to from it.
theorem Sound.mem_reachedFrom_iff (h : p.Sound registry) {chain : List Node}
    (hchain : p.Chain chain) : other ∈ reachedFrom db chain r ↔
      ∃ row ∈ p.joinedFrom db r, row.recordAt chain = some other := by
  induction chain using List.reverseRecOn generalizing other with
  | nil =>
    have hself : other ∈ reachedFrom db [] r ↔ other = r := List.mem_singleton
    rw [hself]
    constructor
    · rintro rfl
      obtain ⟨row, hrow⟩ := exists_mem_joinAll db (joins p) (Joined.alone other)
      exact ⟨row, hrow, h.recordAt_joinedFrom hrow⟩
    · rintro ⟨row, hrow, hat⟩
      rw [h.recordAt_joinedFrom hrow, Option.some.injEq] at hat
      exact hat.symm
  | append_singleton init n ih =>
    obtain ⟨hinit, hn, hparent⟩ := chain_append_singleton.mp hchain
    rw [mem_reachedFrom_append_singleton]
    constructor
    · rintro ⟨mid, hmid, hrelated⟩
      obtain ⟨row, hrow, hat⟩ := (ih hinit).mp hmid
      rw [(recordAt_append_singleton row hparent).1] at hat
      obtain ⟨row', hrow', -, hself⟩ := h.joinAll_of_related hn hrow hat hrelated
      exact ⟨row', hrow', by rw [(recordAt_append_singleton row' hparent).2, hself]⟩
    · rintro ⟨row, hrow, hat⟩
      obtain ⟨hup, hself⟩ := recordAt_append_singleton row hparent
      rw [hself] at hat
      obtain ⟨mid, hmid, hrelated⟩ := h.related_of_joinAll hn hrow hat
      exact ⟨mid, (ih hinit).mpr ⟨row, hrow, by rw [hup, hmid]⟩, hrelated⟩

-- Where every navigation leads to one record at most and needs no junction,
-- there is one row for every record of the root.
theorem Sound.fanOut_eq_one (h : p.Sound registry)
    (hone : ∀ n ∈ p.nodes, ∃ j, joinsOf n = [j] ∧ ∀ mid, (related db n mid).length ≤ 1) :
    p.fanOut db r = 1 := by
  have hrows : ∀ nodes, nodes ⊆ p.nodes → ∀ row : Joined,
      (joinAll db (nodes.flatMap joinsOf) [row]).length = 1 := by
    intro nodes
    induction nodes with
    | nil => exact fun _ _ => rfl
    | cons n rest ih =>
      intro hnodes row
      obtain ⟨hn, hrest⟩ := List.cons_subset.mp hnodes
      obtain ⟨j, hjoins, hlength⟩ := hone n hn
      have hfound : ((db j.table).filter (j.holds row)).length ≤ 1 := by
        rw [filter_holds hjoins (h.parentAlias_ne hn)]
        cases row n.parentAlias with
        | none => exact Nat.zero_le 1
        | some mid => exact hlength mid
      obtain ⟨next, hnext⟩ := List.length_eq_one_iff.mp (Join.length_extend hfound)
      have hfirst : joinAll db [j] [row] = [next] := by simpa [joinAll, leftJoin] using hnext
      rw [List.flatMap_cons, hjoins, joinAll_append, hfirst]
      exact ih hrest next
  exact hrows p.nodes (List.Subset.refl _) (Joined.alone r)

end Plan

end EntitySql.Include
