import EntitySql.Proofs.Include.LeftJoin
import EntitySql.Proofs.Include.Names

-- The joined rows of a plan pair every record with the records that its
-- navigations lead to, and with nothing else.

namespace EntitySql.Include

-- The key of a record of an entity.
def keyOf (e : Entity) (r : Record) : Value := r.cell (keyColumn e)

-- The records that a navigation leads to from a record: those with the key
-- that it refers to, those that refer to its key, or those that a record of
-- the junction table pairs with it.
def related (db : Database) (n : Node) (r : Record) : List Record :=
  (db n.target.table).filter fun other =>
    match n.navigation.relationship with
    | .reference column => (r.cell column).equals (keyOf n.target other)
    | .collection column => (keyOf n.source r).equals (other.cell column)
    | .manyToMany junction parentColumn targetColumn => (db junction).any fun pair =>
      (keyOf n.source r).equals (pair.cell parentColumn) &&
        (pair.cell targetColumn).equals (keyOf n.target other)

-- The aliases that the joins of a node bind.
def boundBy (n : Node) (a : Text) : Prop := a = n.aliasName ∨ a = n.junctionAlias

variable {db : Database} {n : Node} {row last : Joined}

theorem Joined.equals_of_value {row : Joined} {column : Text × Text} {v : Value}
    (h : (row.value column).equals v = true) :
    ∃ r, row column.1 = some r ∧ (r.cell column.2).equals v = true := by
  cases hrow : row column.1 with
  | none => simp [value, hrow, Value.equals, Value.isNull] at h
  | some r =>
    refine ⟨r, rfl, ?_⟩
    simpa [value, hrow] using h

theorem joinsOf_keeps (hlast : last ∈ joinAll db (joinsOf n) [row]) {a : Text} (ha : ¬boundBy n a) :
    last a = row a := by
  have hstep : ∀ {j : Join} {row next : Joined}, next ∈ j.extend db row → a ≠ j.aliasName →
      next a = row a := by
    intro j row next hnext hne
    rcases Join.mem_extend.mp hnext with ⟨r, -, -, rfl⟩ | ⟨-, rfl⟩
    · exact row.bind_other hne _
    · exact row.bind_other hne _
  simp only [boundBy, not_or] at ha
  rw [joinsOf] at hlast
  split at hlast
  · exact hstep (mem_joinAll_singleton.mp hlast) ha.1
  · exact hstep (mem_joinAll_singleton.mp hlast) ha.1
  · obtain ⟨mid, hmid, hlast⟩ := mem_joinAll_pair.mp hlast
    rw [hstep hlast ha.1, hstep hmid ha.2]

-- A join that finds a record finds it by its condition.
theorem Join.found {j : Join} {next : Joined} (hleft : j.left.1 ≠ j.aliasName)
    (hright : j.right.1 = j.aliasName) (hnext : next ∈ j.extend db row) {other : Record}
    (hother : next j.aliasName = some other) :
    other ∈ db j.table ∧ ∃ r, row j.left.1 = some r ∧
      (r.cell j.left.2).equals (other.cell j.right.2) = true := by
  rcases Join.mem_extend.mp hnext with ⟨r, hr, hholds, rfl⟩ | ⟨-, rfl⟩
  · rw [Joined.bind_self, Option.some.injEq] at hother
    subst hother
    rw [Join.holds_eq hleft hright] at hholds
    exact ⟨hr, Joined.equals_of_value hholds⟩
  · rw [Joined.bind_self] at hother
    cases hother

theorem Join.finds {j : Join} (hleft : j.left.1 ≠ j.aliasName) (hright : j.right.1 = j.aliasName)
    {r other : Record} (hr : row j.left.1 = some r) (hother : other ∈ db j.table)
    (hequal : (r.cell j.left.2).equals (other.cell j.right.2) = true) :
    row.bind j.aliasName (some other) ∈ j.extend db row := by
  refine Join.mem_extend.mpr (.inl ⟨other, hother, ?_, rfl⟩)
  rw [Join.holds_eq hleft hright, Joined.value, hr]
  exact hequal

theorem related_of_joinsOf (hparent : n.parentAlias ≠ n.aliasName)
    (hlast : last ∈ joinAll db (joinsOf n) [row]) {other : Record}
    (hother : last n.aliasName = some other) :
    ∃ r, row n.parentAlias = some r ∧ other ∈ related db n r := by
  have hjunction : n.junctionAlias ≠ n.aliasName := n.junctionAlias_ne n.number
  have hjunction' : n.parentAlias ≠ n.junctionAlias := by
    rw [n.parentAlias_eq]
    exact (n.junctionAlias_ne _).symm
  rw [joinsOf] at hlast
  split at hlast
  · next column hrelationship =>
    obtain ⟨hmem, r, hr, hequal⟩ :=
      Join.found hparent rfl (mem_joinAll_singleton.mp hlast) hother
    refine ⟨r, hr, List.mem_filter.mpr ⟨hmem, ?_⟩⟩
    rw [hrelationship]
    exact hequal
  · next column hrelationship =>
    obtain ⟨hmem, r, hr, hequal⟩ :=
      Join.found hparent rfl (mem_joinAll_singleton.mp hlast) hother
    refine ⟨r, hr, List.mem_filter.mpr ⟨hmem, ?_⟩⟩
    rw [hrelationship]
    exact hequal
  · next junction parentColumn targetColumn hrelationship =>
    obtain ⟨mid, hmid, hlast⟩ := mem_joinAll_pair.mp hlast
    obtain ⟨hmem, pair, hpair, htarget⟩ := Join.found hjunction rfl hlast hother
    obtain ⟨hpair_mem, r, hr, hsource⟩ := Join.found hjunction' rfl hmid hpair
    refine ⟨r, hr, List.mem_filter.mpr ⟨hmem, ?_⟩⟩
    rw [hrelationship]
    exact List.any_eq_true.mpr ⟨pair, hpair_mem, Bool.and_eq_true_iff.mpr ⟨hsource, htarget⟩⟩

theorem joinsOf_of_related (hparent : n.parentAlias ≠ n.aliasName) {r other : Record}
    (hr : row n.parentAlias = some r) (hother : other ∈ related db n r) :
    ∃ last, last ∈ joinAll db (joinsOf n) [row] ∧ last n.aliasName = some other := by
  have hjunction : n.junctionAlias ≠ n.aliasName := n.junctionAlias_ne n.number
  have hjunction' : n.parentAlias ≠ n.junctionAlias := by
    rw [n.parentAlias_eq]
    exact (n.junctionAlias_ne _).symm
  obtain ⟨hmem, hpaired⟩ := List.mem_filter.mp hother
  rw [joinsOf]
  cases hrelationship : n.navigation.relationship with
  | reference column =>
    rw [hrelationship] at hpaired
    exact ⟨_, mem_joinAll_singleton.mpr (Join.finds hparent rfl hr hmem hpaired), Joined.bind_self ..⟩
  | collection column =>
    rw [hrelationship] at hpaired
    exact ⟨_, mem_joinAll_singleton.mpr (Join.finds hparent rfl hr hmem hpaired), Joined.bind_self ..⟩
  | manyToMany junction parentColumn targetColumn =>
    rw [hrelationship] at hpaired
    obtain ⟨pair, hpair, hboth⟩ := List.any_eq_true.mp hpaired
    obtain ⟨hsource, htarget⟩ := Bool.and_eq_true_iff.mp hboth
    have hmid : row.bind n.junctionAlias (some pair) ∈ Join.extend db ⟨junction, n.junctionAlias,
        (n.parentAlias, keyColumn n.source), (n.junctionAlias, parentColumn)⟩ row :=
      Join.finds hjunction' rfl hr hpair hsource
    have hbound := row.bind_self n.junctionAlias (some pair)
    have hlast : (row.bind n.junctionAlias (some pair)).bind n.aliasName (some other) ∈
        Join.extend db ⟨n.target.table, n.aliasName, (n.junctionAlias, targetColumn),
          (n.aliasName, keyColumn n.target)⟩ (row.bind n.junctionAlias (some pair)) :=
      Join.finds hjunction rfl hbound hmem htarget
    exact ⟨_, mem_joinAll_pair.mpr ⟨_, hmid, hlast⟩, Joined.bind_self ..⟩

-- The joins of later nodes leave the aliases of the earlier ones alone.
theorem joinsOf_nodes_keep {nodes : List Node} (hlast : last ∈ joinAll db (nodes.flatMap joinsOf) [row])
    {number : Nat} (hno : ∀ m ∈ nodes, number ≠ m.number) :
    last (Node.aliasOf number) = row (Node.aliasOf number) := by
  induction nodes generalizing row with
  | nil =>
    rw [List.mem_singleton.mp hlast]
  | cons m rest ih =>
    rw [List.flatMap_cons] at hlast
    obtain ⟨mid, hmid, hlast⟩ := mem_joinAll_append.mp hlast
    have hfree : ¬boundBy m (Node.aliasOf number) := by
      rintro (h | h)
      · exact hno m (List.mem_cons_self ..) (Node.aliasOf_injective h)
      · exact m.junctionAlias_ne number h.symm
    rw [ih hlast fun a ha => hno a (List.mem_cons_of_mem m ha), joinsOf_keeps hmid hfree]

-- The record behind the last alias of a chain; the empty chain ends at the
-- root.
def Joined.recordAt (row : Joined) (chain : List Node) : Option Record :=
  row (Node.aliasOf ((site chain).getD 0))

-- Some row of the page shows the record at the end of the chain.
def Shown (page : List Joined) (chain : List Node) (r : Record) : Prop :=
  ∃ joined ∈ page, joined.recordAt chain = some r

-- Some row of the page shows the other record next to it, below the node.
def ShownBelow (page : List Joined) (chain : List Node) (n : Node) (r other : Record) : Prop :=
  ∃ joined ∈ page, joined.recordAt chain = some r ∧ joined.recordAt (chain ++ [n]) = some other

-- The records that a chain of navigations leads to.
def reached (db : Database) (root : Entity) (chain : List Node) : List Record :=
  chain.foldl (fun records n => records.flatMap (related db n)) (db root.table)

theorem mem_reached_append_singleton {root : Entity} {chain : List Node} {other : Record} :
    other ∈ reached db root (chain ++ [n]) ↔ ∃ r ∈ reached db root chain, other ∈ related db n r := by
  simp [reached]

namespace Plan

-- The rows of a plan: one for each record of the root, and then the joins.
def joined (db : Database) (p : Plan) : List Joined :=
  joinAll db (joins p) ((db p.root.table).map fun r => Joined.bind (fun _ => none) Node.rootAlias (some r))

variable {registry : Registry} {p : Plan}

theorem Sound.parent_lt (h : p.Sound registry) (hn : n ∈ p.nodes) : n.parent.getD 0 < n.number := by
  cases hparent : n.parent with
  | some k => exact ((h.fits n hn).source_of_parent k hparent).1
  | none =>
    obtain ⟨i, hi⟩ := List.mem_iff_getElem?.mp hn
    rw [h.number i n hi]
    exact Nat.succ_pos i

theorem Sound.parentAlias_ne (h : p.Sound registry) (hn : n ∈ p.nodes) :
    n.parentAlias ≠ n.aliasName := by
  rw [n.parentAlias_eq]
  intro heq
  exact absurd (Node.aliasOf_injective heq) (Nat.ne_of_lt (h.parent_lt hn))

-- Where a row passes the joins of a node.
theorem joinAll_split {start : Joined} (hn : n ∈ p.nodes) (hlast : last ∈ joinAll db (joins p) [start]) :
    ∃ before after mid next, p.nodes = before ++ n :: after ∧
      mid ∈ joinAll db (before.flatMap joinsOf) [start] ∧ next ∈ joinAll db (joinsOf n) [mid] ∧
        last ∈ joinAll db (after.flatMap joinsOf) [next] := by
  obtain ⟨before, after, hsplit⟩ := List.append_of_mem hn
  rw [joins, hsplit, List.flatMap_append, List.flatMap_cons] at hlast
  obtain ⟨mid, hmid, hlast⟩ := mem_joinAll_append.mp hlast
  obtain ⟨next, hnext, hlast⟩ := mem_joinAll_append.mp hlast
  exact ⟨before, after, mid, next, hsplit, hmid, hnext, hlast⟩

-- Nodes behind a node bind neither its alias nor that of its parent.
theorem Sound.later_keep (h : p.Sound registry) {before after : List Node}
    (hsplit : p.nodes = before ++ n :: after) (hlast : last ∈ joinAll db (after.flatMap joinsOf) [row]) :
    last n.aliasName = row n.aliasName ∧ last n.parentAlias = row n.parentAlias := by
  have hn : n ∈ p.nodes := by simp [hsplit]
  have hparent := h.parent_lt hn
  have hincreasing := h.numbered.increasing
  rw [hsplit, List.pairwise_append, List.pairwise_cons] at hincreasing
  have hlater : ∀ m ∈ after, n.number < m.number := hincreasing.2.1.1
  constructor
  · exact joinsOf_nodes_keep hlast fun m hm => Nat.ne_of_lt (hlater m hm)
  · rw [n.parentAlias_eq]
    exact joinsOf_nodes_keep hlast fun m hm => Nat.ne_of_lt (Nat.lt_trans hparent (hlater m hm))

theorem Sound.own_joins_keep (h : p.Sound registry) (hn : n ∈ p.nodes)
    (hlast : last ∈ joinAll db (joinsOf n) [row]) : last n.parentAlias = row n.parentAlias := by
  refine joinsOf_keeps hlast ?_
  rintro (heq | heq)
  · exact h.parentAlias_ne hn heq
  · rw [n.parentAlias_eq] at heq
    exact n.junctionAlias_ne _ heq.symm

-- A record behind a node is related to the record behind its parent.
theorem Sound.related_of_joinAll (h : p.Sound registry) (hn : n ∈ p.nodes) {start : Joined}
    (hlast : last ∈ joinAll db (joins p) [start]) {other : Record}
    (hother : last n.aliasName = some other) :
    ∃ r, last n.parentAlias = some r ∧ other ∈ related db n r := by
  obtain ⟨before, after, mid, next, hsplit, hmid, hnext, hlast⟩ := joinAll_split hn hlast
  obtain ⟨hself, hparent⟩ := h.later_keep hsplit hlast
  rw [hself] at hother
  obtain ⟨r, hr, hrelated⟩ := related_of_joinsOf (h.parentAlias_ne hn) hnext hother
  exact ⟨r, by rw [hparent, h.own_joins_keep hn hnext, hr], hrelated⟩

-- Every related record stands behind the node in some row from the same
-- start.
theorem Sound.joinAll_of_related (h : p.Sound registry) (hn : n ∈ p.nodes) {start : Joined}
    (hlast : last ∈ joinAll db (joins p) [start]) {r other : Record}
    (hr : last n.parentAlias = some r) (hother : other ∈ related db n r) :
    ∃ row ∈ joinAll db (joins p) [start],
      row n.parentAlias = some r ∧ row n.aliasName = some other := by
  obtain ⟨before, after, mid, next, hsplit, hmid, hnext, hlast⟩ := joinAll_split hn hlast
  have hmid_parent : mid n.parentAlias = some r := by
    rw [← h.own_joins_keep hn hnext, ← (h.later_keep hsplit hlast).2, hr]
  obtain ⟨found, hfound, hself⟩ := joinsOf_of_related (h.parentAlias_ne hn) hmid_parent hother
  obtain ⟨row, hrow⟩ := exists_mem_joinAll db (after.flatMap joinsOf) found
  obtain ⟨hrow_self, hrow_parent⟩ := h.later_keep hsplit hrow
  refine ⟨row, ?_, ?_, by rw [hrow_self, hself]⟩
  · rw [joins, hsplit, List.flatMap_append, List.flatMap_cons]
    exact mem_joinAll_append.mpr ⟨mid, hmid, mem_joinAll_append.mpr ⟨found, hfound, hrow⟩⟩
  · rw [hrow_parent, h.own_joins_keep hn hfound, hmid_parent]

theorem Sound.related_of_joined (h : p.Sound registry) (hn : n ∈ p.nodes) (hlast : last ∈ p.joined db)
    {other : Record} (hother : last n.aliasName = some other) :
    ∃ r, last n.parentAlias = some r ∧ other ∈ related db n r := by
  obtain ⟨start, -, hlast⟩ := mem_joinAll.mp hlast
  exact h.related_of_joinAll hn hlast hother

theorem Sound.joined_of_related (h : p.Sound registry) (hn : n ∈ p.nodes) (hlast : last ∈ p.joined db)
    {r other : Record} (hr : last n.parentAlias = some r) (hother : other ∈ related db n r) :
    ∃ row ∈ p.joined db, row n.parentAlias = some r ∧ row n.aliasName = some other := by
  obtain ⟨start, hstart, hlast⟩ := mem_joinAll.mp hlast
  obtain ⟨row, hrow, hparent, hself⟩ := h.joinAll_of_related hn hlast hr hother
  exact ⟨row, mem_joinAll.mpr ⟨start, hstart, hrow⟩, hparent, hself⟩

-- No join binds the alias of the root.
theorem Sound.recordAt_nil (h : p.Sound registry) (hlast : last ∈ joinAll db (joins p) [row]) :
    last.recordAt [] = row Node.rootAlias := by
  have hno : ∀ m ∈ p.nodes, 0 ≠ m.number := by
    intro m hm
    have hlt := h.parent_lt hm
    omega
  rw [Node.rootAlias_eq]
  exact joinsOf_nodes_keep hlast hno

theorem Sound.recordAt_root (h : p.Sound registry) {r : Record} :
    r ∈ db p.root.table ↔ ∃ row ∈ p.joined db, row.recordAt [] = some r := by
  constructor
  · intro hr
    obtain ⟨row, hrow⟩ :=
      exists_mem_joinAll db (joins p) (Joined.bind (fun _ => none) Node.rootAlias (some r))
    refine ⟨row, mem_joinAll.mpr ⟨_, List.mem_map_of_mem hr, hrow⟩, ?_⟩
    rw [h.recordAt_nil hrow, Joined.bind_self]
  · rintro ⟨row, hrow, hroot⟩
    obtain ⟨start, hmem, hrow⟩ := mem_joinAll.mp hrow
    obtain ⟨r', hr', rfl⟩ := List.mem_map.mp hmem
    rw [h.recordAt_nil hrow, Joined.bind_self, Option.some.injEq] at hroot
    exact hroot ▸ hr'

theorem exists_recordAt_root (h : p.Sound registry) (hlast : last ∈ p.joined db) :
    ∃ r, last.recordAt [] = some r := by
  obtain ⟨start, hmem, hrow⟩ := mem_joinAll.mp hlast
  obtain ⟨r, -, rfl⟩ := List.mem_map.mp hmem
  rw [h.recordAt_nil hrow, Joined.bind_self]
  exact ⟨r, rfl⟩

theorem recordAt_append_singleton (row : Joined) {chain : List Node} (hn : n.parent = site chain) :
    row.recordAt chain = row n.parentAlias ∧ row.recordAt (chain ++ [n]) = row n.aliasName := by
  rw [Joined.recordAt, Joined.recordAt, n.parentAlias_eq, hn, site_append_singleton]
  exact ⟨rfl, rfl⟩

-- The records behind a chain are those that it leads to.
theorem Sound.mem_reached_iff (h : p.Sound registry) {chain : List Node} (hchain : p.Chain chain)
    {r : Record} : r ∈ reached db p.root chain ↔ ∃ row ∈ p.joined db, row.recordAt chain = some r := by
  induction chain using List.reverseRecOn generalizing r with
  | nil => exact h.recordAt_root
  | append_singleton init n ih =>
    obtain ⟨hinit, hn, hparent⟩ := chain_append_singleton.mp hchain
    rw [mem_reached_append_singleton]
    constructor
    · rintro ⟨r₀, hr₀, hrelated⟩
      obtain ⟨row, hrow, hat⟩ := (ih hinit).mp hr₀
      rw [(recordAt_append_singleton row hparent).1] at hat
      obtain ⟨row', hrow', -, hself⟩ := h.joined_of_related hn hrow hat hrelated
      exact ⟨row', hrow', by rw [(recordAt_append_singleton row' hparent).2, hself]⟩
    · rintro ⟨row, hrow, hat⟩
      obtain ⟨hup, hself⟩ := recordAt_append_singleton row hparent
      rw [hself] at hat
      obtain ⟨r₀, hr₀, hrelated⟩ := h.related_of_joined hn hrow hat
      exact ⟨r₀, (ih hinit).mpr ⟨row, hrow, by rw [hup, hr₀]⟩, hrelated⟩

end Plan

end EntitySql.Include
