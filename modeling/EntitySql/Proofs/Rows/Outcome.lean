import EntitySql.Proofs.Rows.Read
import EntitySql.Proofs.Rows.Values
import EntitySql.Schema.Catalogue

-- What a run makes of its rows, without the history in between: which
-- instances there are, what they hold, and what they are linked to.

namespace EntitySql

open Include (Node Plan site)

namespace Include.Plan

-- The entity at the end of a chain, and the alias of its columns.

def entityAt (p : Plan) (chain : List Node) : Entity := (chain.getLast?.map Node.target).getD p.root

def aliasAt (chain : List Node) : Option Text := chain.getLast?.map Node.aliasName

theorem entityAt_nil (p : Plan) : p.entityAt [] = p.root := rfl

theorem entityAt_append_singleton (p : Plan) (chain : List Node) (n : Node) :
    p.entityAt (chain ++ [n]) = n.target := by
  simp [entityAt]

end Include.Plan

namespace Materializer

open Visit (firstAt keysAt keysBelow)

-- The keys that rows show at the end of a chain, in the order of the rows.
def chainKeys (m : Materializer) (columns : List Column) (rows : List Row) (chain : List Node) :
    List Value :=
  rows.filterMap fun row => m.chainKey? columns row chain

-- The row shows a key at the end of a chain.
def shows (m : Materializer) (same : Value → Value → Bool) (columns : List Column)
    (chain : List Node) (key : Value) (row : Row) : Bool :=
  (m.chainKey? columns row chain).any (same · key)

-- The keys that rows show for a node where they show the key of its parent.
def keysUnder (m : Materializer) (same : Value → Value → Bool) (columns : List Column)
    (rows : List Row) (chain : List Node) (n : Node) (key : Value) : List Value :=
  (rows.filter (m.shows same columns chain key)).filterMap fun row => m.shownKey? columns row n

variable {registry : Registry} {p : Plan} {m : Materializer} {same same' : Value → Value → Bool}
  {columns : List Column} {row : Row} {rows : List Row} {chain : List Node} {key : Value}

theorem mem_chainKeys :
    key ∈ m.chainKeys columns rows chain ↔ ∃ row ∈ rows, m.chainKey? columns row chain = some key :=
  List.mem_filterMap

theorem mem_keysIn_of_chainKey? (hchain : p.Chain chain) (hrow : row ∈ rows)
    (h : m.chainKey? columns row chain = some key) : key ∈ m.keysIn p columns rows := by
  rw [mem_keysIn]
  refine ⟨row, hrow, ?_⟩
  cases chain using List.reverseRecOn with
  | nil =>
    left
    simpa [chainKey?, descend] using h
  | append_singleton init n =>
    right
    rw [chainKey?_append_singleton, Option.bind_eq_some_iff] at h
    obtain ⟨_, -, hshown⟩ := h
    refine ⟨n, (Plan.chain_append_singleton.mp hchain).2.1, ?_⟩
    unfold shownKey? at hshown
    split at hshown
    · cases hshown
    · exact hshown

theorem mem_keysIn_of_chainKeys (hchain : p.Chain chain)
    (h : key ∈ m.chainKeys columns rows chain) : key ∈ m.keysIn p columns rows := by
  obtain ⟨row, hrow, hkey⟩ := mem_chainKeys.mp h
  exact mem_keysIn_of_chainKey? hchain hrow hkey

theorem filter_rowVisits_root :
    (m.rowVisits columns row).filter (fun v => v.site = none) =
      ((m.key? (m.rootBinding columns) row).map (m.rootVisit columns row)).toList := by
  rw [rowVisits]
  cases m.key? (m.rootBinding columns) row with
  | none => rfl
  | some key =>
    have hbelow : (m.forestVisits columns row key m.trees).filter (fun v => v.site = none) = [] := by
      simp only [List.filter_eq_nil_iff, decide_eq_true_eq]
      intro v hv hsite
      obtain ⟨a, -, hat⟩ := site_of_mem_forestVisits m.trees hv
      rw [hsite] at hat
      cases hat
    simp [rootVisit, hbelow]

theorem nodup_flatten (hsound : p.Sound registry) :
    ((Include.flattenAll p.trees).map Node.number).Nodup := by
  have hnodup : (p.nodes.map Node.number).Nodup := by
    rw [List.Nodup, List.pairwise_map]
    exact hsound.numbered.increasing.imp fun hlt => Nat.ne_of_lt hlt
  exact ((p.flatten_trees_perm.map Node.number).nodup_iff).mpr hnodup

theorem filter_rowVisits (hreads : m.Reads registry p columns rows) {chain : List Node} {n : Node}
    (hchain : p.Chain (chain ++ [n])) :
    (m.rowVisits columns row).filter (fun v => v.site = some n.number) =
      ((m.chainKey? columns row chain).bind fun key =>
        (m.shownKey? columns row n).map fun own => m.visitOf columns row key own n).toList := by
  rw [rowVisits]
  cases hkey : m.key? (m.rootBinding columns) row with
  | none => simp [chainKey?, hkey]
  | some key =>
    have hleads : Include.Leads m.trees (chain ++ [n]) := by
      rw [hreads.trees]
      exact (hreads.sound.leads_trees _).mpr hchain
    have hnodup : ((Include.flattenAll m.trees).map Node.number).Nodup := by
      rw [hreads.trees]
      exact nodup_flatten hreads.sound
    dsimp only
    rw [List.filter_cons_of_neg (by simp [rootVisit]), filter_forestVisits hleads hnodup, chainKey?, hkey,
      Option.bind_some]

-- A row visits the end of a chain at most once: under the key that it shows
-- there, and with the instance that it would give.
theorem exists_filter_rowVisits (hreads : m.Reads registry p columns rows) {chain : List Node}
    (hchain : p.Chain chain) (row : Row) : ∃ visit : Option Visit,
      (m.rowVisits columns row).filter (fun v => v.site = site chain) = visit.toList ∧
      visit.map Visit.key = m.chainKey? columns row chain ∧
      ∀ v ∈ visit, v.reading = row.readInstance m.converter (m.binding columns chain) := by
  cases chain using List.reverseRecOn with
  | nil =>
    refine ⟨_, filter_rowVisits_root, ?_, ?_⟩
    · cases hkey : m.key? (m.rootBinding columns) row <;> simp [chainKey?, descend, rootVisit, hkey]
    · intro v hv
      obtain ⟨key, -, rfl⟩ := Option.map_eq_some_iff.mp hv
      rfl
  | append_singleton init n =>
    rw [Include.site_append_singleton]
    refine ⟨_, filter_rowVisits hreads hchain, ?_, ?_⟩
    · rw [chainKey?_append_singleton]
      cases m.chainKey? columns row init with
      | none => rfl
      | some key => cases hn : m.shownKey? columns row n <;> simp [visitOf]
    · intro v hv
      obtain ⟨key, -, hv⟩ := Option.bind_eq_some_iff.mp hv
      obtain ⟨own, -, rfl⟩ := Option.map_eq_some_iff.mp hv
      rw [binding_append_singleton]
      rfl

-- The first visit of a key is made by the first row that shows it.
theorem firstAt_visits (hreads : m.Reads registry p columns rows) (hchain : p.Chain chain)
    (same : Value → Value → Bool) (key : Value) (some_rows : List Row) :
    (firstAt same (some_rows.flatMap (m.rowVisits columns)) (site chain) key).map Visit.reading =
      (some_rows.find? (m.shows same columns chain key)).map fun row =>
        row.readInstance m.converter (m.binding columns chain) := by
  induction some_rows with
  | nil => rfl
  | cons row rest ih =>
    obtain ⟨visit, hvisit, hkey, hreading⟩ := exists_filter_rowVisits hreads hchain row
    have hfirst : firstAt same (m.rowVisits columns row) (site chain) key =
        visit.filter fun v => same v.key key := by
      rw [Visit.firstAt_eq_find?_filter, hvisit]
      cases visit with
      | none => rfl
      | some v => cases hsame : same v.key key <;> simp [Option.filter, hsame]
    have hshows : m.shows same columns chain key row =
        (visit.filter fun v => same v.key key).isSome := by
      rw [shows, ← hkey]
      cases visit with
      | none => rfl
      | some v => cases hsame : same v.key key <;> simp [Option.filter, hsame]
    have hsplit : firstAt same ((row :: rest).flatMap (m.rowVisits columns)) (site chain) key =
        (firstAt same (m.rowVisits columns row) (site chain) key).or
          (firstAt same (rest.flatMap (m.rowVisits columns)) (site chain) key) := by
      simp only [firstAt, List.flatMap_cons, List.find?_append]
    rw [hsplit, hfirst, List.find?_cons, hshows]
    cases hkept : visit.filter fun v => same v.key key with
    | none => exact ih
    | some v =>
      have hv : v ∈ visit := (Option.mem_filter_iff.mp hkept).1
      simp [hreading v hv]

theorem keysAt_visits (rows : List Row) :
    keysAt (rows.flatMap (m.rowVisits columns)) none = m.chainKeys columns rows [] := by
  induction rows with
  | nil => rfl
  | cons row rest ih =>
    have hsplit : keysAt ((row :: rest).flatMap (m.rowVisits columns)) none =
        keysAt (m.rowVisits columns row) none ++ keysAt (rest.flatMap (m.rowVisits columns)) none := by
      simp [keysAt]
    rw [hsplit, ih, keysAt, filter_rowVisits_root, chainKeys, chainKeys, List.filterMap_cons]
    cases hkey : m.key? (m.rootBinding columns) row <;> simp [chainKey?, descend, rootVisit, hkey]

theorem keysBelow_visits (hreads : m.Reads registry p columns rows) {n : Node}
    (hchain : p.Chain (chain ++ [n])) (same : Value → Value → Bool) (key : Value)
    (some_rows : List Row) :
    keysBelow same (some_rows.flatMap (m.rowVisits columns)) (some n.number) key =
      m.keysUnder same columns some_rows chain n key := by
  induction some_rows with
  | nil => rfl
  | cons row rest ih =>
    have hsplit : keysBelow same ((row :: rest).flatMap (m.rowVisits columns)) (some n.number) key =
        keysBelow same (m.rowVisits columns row) (some n.number) key ++
          keysBelow same (rest.flatMap (m.rowVisits columns)) (some n.number) key := by
      simp [keysBelow]
    have hrow : keysBelow same (m.rowVisits columns row) (some n.number) key =
        m.keysUnder same columns [row] chain n key := by
      rw [Visit.keysBelow_eq_map_filter, filter_rowVisits hreads hchain]
      cases hparent : m.chainKey? columns row chain with
      | none => simp [keysUnder, shows, hparent]
      | some k =>
        cases hown : m.shownKey? columns row n <;> cases hsame : same k key <;>
          simp [keysUnder, shows, visitOf, hparent, hown, hsame]
    rw [hsplit, ih, hrow]
    simp only [keysUnder, ← List.filterMap_append, ← List.filter_append, List.singleton_append]

-- A run that made its instances of rows. They have their places by chain and
-- key, and a place holds the first row that shows the key there.
structure Outcome (m : Materializer) (same : Value → Value → Bool) (p : Plan)
    (columns : List Column) (rows : List Row) (ids : List InstanceId) (store : Store)
    (place : List Node → Value → InstanceId) : Prop where
  roots : ids = (firstKeys same (m.chainKeys columns rows [])).map (place [])
  content : ∀ chain, p.Chain chain → ∀ key ∈ m.chainKeys columns rows chain, ∃ row i j,
    rows.find? (m.shows same columns chain key) = some row ∧
      store.get? (place chain key) = some i ∧
      row.readInstance m.converter (m.binding columns chain) = .ok j ∧ i.type = j.type ∧
      i.values = j.values
  links : ∀ chain n, p.Chain (chain ++ [n]) → ∀ key ∈ m.chainKeys columns rows chain, ∀ i,
    store.get? (place chain key) = some i →
      i.linked n.navigation =
        (n.held same (m.keysUnder same columns rows chain n key)).map (place (chain ++ [n]))
  apart : ∀ chain other, p.Chain chain → p.Chain other → ∀ key ∈ m.chainKeys columns rows chain,
    ∀ key' ∈ m.chainKeys columns rows other,
      (place chain key = place other key' ↔ chain = other ∧ same key key' = true)

section Agreeing

variable (hagree : ∀ a ∈ m.keysIn p columns rows, ∀ b ∈ m.keysIn p columns rows,
  same a b = same' a b)
include hagree

theorem shows_eq (hchain : p.Chain chain) (hkey : key ∈ m.chainKeys columns rows chain)
    (hrow : row ∈ rows) : m.shows same columns chain key row = m.shows same' columns chain key row := by
  rw [shows, shows]
  cases hshown : m.chainKey? columns row chain with
  | none => rfl
  | some k =>
    exact hagree k (mem_keysIn_of_chainKey? hchain hrow hshown) key
      (mem_keysIn_of_chainKeys hchain hkey)

theorem keysUnder_eq (hchain : p.Chain chain) (hkey : key ∈ m.chainKeys columns rows chain)
    (n : Node) :
    m.keysUnder same columns rows chain n key = m.keysUnder same' columns rows chain n key := by
  rw [keysUnder, keysUnder, List.filter_congr fun row hrow => shows_eq hagree hchain hkey hrow]

theorem held_eq {n : Node} (hn : n ∈ p.nodes) (chain : List Node) (key : Value) :
    n.held same (m.keysUnder same' columns rows chain n key) =
      n.held same' (m.keysUnder same' columns rows chain n key) := by
  have hkeys : ∀ k ∈ m.keysUnder same' columns rows chain n key, k ∈ m.keysIn p columns rows := by
    intro k hk
    obtain ⟨row, hrow, hshown⟩ := List.mem_filterMap.mp hk
    refine mem_keysIn.mpr ⟨row, (List.mem_filter.mp hrow).1, .inr ⟨n, hn, ?_⟩⟩
    unfold shownKey? at hshown
    split at hshown
    · cases hshown
    · exact hshown
  rw [Node.held, Node.held, firstKeys_congr fun a ha b hb => hagree a (hkeys a ha) b (hkeys b hb)]

-- The outcome depends on how the test tells the keys of the rows apart alone.
theorem Outcome.of_agrees {ids : List InstanceId} {store : Store}
    {place : List Node → Value → InstanceId}
    (h : m.Outcome same p columns rows ids store place) :
    m.Outcome same' p columns rows ids store place where
  roots := by
    have hroot : p.Chain [] := trivial
    rw [h.roots, firstKeys_congr fun a ha b hb => hagree a (mem_keysIn_of_chainKeys hroot ha) b
      (mem_keysIn_of_chainKeys hroot hb)]
  content chain hchain key hkey := by
    obtain ⟨row, i, j, hrow, hrest⟩ := h.content chain hchain key hkey
    refine ⟨row, i, j, ?_, hrest⟩
    rw [← hrow, ← List.head?_filter, ← List.head?_filter,
      List.filter_congr fun row hrow => shows_eq hagree hchain hkey hrow]
  links chain n hchain key hkey i hi := by
    obtain ⟨hinit, hn, -⟩ := Plan.chain_append_singleton.mp hchain
    rw [h.links chain n hchain key hkey i hi, keysUnder_eq hagree hinit hkey, held_eq hagree hn]
  apart chain other hchain hother key hkey key' hkey' := by
    rw [h.apart chain other hchain hother key hkey key' hkey',
      hagree key (mem_keysIn_of_chainKeys hchain hkey) key' (mem_keysIn_of_chainKeys hother hkey')]

end Agreeing

def placeIn (same : Value → Value → Bool) (s : State) (chain : List Node) (key : Value) :
    InstanceId :=
  (s.memory.instance? same (site chain) key).getD 0

theorem instance?_placeIn {s : State} (h : (s.memory.instance? same (site chain) key).isSome) :
    s.memory.instance? same (site chain) key = some (placeIn same s chain key) := by
  obtain ⟨id, hid⟩ := Option.isSome_iff_exists.mp h
  rw [placeIn, hid, Option.getD_some]

section Graph

variable (hreads : m.Reads registry p columns rows) (hsorts : m.Sorts p columns rows same)
include hreads hsorts

-- A key that is shown is shown by a first row, and visited.
theorem exists_firstVisit (hchain : p.Chain chain) (hkey : key ∈ m.chainKeys columns rows chain) :
    ∃ row v, rows.find? (m.shows same columns chain key) = some row ∧
      firstAt same (rows.flatMap (m.rowVisits columns)) (site chain) key = some v ∧
      v.reading = row.readInstance m.converter (m.binding columns chain) := by
  obtain ⟨shown, hshown, hsome⟩ := mem_chainKeys.mp hkey
  have hself := hsorts.self key (mem_keysIn_of_chainKeys hchain hkey)
  have hany : (rows.find? (m.shows same columns chain key)).isSome :=
    List.find?_isSome.mpr ⟨shown, hshown, by rw [shows, hsome]; exact hself⟩
  obtain ⟨row, hrow⟩ := Option.isSome_iff_exists.mp hany
  have hvisit := firstAt_visits hreads hchain same key rows
  rw [hrow, Option.map_some, Option.map_eq_some_iff] at hvisit
  obtain ⟨v, hv, hreading⟩ := hvisit
  exact ⟨row, v, hrow, hv, hreading⟩

variable {s : State} (h : Graph (m.keysIn p columns rows) same p
  (rows.flatMap (m.rowVisits columns)) (rows.flatMap (m.rowVisits columns)) s)
include h

theorem instance?_of_mem_chainKeys (hchain : p.Chain chain)
    (hkey : key ∈ m.chainKeys columns rows chain) :
    s.memory.instance? same (site chain) key = some (placeIn same s chain key) := by
  obtain ⟨_, v, -, hv, -⟩ := exists_firstVisit hreads hsorts hchain hkey
  apply instance?_placeIn
  rw [← h.isSome_firstAt, hv]
  rfl

theorem linked_of_graph {n : Node} (hchain : p.Chain (chain ++ [n]))
    (hkey : key ∈ m.chainKeys columns rows chain) {i : Instance}
    (hi : s.store.get? (placeIn same s chain key) = some i) :
    i.linked n.navigation =
      (n.held same (m.keysUnder same columns rows chain n key)).map (placeIn same s (chain ++ [n])) := by
  obtain ⟨hinit, hn, hparent⟩ := Plan.chain_append_singleton.mp hchain
  have hid := instance?_of_mem_chainKeys hreads hsorts h hinit hkey
  rw [← hparent] at hid
  have htargets := h.targets n hn key _ i hid hi
  rw [keysBelow_visits hreads hchain] at htargets
  have hmap : ((n.held same (m.keysUnder same columns rows chain n key)).map
      (placeIn same s (chain ++ [n]))).map some = (i.linked n.navigation).map some := by
    rw [htargets, List.map_map]
    refine List.map_congr_left fun k hk => ?_
    have hmem : s.memory.instance? same (some n.number) k ∈ (i.linked n.navigation).map some := by
      rw [htargets]
      exact List.mem_map_of_mem hk
    obtain ⟨id, -, hthere⟩ := List.mem_map.mp hmem
    have hplace : s.memory.instance? same (site (chain ++ [n])) k =
        some (placeIn same s (chain ++ [n]) k) := by
      apply instance?_placeIn
      rw [Include.site_append_singleton, ← hthere]
      rfl
    rw [Include.site_append_singleton] at hplace
    exact hplace.symm
  exact ((List.map_inj_right fun _ _ => Option.some.inj).mp hmap).symm

theorem outcome_of_graph :
    m.Outcome same p columns rows (s.memory.roots.map (·.2)) s.store (placeIn same s) := by
  constructor
  case roots =>
    have hkeys := pairwise_firstKeys same (keysAt (rows.flatMap (m.rowVisits columns)) none)
    rw [← h.roots] at hkeys
    rw [← keysAt_visits, ← h.roots, List.map_map]
    refine List.map_congr_left fun e he => ?_
    have hself := hsorts.self e.1 (h.known.roots e he)
    have hid : s.memory.instance? same (site []) e.1 = some e.2 :=
      Memory.root?_of_mem h.classes hkeys he hself
    rw [Function.comp_apply, placeIn, hid, Option.getD_some]
  case content =>
    intro chain hchain key hkey
    obtain ⟨row, v, hrow, hv, hreading⟩ := exists_firstVisit hreads hsorts hchain hkey
    obtain ⟨id, i, j, hid, hi, hread, hrest⟩ := h.placed _ _ v hv
    have hplace : placeIn same s chain key = id := by rw [placeIn, hid, Option.getD_some]
    exact ⟨row, i, j, hrow, hplace ▸ hi, hreading ▸ hread, hrest⟩
  case links =>
    intro chain n hchain key hkey i hi
    exact linked_of_graph hreads hsorts h hchain hkey hi
  case apart =>
    intro chain other hchain hother key hkey key' hkey'
    have hid := instance?_of_mem_chainKeys hreads hsorts h hchain hkey
    have hid' := instance?_of_mem_chainKeys hreads hsorts h hother hkey'
    constructor
    · intro heq
      rw [← heq] at hid'
      obtain ⟨hsite, hsame⟩ := h.apart _ _ _ _ _ hid hid'
      exact ⟨hreads.sound.chain_eq_of_site_eq hchain hother hsite, hsame⟩
    · rintro ⟨rfl, hsame⟩
      rw [Memory.instance?_congr h.classes hsame, hid'] at hid
      exact (Option.some.inj hid).symm

end Graph

theorem holdsNan_of_mem_keysIn (hreads : m.Reads registry p columns rows)
    (h : key ∈ m.keysIn p columns rows) : key.holdsNan = false := by
  obtain ⟨row, hrow, hroot | ⟨n, hn, hnode⟩⟩ := mem_keysIn.mp h
  · exact hreads.rootKey.proper row hrow key hroot
  · exact (hreads.nodeKeys n hn).proper row hrow key hnode

-- A test that is symmetric, takes all keys without a NaN for themselves and is
-- transitive on the keys of the rows does as well as one that sorts all values.
theorem outcome_of_read {f : HashFunctions} (htest : m.same = Value.sameKey f) {set : ResultSet}
    (hreads : m.Reads registry p set.columns (rowsFrom 0 set.rows))
    (htrans : TransitiveOn (m.keysIn p set.columns (rowsFrom 0 set.rows)) (Value.sameKey f))
    {s t : State} (hfresh : s.memory = {}) {ids : List InstanceId}
    (hrun : Yields (m.read set) s ids t) :
    ∃ place, m.Outcome (Value.sameKey f) p set.columns (rowsFrom 0 set.rows) ids t.store place := by
  have hagree : ∀ a ∈ m.keysIn p set.columns (rowsFrom 0 set.rows),
      ∀ b ∈ m.keysIn p set.columns (rowsFrom 0 set.rows),
        restricted (m.keysIn p set.columns (rowsFrom 0 set.rows)) (Value.sameKey f) a b =
          Value.sameKey f a b := fun a ha b hb => restricted_of_mem ha hb
  have hsorts : m.Sorts p set.columns (rowsFrom 0 set.rows)
      (restricted (m.keysIn p set.columns (rowsFrom 0 set.rows)) (Value.sameKey f)) := by
    refine ⟨htrans.classifies (Value.sameKey_comm f), fun a ha b hb => ?_, fun key hkey => ?_⟩
    · rw [htest, hagree a ha b hb]
    · rw [hagree key hkey key hkey, Value.sameKey_self, holdsNan_of_mem_keysIn hreads hkey]
      rfl
  obtain ⟨hgraph, hroots⟩ := yields_readRows hreads hsorts rfl (fun _ hrow => hrow)
    (Graph.fresh hsorts.classes hfresh) hrun
  rw [hfresh, List.map_nil, List.nil_append] at hroots
  rw [List.nil_append] at hgraph
  exact ⟨_, (hroots ▸ outcome_of_graph hreads hsorts hgraph).of_agrees hagree⟩

-- The includes of a materializer: none, or those of a plan for its root.
structure Follows (m : Materializer) (registry : Registry) (p : Plan) : Prop where
  plan : p = { root := m.root } ∨ ∃ depth paths, Plan.ofPaths registry depth m.root paths = .ok p
  trees : m.trees = p.trees

theorem Follows.sound (h : m.Follows registry p) : p.Sound registry ∧ p.root = m.root := by
  rcases h.plan with rfl | ⟨depth, paths, hplan⟩
  · exact ⟨Plan.sound_empty m.root, rfl⟩
  · exact Plan.sound_ofPaths hplan

-- Keys without documents are always sorted (`transitiveOn_sameKey`), so that the
-- last hypothesis but two is about the documents among the keys alone.
theorem read_of_rows {f : HashFunctions} {set : ResultSet} (hplan : m.Follows registry p)
    (htest : m.same = Value.sameKey f)
    (hroot : m.ShowsKey (m.rootBinding set.columns) (rowsFrom 0 set.rows))
    (hnodes : ∀ n ∈ p.nodes, m.ShowsKey (nodeBinding set.columns n) (rowsFrom 0 set.rows))
    (hsorted : TransitiveOn (m.keysIn p set.columns (rowsFrom 0 set.rows)) (Value.sameKey f))
    {s t : State} (hfresh : s.memory = {}) {ids : List InstanceId} (hrun : Yields (m.read set) s ids t) :
    ∃ place : List Node → Value → InstanceId,
      ids = (firstKeys (Value.sameKey f) (m.chainKeys set.columns (rowsFrom 0 set.rows) [])).map
        (place []) ∧
      (∀ chain, p.Chain chain → ∀ key ∈ m.chainKeys set.columns (rowsFrom 0 set.rows) chain,
        ∃ row i,
          (rowsFrom 0 set.rows).find? (m.shows (Value.sameKey f) set.columns chain key) = some row ∧
          t.store.get? (place chain key) = some i ∧
          i.FilledFrom m.converter set.columns row (p.entityAt chain) (Plan.aliasAt chain) ∧
          ∀ n, p.Chain (chain ++ [n]) →
            (n.isCollection → i.linked n.navigation =
              (firstKeys (Value.sameKey f)
                (m.keysUnder (Value.sameKey f) set.columns (rowsFrom 0 set.rows) chain n key)).map
                  (place (chain ++ [n]))) ∧
            (¬n.isCollection → i.linked n.navigation =
              (m.keysUnder (Value.sameKey f) set.columns (rowsFrom 0 set.rows) chain n
                key).getLast?.toList.map (place (chain ++ [n])))) ∧
      ∀ chain other, p.Chain chain → p.Chain other →
        ∀ key ∈ m.chainKeys set.columns (rowsFrom 0 set.rows) chain,
          ∀ key' ∈ m.chainKeys set.columns (rowsFrom 0 set.rows) other,
            (place chain key = place other key' ↔ chain = other ∧ key.sameKey f key' = true) := by
  obtain ⟨hsound, hsame⟩ := hplan.sound
  obtain ⟨place, hout⟩ :=
    outcome_of_read htest ⟨hsound, hsame, hplan.trees, hroot, hnodes⟩ hsorted hfresh hrun
  refine ⟨place, hout.roots, ?_, hout.apart⟩
  intro chain hchain key hkey
  obtain ⟨row, i, j, hrow, hi, hread, htype, hvalues⟩ := hout.content chain hchain key hkey
  have hbinding : m.binding set.columns chain =
      .bind set.columns (p.entityAt chain) (Plan.aliasAt chain) := by
    rw [binding, Plan.entityAt, Plan.aliasAt, hsame]
    cases chain.getLast? <;> rfl
  rw [hbinding] at hread
  refine ⟨row, i, hrow, hi, (Row.filledFrom_of_readInstance hread).of_values htype hvalues, ?_⟩
  intro n hn
  have hlinks := hout.links chain n hn key hkey i hi
  rw [Node.held] at hlinks
  constructor
  · intro hcollection
    rw [hlinks, if_pos hcollection]
  · intro hone
    rw [hlinks, if_neg hone]

-- An author with two posts, one of them in two rows.
def postsNode : Node :=
  ⟨1, none, "Posts", ⟨"Posts", Catalogue.post, .collection "author_id"⟩, Catalogue.authorEntity,
    Catalogue.postEntity⟩

def postsPlan : Plan := ⟨Catalogue.authorEntity, [postsNode]⟩

def postsMaterializer : Materializer where
  root := Catalogue.authorEntity
  converter := {}
  trees := postsPlan.trees
  same := Value.sameKey HashFunctions.plain

def postsSet : ResultSet where
  columns := [⟨"id", []⟩, ⟨"t1_id", []⟩, ⟨"t1_title", []⟩]
  rows :=
    [[.int 1, .int 10, .string "A"], [.int 1, .int 11, .string "B"], [.int 1, .int 10, .string "C"]]

theorem forall_mem_postsSet {P : Row → Prop} : (∀ row ∈ rowsFrom 0 postsSet.rows, P row) ↔
    P ⟨0, [.int 1, .int 10, .string "A"]⟩ ∧ P ⟨1, [.int 1, .int 11, .string "B"]⟩ ∧
      P ⟨2, [.int 1, .int 10, .string "C"]⟩ := by
  simp [rowsFrom, postsSet]

theorem read_of_rows_posts :
    ∃ (t : State) (place : List Node → Value → InstanceId) (i j : Instance),
      Yields (postsMaterializer.read postsSet) {} [0] t ∧ [0] = [Value.int 1].map (place []) ∧
        t.store.get? (place [] (.int 1)) = some i ∧
        i.linked postsNode.navigation = [Value.int 10, .int 11].map (place [postsNode]) ∧
        t.store.get? (place [postsNode] (.int 10)) = some j ∧
        j.FilledFrom {} postsSet.columns ⟨0, [.int 1, .int 10, .string "A"]⟩ Catalogue.postEntity
          (some postsNode.aliasName) := by
  have hplan : postsMaterializer.Follows Catalogue.registry postsPlan :=
    ⟨.inr ⟨5, ["Posts"], by rfl⟩, rfl⟩
  have hroot : postsMaterializer.ShowsKey (postsMaterializer.rootBinding postsSet.columns)
      (rowsFrom 0 postsSet.rows) := by
    refine ⟨rfl, forall_mem_postsSet.mpr ⟨?_, ?_, ?_⟩, forall_mem_postsSet.mpr ⟨?_, ?_, ?_⟩⟩
    all_goals first
      | rintro - column ⟨⟩
        rfl
      | rintro key ⟨⟩
        rfl
  have hnodes : ∀ n ∈ postsPlan.nodes, postsMaterializer.ShowsKey (nodeBinding postsSet.columns n)
      (rowsFrom 0 postsSet.rows) := by
    intro n hn
    rw [postsPlan, List.mem_singleton] at hn
    subst hn
    refine ⟨rfl, forall_mem_postsSet.mpr ⟨?_, ?_, ?_⟩, forall_mem_postsSet.mpr ⟨?_, ?_, ?_⟩⟩
    all_goals first
      | rintro - column ⟨⟩
        rfl
      | rintro key ⟨⟩
        rfl
  have hsorted : TransitiveOn
      (postsMaterializer.keysIn postsPlan postsSet.columns (rowsFrom 0 postsSet.rows))
      (Value.sameKey HashFunctions.plain) := transitiveOn_sameKey _ (by decide)
  obtain ⟨t, hrun⟩ : ∃ t, Yields (postsMaterializer.read postsSet) {} [0] t := ⟨_, rfl⟩
  obtain ⟨place, hids, hplaces, -⟩ := read_of_rows hplan rfl hroot hnodes hsorted rfl hrun
  have hchain : postsPlan.Chain ([] ++ [postsNode]) := ⟨List.mem_singleton_self _, rfl, trivial⟩
  obtain ⟨_, i, -, hi, -, hlinks⟩ := hplaces [] trivial (.int 1) (mem_chainKeys.mpr ⟨_, .head _, rfl⟩)
  obtain ⟨row, j, hrow, hj, hfilled, -⟩ :=
    hplaces [postsNode] hchain (.int 10) (mem_chainKeys.mpr ⟨_, .head _, rfl⟩)
  have hfirst : row = ⟨0, [.int 1, .int 10, .string "A"]⟩ := (Option.some.inj hrow).symm
  subst hfirst
  exact ⟨t, place, i, j, hrun, hids, hi, (hlinks postsNode hchain).1 rfl, hj, hfilled⟩

end EntitySql.Materializer
