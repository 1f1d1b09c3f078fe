import EntitySql.Proofs.Rows.Visits

-- Reading rows keeps the graph in step with the visits of the rows.

namespace EntitySql.Materializer

open Include (Node Tree Plan Leads Descends)
open Visit (firstAt keysAt keysBelow)

-- The key column is bound, a row that shows anything of the entity shows its
-- key, and no key contains a NaN.
structure ShowsKey (m : Materializer) (b : EntityBinding) (rows : List Row) : Prop where
  bound : b.key?.isSome
  shown : ∀ row ∈ rows, row.isUnmatched b = false → ∀ column ∈ b.key?,
    (row.cell column.ordinal).isNull = false
  proper : ∀ row ∈ rows, ∀ key ∈ m.key? b row, key.holdsNan = false

-- The keys in the key columns of the root and of the nodes of a plan.
def keysIn (m : Materializer) (p : Plan) (columns : List Column) (rows : List Row) : List Value :=
  rows.flatMap fun row => (m.key? (m.rootBinding columns) row).toList ++
    p.nodes.flatMap fun n => (m.key? (nodeBinding columns n) row).toList

theorem mem_keysIn {m : Materializer} {p : Plan} {columns : List Column} {rows : List Row}
    {key : Value} :
    key ∈ m.keysIn p columns rows ↔ ∃ row ∈ rows, m.key? (m.rootBinding columns) row = some key ∨
      ∃ n ∈ p.nodes, m.key? (nodeBinding columns n) row = some key := by
  simp [keysIn]

-- Instances stay under their keys.
def Keeps (same : Value → Value → Bool) (s t : State) : Prop :=
  ∀ site key id, s.memory.instance? same site key = some id →
    t.memory.instance? same site key = some id

theorem Keeps.trans {same : Value → Value → Bool} {s t u : State} (h : Keeps same s t)
    (h' : Keeps same t u) : Keeps same s u := by
  intro site key id hid
  exact h' site key id (h site key id hid)

theorem Graph.keeps_remembering (same : Value → Value → Bool) (s : State) (site : Option Nat)
    (key : Value) (i : Instance) : Keeps same s (Graph.remembering s site key i) :=
  fun _ _ _ => Graph.instance?_remembering_of_some

variable {registry : Registry} {p : Plan} {m : Materializer} {columns : List Column} {row : Row}
  {rows : List Row} {visited : List Visit} {s t : State}

theorem yields_readKey {b : EntityBinding} {required : Bool} {key : Value} (hbound : b.key?.isSome)
    (hshown : required = false → ∀ column ∈ b.key?, (row.cell column.ordinal).isNull = false)
    (h : Yields (m.readKey b row required) s key t) : t = s ∧ m.key? b row = some key := by
  obtain ⟨column, hcolumn⟩ := Option.isSome_iff_exists.mp hbound
  simp only [readKey, hcolumn] at h
  cases hnull : (row.cell column.ordinal).isNull with
  | true =>
    cases required with
    | true => simp [hnull] at h
    | false => simp [hshown rfl column hcolumn] at hnull
  | false =>
    simp only [hnull, Bool.false_eq_true, if_false] at h
    obtain ⟨hread, rfl⟩ := Yields.lift_iff.mp h
    refine ⟨rfl, ?_⟩
    simp [key?, hcolumn, hnull, hread, Except.toOption]

theorem yields_insert {i : Instance} {id : InstanceId} (h : Yields (insert i) s id t) :
    id = s.store.size ∧ t = { s with store := (s.store.insert i).1 } := by
  simp only [insert] at h
  rw [Yields.get_bind_iff] at h
  simp only [Yields.bind_iff, Yields.set_iff, Yields.pure_iff] at h
  obtain ⟨_, _, rfl, rfl, rfl⟩ := h
  exact ⟨rfl, rfl⟩

-- A new instance of the target of a node has a place for every navigation
-- that the plan follows from there, and holds nothing in it.
theorem navigable_of_reading (hsound : p.Sound registry) {b : EntityBinding} {site : Option Nat}
    {j : Instance} (hread : row.readInstance m.converter b = .ok j)
    (hsource : ∀ n ∈ p.nodes, n.parent = site → n.source = b.entity) :
    (∀ n ∈ p.nodes, n.parent = site → j.Navigable n.navigation) ∧
      ∀ n : Navigation, j.linked n = [] := by
  obtain ⟨-, hlinks⟩ := Row.links_readInstance hread
  constructor
  · intro n hn hparent
    have hnavigation := hsound.navigation_mem hn
    rw [hsource n hn hparent] at hnavigation
    have hnew := Instance.navigable_new hnavigation
    rw [Instance.Navigable, ← hlinks] at hnew
    exact hnew
  · intro n
    have hnew := Instance.linked_new b.entity n
    rw [Instance.linked, ← hlinks] at hnew
    exact hnew

theorem source_of_parent (hsound : p.Sound registry) {n : Node} (hn : n ∈ p.nodes) :
    ∀ a ∈ p.nodes, a.parent = some n.number → a.source = n.target := by
  intro a ha hparent
  obtain ⟨-, q, hq, hnumber, hsource⟩ := (hsound.fits a ha).source_of_parent n.number hparent
  rw [hsource, hsound.eq_of_number_eq hq hn hnumber]

-- The trees of a materializer are those of the plan, below the same root, and
-- rows show the keys of everything that is read.
structure Reads (m : Materializer) (registry : Registry) (p : Plan) (columns : List Column)
    (rows : List Row) : Prop where
  sound : p.Sound registry
  root : p.root = m.root
  trees : m.trees = p.trees
  rootKey : m.ShowsKey (m.rootBinding columns) rows
  nodeKeys : ∀ n ∈ p.nodes, m.ShowsKey (nodeBinding columns n) rows

-- Of the keys in the rows a materializer takes for one what a test does that sorts
-- values into classes, and takes each for itself.
structure Sorts (m : Materializer) (p : Plan) (columns : List Column) (rows : List Row)
    (same : Value → Value → Bool) : Prop where
  classes : Classifies same
  agrees : ∀ a ∈ m.keysIn p columns rows, ∀ b ∈ m.keysIn p columns rows, m.same a b = same a b
  self : ∀ key ∈ m.keysIn p columns rows, same key key = true

variable {same : Value → Value → Bool}

theorem yields_relatedInstance (hreads : m.Reads registry p columns rows)
    (hsorts : m.Sorts p columns rows same) {n : Node} (hn : n ∈ p.nodes) {links : List Visit}
    (h : Graph (m.keysIn p columns rows) same p visited links s) (parentKey : Value) {key : Value}
    {id : InstanceId} (hkey : key ∈ m.keysIn p columns rows)
    (hrun : Yields (m.relatedInstance n.number (nodeBinding columns n) row key) s id t) :
    Graph (m.keysIn p columns rows) same p (visited ++ [m.visitOf columns row parentKey key n])
        links t ∧
      Keeps same s t ∧ t.memory.roots = s.memory.roots ∧
        t.memory.instance? same (some n.number) key = some id := by
  simp only [relatedInstance] at hrun
  rw [Yields.get_bind_iff] at hrun
  have hfound : s.memory.related? m.same n.number key =
      s.memory.instance? same (some n.number) key :=
    h.known.instance?_eq hsorts.agrees hkey (some n.number)
  rw [hfound] at hrun
  cases hknown : s.memory.instance? same (some n.number) key with
  | some known =>
    simp only [hknown, Yields.pure_iff] at hrun
    obtain ⟨rfl, rfl⟩ := hrun
    refine ⟨h.place_known (v := m.visitOf columns row parentKey key n) ?_, fun _ _ _ hid => hid, rfl,
      hknown⟩
    simp [visitOf, hknown]
  | none =>
    simp only [hknown] at hrun
    rw [Yields.lift_bind_iff] at hrun
    obtain ⟨j, hread, hrun⟩ := hrun
    obtain ⟨_, _, hinsert, hrun⟩ := Yields.bind_iff.mp hrun
    obtain ⟨rfl, rfl⟩ := yields_insert hinsert
    rw [Yields.modify_bind_iff, Yields.pure_iff] at hrun
    obtain ⟨rfl, rfl⟩ := hrun
    obtain ⟨hnavigable, hempty⟩ := navigable_of_reading hreads.sound hread
      (source_of_parent hreads.sound hn)
    have hnew := h.place_new (v := m.visitOf columns row parentKey key n) hkey hknown hread
      hnavigable hempty
    refine ⟨hnew, Graph.keeps_remembering same s (some n.number) key j, rfl, ?_⟩
    have hthere := @Graph.instance?_remembering same s (some n.number) key j (some n.number) key
    rw [hknown, if_pos ⟨rfl, hsorts.self key hkey⟩] at hthere
    exact hthere

theorem yields_linkRelated (hreads : m.Reads registry p columns rows)
    (hsorts : m.Sorts p columns rows same) {n : Node} (hn : n ∈ p.nodes) {places : List Visit}
    (h : Graph (m.keysIn p columns rows) same p places visited s) {parentKey key : Value}
    {parent related : InstanceId} {u : Unit}
    (hkeys : parentKey ∈ m.keysIn p columns rows ∧ key ∈ m.keysIn p columns rows)
    (hparent : s.memory.instance? same n.parent parentKey = some parent)
    (hrelated : s.memory.instance? same (some n.number) key = some related)
    (hrun : Yields (m.linkRelated n parent parentKey key related) s u t) :
    Graph (m.keysIn p columns rows) same p places
        (visited ++ [m.visitOf columns row parentKey key n]) t ∧
      (∀ site key, t.memory.instance? same site key = s.memory.instance? same site key) ∧
        t.memory.roots = s.memory.roots := by
  have hlink : (n.isCollection → s.memory.isLinked same n.number parentKey key = false) →
      t = Graph.linking s n parent (m.visitOf columns row parentKey key n) related →
      Graph (m.keysIn p columns rows) same p places
          (visited ++ [m.visitOf columns row parentKey key n]) t ∧
        (∀ site key, t.memory.instance? same site key = s.memory.instance? same site key) ∧
          t.memory.roots = s.memory.roots := by
    rintro hnew rfl
    exact ⟨h.link_new (v := m.visitOf columns row parentKey key n) hreads.sound hkeys hn rfl hparent
      hrelated hnew, Graph.instance?_linking s n parent _ related,
      Graph.roots_linking s n parent _ related⟩
  simp only [linkRelated] at hrun
  by_cases hcollection : n.isCollection
  · simp only [hcollection, if_true] at hrun
    rw [Yields.get_bind_iff, h.known.isLinked_eq hsorts.agrees hkeys.1 hkeys.2, Yields.ite_iff]
      at hrun
    rcases hrun with ⟨hlinked, hrun⟩ | ⟨hlinked, hrun⟩
    · obtain ⟨-, rfl⟩ := Yields.pure_iff.mp hrun
      have hsome : (t.memory.instance? same n.parent parentKey).isSome := by rw [hparent]; rfl
      exact ⟨h.link_again (v := m.visitOf columns row parentKey key n) hreads.sound hn rfl hsome hcollection
        hlinked, fun _ _ => rfl, rfl⟩
    · rw [Yields.modify_bind_iff, link, Yields.modify_iff] at hrun
      refine hlink (fun _ => Bool.eq_false_iff.mpr hlinked) ?_
      simpa only [Graph.linking, visitOf, hcollection, if_true] using hrun
  · simp only [hcollection, if_false, link, Yields.modify_iff, Bool.false_eq_true] at hrun
    refine hlink (fun hmany => absurd hmany hcollection) ?_
    simpa only [Graph.linking, hcollection, if_false, Bool.false_eq_true] using hrun

mutual

theorem yields_readTree (hreads : m.Reads registry p columns rows)
    (hsorts : m.Sorts p columns rows same) (hrow : row ∈ rows)
    (tree : Tree) {site : Option Nat} {parentKey : Value} {parent : InstanceId} {u : Unit} {s t : State}
    {visited : List Visit} (hchains : ∀ chain, Leads [tree] chain → Descends p.nodes site chain)
    (h : Graph (m.keysIn p columns rows) same p visited visited s)
    (hkey : parentKey ∈ m.keysIn p columns rows)
    (hparent : s.memory.instance? same site parentKey = some parent)
    (hrun : Yields (m.readTree columns row parent parentKey tree) s u t) :
    Graph (m.keysIn p columns rows) same p (visited ++ m.treeVisits columns row parentKey tree)
        (visited ++ m.treeVisits columns row parentKey tree) t ∧
      Keeps same s t ∧ t.memory.roots = s.memory.roots := by
  match tree with
  | .node n children =>
    obtain ⟨hn, hup, -⟩ : Descends p.nodes site [n] := hchains [n] ⟨children, by simp, trivial⟩
    subst hup
    have hbelow : ∀ chain, Leads children chain → Descends p.nodes (some n.number) chain := by
      intro chain hchain
      exact (hchains (n :: chain) ⟨children, by simp, hchain⟩).2.2
    simp only [readTree] at hrun
    cases hmatched : row.isUnmatched (nodeBinding columns n) with
    | true =>
      have hskip : m.treeVisits columns row parentKey (.node n children) = [] := by
        simp [treeVisits, shownKey?, hmatched]
      change row.isUnmatched (.bind columns n.target (some n.aliasName)) = true at hmatched
      simp only [hmatched, if_true, Yields.pure_iff] at hrun
      obtain ⟨-, rfl⟩ := hrun
      rw [hskip, List.append_nil]
      exact ⟨h, fun _ _ _ hid => hid, rfl⟩
    | false =>
      have hmatched' : row.isUnmatched (.bind columns n.target (some n.aliasName)) = false := hmatched
      simp only [hmatched', Bool.false_eq_true, if_false, Yields.bind_iff] at hrun
      obtain ⟨key, s₁, hread, related, s₂, hrelated, _, s₃, hlink, hrest⟩ := hrun
      have hshows := hreads.nodeKeys n hn
      obtain ⟨rfl, hshown⟩ :=
        yields_readKey hshows.bound (fun _ => hshows.shown row hrow hmatched) hread
      have hown : key ∈ m.keysIn p columns rows :=
        mem_keysIn.mpr ⟨row, hrow, .inr ⟨n, hn, hshown⟩⟩
      obtain ⟨hgraph, hkeeps, hroots, hthere⟩ :=
        yields_relatedInstance hreads hsorts hn h parentKey hown hrelated
      obtain ⟨hgraph', hsame, hroots'⟩ := yields_linkRelated hreads hsorts hn hgraph ⟨hkey, hown⟩
        (hkeeps _ _ _ hparent) hthere hlink
      have hthere' : s₃.memory.instance? same (some n.number) key = some related :=
        (hsame _ _).trans hthere
      obtain ⟨hgraph'', hkeeps'', hroots''⟩ :=
        yields_readTrees hreads hsorts hrow children hbelow hgraph' hown hthere' hrest
      have hvisits : m.treeVisits columns row parentKey (.node n children) =
          m.visitOf columns row parentKey key n :: m.forestVisits columns row key children := by
        simp [treeVisits, shownKey?, hmatched, hshown]
      rw [hvisits, List.append_cons]
      refine ⟨hgraph'', ?_, hroots''.trans (hroots'.trans hroots)⟩
      intro site key id hid
      exact hkeeps'' _ _ _ ((hsame _ _).trans (hkeeps _ _ _ hid))

theorem yields_readTrees (hreads : m.Reads registry p columns rows)
    (hsorts : m.Sorts p columns rows same) (hrow : row ∈ rows)
    (trees : List Tree) {site : Option Nat} {parentKey : Value} {parent : InstanceId} {u : Unit}
    {s t : State} {visited : List Visit}
    (hchains : ∀ chain, Leads trees chain → Descends p.nodes site chain)
    (h : Graph (m.keysIn p columns rows) same p visited visited s)
    (hkey : parentKey ∈ m.keysIn p columns rows)
    (hparent : s.memory.instance? same site parentKey = some parent)
    (hrun : Yields (m.readTrees columns row parent parentKey trees) s u t) :
    Graph (m.keysIn p columns rows) same p (visited ++ m.forestVisits columns row parentKey trees)
        (visited ++ m.forestVisits columns row parentKey trees) t ∧
      Keeps same s t ∧ t.memory.roots = s.memory.roots := by
  match trees with
  | [] =>
    simp only [readTrees, Yields.pure_iff] at hrun
    obtain ⟨-, rfl⟩ := hrun
    rw [forestVisits, List.append_nil]
    exact ⟨h, fun _ _ _ hid => hid, rfl⟩
  | tree :: rest =>
    simp only [readTrees, Yields.bind_iff] at hrun
    obtain ⟨_, s₁, hfirst, hrest⟩ := hrun
    have hone : ∀ chain, Leads [tree] chain → Descends p.nodes site chain := by
      intro chain hchain
      cases chain with
      | nil => trivial
      | cons a chain =>
        obtain ⟨children, hmem, hdown⟩ := hchain
        exact hchains (a :: chain) ⟨children, by simp_all, hdown⟩
    have hothers : ∀ chain, Leads rest chain → Descends p.nodes site chain := by
      intro chain hchain
      cases chain with
      | nil => trivial
      | cons a chain =>
        obtain ⟨children, hmem, hdown⟩ := hchain
        exact hchains (a :: chain) ⟨children, List.mem_cons_of_mem tree hmem, hdown⟩
    obtain ⟨hgraph, hkeeps, hroots⟩ :=
      yields_readTree hreads hsorts hrow tree hone h hkey hparent hfirst
    obtain ⟨hgraph', hkeeps', hroots'⟩ :=
      yields_readTrees hreads hsorts hrow rest hothers hgraph hkey (hkeeps _ _ _ hparent) hrest
    rw [forestVisits, ← List.append_assoc]
    exact ⟨hgraph', hkeeps.trans hkeeps', hroots'.trans hroots⟩

end

-- The rows of a result set from an index on.
def rowsFrom (index : Nat) (cells : List (List Value)) : List Row :=
  (cells.zipIdx index).map fun c => ⟨c.2, c.1⟩

theorem yields_readRow (hreads : m.Reads registry p columns rows)
    (hsorts : m.Sorts p columns rows same) (hrow : row ∈ rows)
    (h : Graph (m.keysIn p columns rows) same p visited visited s) {new : Option InstanceId}
    (hrun : Yields (m.readRow columns row) s new t) :
    Graph (m.keysIn p columns rows) same p (visited ++ m.rowVisits columns row)
        (visited ++ m.rowVisits columns row) t ∧
      t.memory.roots.map (·.2) = s.memory.roots.map (·.2) ++ new.toList := by
  have hchains : ∀ chain, Leads m.trees chain → Descends p.nodes none chain := by
    intro chain hchain
    rw [hreads.trees] at hchain
    exact (hreads.sound.leads_trees chain).mp hchain
  simp only [readRow] at hrun
  obtain ⟨key, s₁, hread, hrest⟩ := Yields.bind_iff.mp hrun
  obtain ⟨rfl, hshown⟩ := yields_readKey hreads.rootKey.bound (by simp) hread
  have hkey : key ∈ m.keysIn p columns rows := mem_keysIn.mpr ⟨row, hrow, .inl hshown⟩
  have hvisits : m.rowVisits columns row =
      m.rootVisit columns row key :: m.forestVisits columns row key m.trees := by
    simp [rowVisits, hshown]
  rw [hvisits, List.append_cons]
  have hfound : s₁.memory.root? m.same key = s₁.memory.instance? same none key :=
    h.known.instance?_eq hsorts.agrees hkey none
  rw [Yields.get_bind_iff, hfound] at hrest
  cases hknown : s₁.memory.instance? same none key with
  | some id =>
    simp only [hknown] at hrest
    obtain ⟨_, s₂, htrees, hrest⟩ := Yields.bind_iff.mp hrest
    obtain ⟨rfl, rfl⟩ := Yields.pure_iff.mp hrest
    have hplaced := (h.place_known (v := m.rootVisit columns row key)
      (by simp [rootVisit, hknown])).link_root (v := m.rootVisit columns row key) rfl
    obtain ⟨hgraph, -, hroots⟩ :=
      yields_readTrees hreads hsorts hrow m.trees hchains hplaced hkey hknown htrees
    exact ⟨hgraph, by rw [hroots]; simp⟩
  | none =>
    simp only [hknown] at hrest
    rw [Yields.lift_bind_iff] at hrest
    obtain ⟨j, hreading, hrest⟩ := hrest
    obtain ⟨_, _, hinsert, hrest⟩ := Yields.bind_iff.mp hrest
    obtain ⟨rfl, rfl⟩ := yields_insert hinsert
    rw [Yields.modify_bind_iff] at hrest
    obtain ⟨_, s₂, htrees, hrest⟩ := Yields.bind_iff.mp hrest
    obtain ⟨rfl, rfl⟩ := Yields.pure_iff.mp hrest
    have hsource : ∀ n ∈ p.nodes, n.parent = none → n.source = (m.rootBinding columns).entity := by
      intro n hn hparent
      exact ((hreads.sound.fits n hn).source_of_root hparent).trans hreads.root
    obtain ⟨hnavigable, hempty⟩ := navigable_of_reading hreads.sound hreading hsource
    have hplaced := (h.place_new (v := m.rootVisit columns row key) hkey hknown hreading hnavigable
      hempty).link_root (v := m.rootVisit columns row key) rfl
    have hthere := @Graph.instance?_remembering same s₁ none key j none key
    rw [hknown, if_pos ⟨rfl, hsorts.self key hkey⟩] at hthere
    obtain ⟨hgraph, -, hroots⟩ :=
      yields_readTrees hreads hsorts hrow m.trees hchains hplaced hkey hthere htrees
    refine ⟨hgraph, ?_⟩
    simp [hroots, Graph.remembering, rootVisit, Memory.remember]

theorem yields_advance {set : ResultSet} {index : Nat} {u : Unit}
    (hrun : Yields (advance set index) s u t) : t.memory = s.memory ∧ t.store = s.store := by
  simp only [advance] at hrun
  rw [Yields.get_bind_iff, Yields.lift_bind_iff] at hrun
  obtain ⟨cancelled, -, hrun⟩ := hrun
  rw [Yields.modify_iff] at hrun
  subst hrun
  exact ⟨rfl, rfl⟩

-- The graph depends on the memory and the store alone.
theorem Graph.of_eq {keys : List Value} (h : Graph keys same p visited visited s)
    (hmemory : t.memory = s.memory) (hstore : t.store = s.store) :
    Graph keys same p visited visited t := by
  obtain ⟨memory, store, cancelled⟩ := s
  obtain ⟨memory', store', cancelled'⟩ := t
  obtain rfl : memory' = memory := hmemory
  obtain rfl : store' = store := hstore
  exact ⟨h.classes, h.known, h.absent, h.placed, h.apart, h.navigable, h.parents, h.linked,
    h.targets, h.roots⟩

theorem yields_readRows (hreads : m.Reads registry p columns rows)
    (hsorts : m.Sorts p columns rows same) {set : ResultSet} (hcolumns : set.columns = columns)
    {index : Nat} {cells : List (List Value)} (hrows : ∀ row ∈ rowsFrom index cells, row ∈ rows)
    (h : Graph (m.keysIn p columns rows) same p visited visited s) {ids : List InstanceId}
    (hrun : Yields (m.readRows set index cells) s ids t) :
    Graph (m.keysIn p columns rows) same p
        (visited ++ (rowsFrom index cells).flatMap (m.rowVisits columns))
        (visited ++ (rowsFrom index cells).flatMap (m.rowVisits columns)) t ∧
      t.memory.roots.map (·.2) = s.memory.roots.map (·.2) ++ ids := by
  induction cells generalizing index visited s ids with
  | nil =>
    simp only [readRows] at hrun
    obtain ⟨_, s₁, hadvance, hrun⟩ := Yields.bind_iff.mp hrun
    obtain ⟨rfl, rfl⟩ := Yields.pure_iff.mp hrun
    obtain ⟨hmemory, hstore⟩ := yields_advance hadvance
    simp only [rowsFrom, List.zipIdx_nil, List.map_nil, List.flatMap_nil, List.append_nil]
    exact ⟨h.of_eq hmemory hstore, by rw [hmemory]⟩
  | cons first rest ih =>
    simp only [readRows, hcolumns] at hrun
    obtain ⟨_, s₁, hadvance, hrun⟩ := Yields.bind_iff.mp hrun
    obtain ⟨new, s₂, hfirst, hrun⟩ := Yields.bind_iff.mp hrun
    obtain ⟨others, s₃, hothers, hrun⟩ := Yields.bind_iff.mp hrun
    obtain ⟨rfl, rfl⟩ := Yields.pure_iff.mp hrun
    obtain ⟨hmemory, hstore⟩ := yields_advance hadvance
    have hrow : (⟨index, first⟩ : Row) ∈ rows := hrows _ (by simp [rowsFrom])
    have hrest : ∀ row ∈ rowsFrom (index + 1) rest, row ∈ rows := by
      intro row hmem
      exact hrows row (by simp only [rowsFrom, List.zipIdx_cons, List.map_cons, List.mem_cons]; exact .inr hmem)
    obtain ⟨hgraph, hroots⟩ := yields_readRow hreads hsorts hrow (h.of_eq hmemory hstore) hfirst
    obtain ⟨hgraph', hroots'⟩ := ih hrest hgraph hothers
    have hsplit : rowsFrom index (first :: rest) = ⟨index, first⟩ :: rowsFrom (index + 1) rest := rfl
    rw [hsplit, List.flatMap_cons, ← List.append_assoc]
    refine ⟨hgraph', ?_⟩
    rw [hroots', hroots, hmemory, List.append_assoc]

end EntitySql.Materializer
