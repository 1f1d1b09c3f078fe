import EntitySql.Proofs.Include.Names
import EntitySql.Schema.Catalogue
import Mathlib.Data.List.Induction
import Mathlib.Data.List.Infix
import Mathlib.Data.List.Nodup

-- The tree of a list of include paths: one node for every beginning of a
-- path, in the order in which they are first met.

namespace EntitySql.Include

open EntitySql.Sql (identifierFault?)

-- Lists without their repetitions.

section Repetitions

variable {α : Type} [BEq α] [LawfulBEq α]

theorem eraseDups_append_singleton_of_mem {as : List α} {a : α} (h : a ∈ as) :
    (as ++ [a]).eraseDups = as.eraseDups := by
  simp [List.eraseDups_append, List.removeAll, h]

theorem eraseDups_append_singleton_of_not_mem {as : List α} {a : α} (h : a ∉ as) :
    (as ++ [a]).eraseDups = as.eraseDups ++ [a] := by
  simp [List.eraseDups_append, List.removeAll, h, List.eraseDups_cons]

theorem nodup_eraseDups (as : List α) : as.eraseDups.Nodup := by
  induction as using List.reverseRecOn with
  | nil => simp
  | append_singleton as a ih =>
    by_cases h : a ∈ as
    · rwa [eraseDups_append_singleton_of_mem h]
    · rw [eraseDups_append_singleton_of_not_mem h, List.nodup_append]
      refine ⟨ih, by simp, ?_⟩
      rintro b hb c hc rfl
      rw [List.mem_singleton] at hc
      exact h (hc ▸ List.mem_eraseDups.mp hb)

end Repetitions

-- The non-empty beginnings of a list of segments, the shorter ones first.
def beginnings (segments : List Text) : List (List Text) := segments.inits.tail

@[simp] theorem beginnings_nil : beginnings [] = [] := rfl

theorem beginnings_cons (segment : Text) (rest : List Text) :
    beginnings (segment :: rest) = [segment] :: (beginnings rest).map (segment :: ·) := by
  cases rest <;> simp [beginnings]

theorem mem_beginnings {segments names : List Text} :
    names ∈ beginnings segments ↔ names ≠ [] ∧ names <+: segments := by
  induction segments generalizing names with
  | nil => cases names <;> simp
  | cons segment rest ih =>
    rw [beginnings_cons]
    cases names with
    | nil => simp
    | cons name names =>
      cases names with
      | nil => simp [eq_comm]
      | cons second names => simp [ih, List.cons_prefix_cons, and_comm, eq_comm]

-- The beginnings of all paths, each where it is first met.
def prefixes (paths : List Text) : List (List Text) :=
  (paths.flatMap fun path => beginnings (segments path)).eraseDups

-- Where a path leads.

-- A segment that leads from one entity to another.
def Hop (registry : Registry) (source : Entity) (segment : Text) (target : Entity) : Prop :=
  ∃ n, source.navigation? segment = some n ∧ registry.get n.target = .ok target ∧
    Joinable source target n

-- Segments each of which leads on from where the one before it leads to.
def Follows (registry : Registry) : Entity → List Text → Prop
  | _, [] => True
  | source, segment :: rest => ∃ target, Hop registry source segment target ∧
    Follows registry target rest

theorem Hop.unique {registry : Registry} {source target other : Entity} {segment : Text}
    (h : Hop registry source segment target) (h' : Hop registry source segment other) :
    target = other := by
  obtain ⟨n, hn, htarget, -⟩ := h
  obtain ⟨m, hm, hother, -⟩ := h'
  obtain rfl := Option.some.inj (hn.symm.trans hm)
  exact Except.ok.inj (htarget.symm.trans hother)

-- The names of the hops along some segments.
def pathNames (registry : Registry) : Entity → List Text → List Text
  | _, [] => []
  | source, segment :: rest =>
    match source.navigation? segment with
    | none => []
    | some n =>
      match registry.get n.target with
      | .error _ => []
      | .ok target => hopNames n target ++ pathNames registry target rest

-- The names that the texts for some paths have to quote. Without a path there are no texts.
def askedNames (registry : Registry) (root : Entity) (paths : List Text) : List Text :=
  if paths.isEmpty then []
  else root.fields.map Field.column ++
    paths.flatMap fun path => pathNames registry root (segments path)

theorem pathNames_cons {registry : Registry} {source target : Entity} {segment : Text} {n : Navigation}
    (hn : source.navigation? segment = some n) (htarget : registry.get n.target = .ok target)
    (rest : List Text) :
    pathNames registry source (segment :: rest) = hopNames n target ++ pathNames registry target rest := by
  simp only [pathNames, hn, htarget]

theorem mem_identifiers_of_pathNames {registry : Registry} {source : Entity} {segments : List Text}
    {name : Text} (h : name ∈ pathNames registry source segments) :
    name ∈ source.identifiers ++ registry.identifiers := by
  induction segments generalizing source with
  | nil => cases h
  | cons segment rest ih =>
    rw [pathNames] at h
    split at h
    · cases h
    · next n hn =>
      split at h
      · cases h
      · next target htarget =>
        have hregistered := Registry.mem_of_get htarget
        rcases List.mem_append.mp h with hhop | hrest
        · exact mem_identifiers_of_hop (List.mem_of_find?_eq_some hn) hregistered hhop
        · refine List.mem_append_right _ ((List.mem_append.mp (ih hrest)).elim (fun hown => ?_) id)
          exact Registry.mem_identifiers hregistered hown

theorem mem_identifiers_of_askedNames {registry : Registry} {root : Entity} {paths : List Text}
    {name : Text} (h : name ∈ askedNames registry root paths) :
    name ∈ root.identifiers ++ registry.identifiers := by
  rw [askedNames] at h
  split at h
  · cases h
  · rcases List.mem_append.mp h with hroot | hpath
    · obtain ⟨f, hf, rfl⟩ := List.mem_map.mp hroot
      exact List.mem_append_left _ (Entity.column_mem_identifiers hf)
    · obtain ⟨path, -, hname⟩ := List.mem_flatMap.mp hpath
      exact mem_identifiers_of_pathNames hname

namespace Node

-- The segments that lead from the root to a node.
def names (n : Node) : List Text := segments n.path

theorem names_ne_nil (n : Node) : n.names ≠ [] := Text.split_ne_nil _ _

-- The tables that are joined for a node, each with its alias and the alias
-- that it is joined to: a junction table stands directly before the table
-- that it leads to.
def tables (n : Node) : List (Text × Text × Text) :=
  match n.navigation.relationship with
  | .manyToMany junction .. =>
    [(junction, n.junctionAlias, n.parentAlias), (n.target.table, n.aliasName, n.junctionAlias)]
  | _ => [(n.target.table, n.aliasName, n.parentAlias)]

end Node

namespace Plan

variable {registry : Registry} {p q : Plan} {parent : Option Node} {node : Node}
  {segment fullPath : Text}

-- The place below which a node stands: an earlier node or the root.

def sourceAt (p : Plan) (parent : Option Node) : Entity := (parent.map Node.target).getD p.root

def namesAt (parent : Option Node) : List Text := (parent.map Node.names).getD []

def pathAt (parent : Option Node) (property : Text) : Text :=
  match parent with
  | none => property
  | some node => node.path ++ Byte.dot :: property

theorem namesAt_eq_nil : namesAt parent = [] ↔ parent = none := by
  cases parent <;> simp [namesAt, Node.names_ne_nil]

theorem Sound.source_eq_sourceAt (h : p.Sound registry) {n : Node} (hn : n ∈ p.nodes)
    (hparent : ∀ m ∈ parent, m ∈ p.nodes) (hup : n.parent = parent.map Node.number) :
    n.source = p.sourceAt parent := by
  cases parent with
  | none => exact (h.fits n hn).source_of_root hup
  | some m =>
    obtain ⟨-, above, habove, hnumber, hsource⟩ := (h.fits n hn).source_of_parent m.number hup
    rw [hsource, h.eq_of_number_eq habove (hparent m rfl) hnumber]
    rfl

theorem Sound.eq_of_map_number_eq (h : p.Sound registry) {above : Option Node}
    (habove : ∀ m ∈ above, m ∈ p.nodes) (hparent : ∀ m ∈ parent, m ∈ p.nodes)
    (heq : above.map Node.number = parent.map Node.number) : above = parent := by
  cases above with
  | none => exact (Option.map_eq_none_iff.mp heq.symm).symm
  | some n =>
    obtain ⟨m, rfl, hnumber⟩ := Option.map_eq_some_iff.mp heq.symm
    rw [h.eq_of_number_eq (habove n rfl) (hparent m rfl) hnumber.symm]

theorem child?_eq_some (h : p.child? parent segment = some node) :
    node ∈ p.nodes ∧ node.parent = parent.map Node.number ∧
      node.navigation.property = segment := by
  refine ⟨child?_spec h, ?_⟩
  simpa using List.find?_some h

theorem newNode_eq_ok : newNode registry p parent segment fullPath = .ok node ↔
    ∃ navigation target, (p.sourceAt parent).navigation? segment = some navigation ∧
      registry.get navigation.target = .ok target ∧
      Joinable (p.sourceAt parent) target navigation ∧
      node = ⟨p.nodes.length + 1, parent.map Node.number,
        pathAt parent navigation.property, navigation, p.sourceAt parent, target⟩ := by
  constructor
  · intro h
    simp only [newNode] at h
    split at h
    · cases h
    · next navigation hnavigation =>
      obtain ⟨target, htarget, h⟩ := Result.bind_eq_ok.mp h
      obtain ⟨_, hkeys, h⟩ := Result.bind_eq_ok.mp h
      cases h
      refine ⟨navigation, target, hnavigation, htarget, checkKeys_eq_ok.mp hkeys, ?_⟩
      cases parent <;> rfl
  · rintro ⟨navigation, target, hnavigation, htarget, hkeys, rfl⟩
    rw [← checkKeys_eq_ok] at hkeys
    simp only [sourceAt] at hnavigation hkeys
    simp only [newNode, hnavigation, htarget, bind, Except.bind, hkeys]
    cases parent <;> rfl

-- A segment can be followed just when it is a hop.

theorem navigation_of_descend (hsound : p.Sound registry) (hparent : ∀ m ∈ parent, m ∈ p.nodes)
    (h : descend registry fullPath p parent segment = .ok (node, q)) :
    (p.sourceAt parent).navigation? segment = some node.navigation ∧
      registry.get node.navigation.target = .ok node.target ∧
      Joinable (p.sourceAt parent) node.target node.navigation := by
  rcases descend_eq_ok.mp h with ⟨hchild, -⟩ | ⟨-, hnew, -⟩
  · obtain ⟨hnode, hup, hproperty⟩ := child?_eq_some hchild
    have hfits := hsound.fits node hnode
    rw [← hsound.source_eq_sourceAt hnode hparent hup, ← hproperty]
    exact ⟨hfits.navigation, hfits.target, checkKeys_eq_ok.mp hfits.keys⟩
  · obtain ⟨navigation, target, hnavigation, htarget, hkeys, rfl⟩ := newNode_eq_ok.mp hnew
    exact ⟨hnavigation, htarget, hkeys⟩

theorem hop_of_descend (hsound : p.Sound registry) (hparent : ∀ m ∈ parent, m ∈ p.nodes)
    (h : descend registry fullPath p parent segment = .ok (node, q)) :
    Hop registry (p.sourceAt parent) segment node.target :=
  ⟨node.navigation, navigation_of_descend hsound hparent h⟩

theorem exists_descend_of_hop {target : Entity} (fullPath : Text)
    (h : Hop registry (p.sourceAt parent) segment target) :
    ∃ node q, descend registry fullPath p parent segment = .ok (node, q) := by
  obtain ⟨navigation, hnavigation, htarget, hkeys⟩ := h
  cases hchild : p.child? parent segment with
  | some node => exact ⟨node, p, descend_eq_ok.mpr (.inl ⟨hchild, rfl⟩)⟩
  | none => exact ⟨_, _, descend_eq_ok.mpr (.inr ⟨hchild,
      newNode_eq_ok.mpr ⟨navigation, target, hnavigation, htarget, hkeys, rfl⟩, rfl⟩)⟩

theorem exists_addSegments_iff (hsound : p.Sound registry) (fullPath : Text)
    (parent : Option Node) (hparent : ∀ m ∈ parent, m ∈ p.nodes) (segments : List Text) :
    (∃ q, addSegments registry fullPath p parent segments = .ok q) ↔
      Follows registry (p.sourceAt parent) segments := by
  induction segments generalizing p parent with
  | nil => simp [addSegments, Follows]
  | cons segment rest ih =>
    constructor
    · rintro ⟨q, h⟩
      rw [addSegments_cons] at h
      obtain ⟨⟨node, next⟩, hstep, h⟩ := Result.bind_eq_ok.mp h
      obtain ⟨hnext, -, hnode⟩ := sound_descend hsound hparent hstep
      exact ⟨node.target, hop_of_descend hsound hparent hstep,
        (ih hnext (some node) (by simpa using hnode)).mp ⟨q, h⟩⟩
    · rintro ⟨target, hhop, hrest⟩
      obtain ⟨node, next, hstep⟩ := exists_descend_of_hop fullPath hhop
      obtain ⟨hnext, -, hnode⟩ := sound_descend hsound hparent hstep
      obtain rfl := hhop.unique (hop_of_descend hsound hparent hstep)
      obtain ⟨q, h⟩ := (ih hnext (some node) (by simpa using hnode)).mpr hrest
      refine ⟨q, ?_⟩
      rw [addSegments_cons, Result.bind_eq_ok]
      exact ⟨(node, next), hstep, h⟩

theorem exists_foldlM_addPath_iff {maxDepth : Int} (hsound : p.Sound registry)
    (paths : List Text) :
    (∃ q, paths.foldlM (addPath registry maxDepth) p = .ok q) ↔
      ∀ path ∈ paths, fault? maxDepth path = none ∧ Follows registry p.root (segments path) := by
  induction paths generalizing p with
  | nil => simp [pure, Except.pure]
  | cons path rest ih =>
    rw [List.foldlM_cons, List.forall_mem_cons]
    have hone : (∃ next, addPath registry maxDepth p path = .ok next) ↔
        fault? maxDepth path = none ∧ Follows registry p.root (segments path) := by
      rw [addPath]
      cases fault? maxDepth path with
      | some fault => simp
      | none => simpa [sourceAt] using
          exists_addSegments_iff hsound path none (by simp) (segments path)
    rw [← hone]
    constructor
    · rintro ⟨q, h⟩
      obtain ⟨next, hpath, h⟩ := Result.bind_eq_ok.mp h
      obtain ⟨hnext, hroot⟩ := sound_addPath hsound hpath
      exact ⟨⟨next, hpath⟩, hroot ▸ (ih hnext).mp ⟨q, h⟩⟩
    · rintro ⟨⟨next, hpath⟩, hrest⟩
      obtain ⟨hnext, hroot⟩ := sound_addPath hsound hpath
      obtain ⟨q, h⟩ := (ih hnext).mpr (hroot ▸ hrest)
      exact ⟨q, Result.bind_eq_ok.mpr ⟨next, hpath, h⟩⟩

-- The names of a plan are those of the hops along its paths.

variable {name : Text}

theorem mem_names_descend (hstep : descend registry fullPath p parent segment = .ok (node, q)) :
    name ∈ q.names ↔ name ∈ p.names ∨ name ∈ hopNames node.navigation node.target := by
  rcases descend_eq_ok.mp hstep with ⟨hchild, rfl⟩ | ⟨-, -, rfl⟩
  · exact (or_iff_left_of_imp (mem_names_of_node (child?_spec hchild))).symm
  · simp [names, or_assoc]

theorem mem_names_addSegments (hsound : p.Sound registry) (hparent : ∀ m ∈ parent, m ∈ p.nodes)
    {segments : List Text} (h : addSegments registry fullPath p parent segments = .ok q) :
    name ∈ q.names ↔ name ∈ p.names ∨ name ∈ pathNames registry (p.sourceAt parent) segments := by
  induction segments generalizing p parent with
  | nil =>
    cases h
    simp [pathNames]
  | cons segment rest ih =>
    rw [addSegments_cons] at h
    obtain ⟨⟨node, next⟩, hstep, h⟩ := Result.bind_eq_ok.mp h
    obtain ⟨hnext, -, hnode⟩ := sound_descend hsound hparent hstep
    obtain ⟨hnavigation, htarget, -⟩ := navigation_of_descend hsound hparent hstep
    rw [ih hnext (by simpa using hnode) h, mem_names_descend hstep, pathNames_cons hnavigation htarget,
      List.mem_append, or_assoc]
    rfl

theorem mem_names_foldlM_addPath {maxDepth : Int} {paths : List Text} (hsound : p.Sound registry)
    (h : paths.foldlM (addPath registry maxDepth) p = .ok q) : name ∈ q.names ↔
      name ∈ p.names ∨ ∃ path ∈ paths, name ∈ pathNames registry p.root (segments path) := by
  induction paths generalizing p with
  | nil =>
    cases h
    simp
  | cons path rest ih =>
    rw [List.foldlM_cons] at h
    obtain ⟨next, hpath, h⟩ := Result.bind_eq_ok.mp h
    obtain ⟨hnext, hroot⟩ := sound_addPath hsound hpath
    have hstep : name ∈ next.names ↔
        name ∈ p.names ∨ name ∈ pathNames registry p.root (segments path) := by
      rw [addPath] at hpath
      split at hpath
      · cases hpath
      · exact mem_names_addSegments hsound (by simp) hpath
    rw [ih hnext h, hstep, hroot, or_assoc]
    simp

theorem names_of_ofPaths {maxDepth : Int} {root : Entity} {paths : List Text}
    (h : ofPaths registry maxDepth root paths = .ok p) (hpaths : paths ≠ []) :
    name ∈ p.names ↔ name ∈ askedNames registry root paths := by
  rw [ofPaths] at h
  split at h
  · cases h
  · rw [mem_names_foldlM_addPath (sound_empty root) h, askedNames, if_neg (by simpa using hpaths)]
    simp [names]

-- The nodes of a plan are the beginnings that have been asked for.
structure Lists (p : Plan) (asked : List (List Text)) : Prop where
  names : p.nodes.map Node.names = asked.eraseDups
  below : ∀ n ∈ p.nodes, ∃ parent : Option Node, (∀ m ∈ parent, m ∈ p.nodes) ∧
    n.parent = parent.map Node.number ∧ n.names = namesAt parent ++ [n.navigation.property]

variable {asked : List (List Text)}

theorem lists_empty (root : Entity) : Lists { root } [] where
  names := rfl
  below := by simp

theorem Lists.mem_iff (h : p.Lists asked) {names : List Text} :
    names ∈ asked ↔ ∃ n ∈ p.nodes, n.names = names := by
  rw [← List.mem_eraseDups, ← h.names, List.mem_map]

theorem Lists.eq_of_names_eq (h : p.Lists asked) {n m : Node} (hn : n ∈ p.nodes)
    (hm : m ∈ p.nodes) (heq : n.names = m.names) : n = m :=
  List.inj_on_of_nodup_map (h.names ▸ nodup_eraseDups asked) hn hm heq

theorem Lists.eq_of_namesAt_eq (h : p.Lists asked) {above : Option Node}
    (habove : ∀ m ∈ above, m ∈ p.nodes) (hparent : ∀ m ∈ parent, m ∈ p.nodes)
    (heq : namesAt above = namesAt parent) : above = parent := by
  cases above with
  | none => exact (namesAt_eq_nil.mp heq.symm).symm
  | some n =>
    cases parent with
    | none => exact namesAt_eq_nil.mp heq
    | some m => rw [h.eq_of_names_eq (habove n rfl) (hparent m rfl) heq]

-- A child is looked for by its parent and its segment, and so by its names.
theorem Lists.not_mem_of_child?_eq_none (h : p.Lists asked) (hparent : ∀ m ∈ parent, m ∈ p.nodes)
    (hchild : p.child? parent segment = none) : namesAt parent ++ [segment] ∉ asked := by
  rw [h.mem_iff]
  rintro ⟨n, hn, hnames⟩
  obtain ⟨above, habove, hup, hextends⟩ := h.below n hn
  obtain ⟨hinit, hlast⟩ := List.append_inj' (hextends.symm.trans hnames) rfl
  obtain rfl := h.eq_of_namesAt_eq habove hparent hinit
  have hno := List.find?_eq_none.mp hchild n hn
  simp [hup, List.cons.inj hlast] at hno

theorem names_of_newNode (hdot : Byte.dot ∉ segment)
    (h : newNode registry p parent segment fullPath = .ok node) :
    node.names = namesAt parent ++ [segment] := by
  obtain ⟨navigation, target, hnavigation, -, -, rfl⟩ := newNode_eq_ok.mp h
  obtain rfl := property_of_navigation? hnavigation
  cases parent with
  | none => exact Text.split_of_not_mem hdot
  | some above =>
    rw [Node.names, pathAt, segments, Text.split_append_cons, Text.split_of_not_mem hdot]
    rfl

-- One segment asks for one beginning more.
theorem Lists.descend (h : p.Lists asked) (hsound : p.Sound registry)
    (hparent : ∀ m ∈ parent, m ∈ p.nodes) (hdot : Byte.dot ∉ segment)
    (hstep : descend registry fullPath p parent segment = .ok (node, q)) :
    node.names = namesAt parent ++ [segment] ∧
      q.Lists (asked ++ [namesAt parent ++ [segment]]) := by
  rcases descend_eq_ok.mp hstep with ⟨hchild, rfl⟩ | ⟨hchild, hnew, rfl⟩
  · obtain ⟨hnode, hup, rfl⟩ := child?_eq_some hchild
    obtain ⟨above, habove, hup', hbelow⟩ := h.below node hnode
    obtain rfl := hsound.eq_of_map_number_eq habove hparent (hup'.symm.trans hup)
    have hasked := h.mem_iff.mpr ⟨node, hnode, hbelow⟩
    exact ⟨hbelow, h.names.trans (eraseDups_append_singleton_of_mem hasked).symm, h.below⟩
  · have hnames := names_of_newNode hdot hnew
    have hasked := h.not_mem_of_child?_eq_none hparent hchild
    refine ⟨hnames, ?_, ?_⟩
    · rw [eraseDups_append_singleton_of_not_mem hasked, List.map_append, h.names,
        List.map_singleton, hnames]
    · have hmore : ∀ m ∈ p.nodes, m ∈ p.nodes ++ [node] := fun m hm => List.mem_append_left _ hm
      refine List.forall_mem_append.mpr ⟨fun n hn => ?_, ?_⟩
      · obtain ⟨above, habove, hbelow⟩ := h.below n hn
        exact ⟨above, fun m hm => hmore m (habove m hm), hbelow⟩
      · obtain ⟨-, hup, hproperty, -⟩ := newNode_spec hparent hsound hnew
        rw [List.forall_mem_singleton]
        exact ⟨parent, fun m hm => hmore m (hparent m hm), hup, hproperty ▸ hnames⟩

theorem Lists.addSegments {segments : List Text} (h : p.Lists asked) (hsound : p.Sound registry)
    (hparent : ∀ m ∈ parent, m ∈ p.nodes) (hdots : ∀ segment ∈ segments, Byte.dot ∉ segment)
    (hrun : addSegments registry fullPath p parent segments = .ok q) :
    q.Lists (asked ++ (beginnings segments).map (namesAt parent ++ ·)) := by
  induction segments generalizing p parent asked with
  | nil =>
    cases hrun
    simpa using h
  | cons segment rest ih =>
    obtain ⟨hdot, hdots⟩ := List.forall_mem_cons.mp hdots
    rw [addSegments_cons] at hrun
    obtain ⟨⟨node, next⟩, hstep, hrun⟩ := Result.bind_eq_ok.mp hrun
    obtain ⟨hnext, -, hnode⟩ := sound_descend hsound hparent hstep
    obtain ⟨hnames, hlists⟩ := h.descend hsound hparent hdot hstep
    have hq := ih hlists hnext (by simpa using hnode) hdots hrun
    have hat : namesAt (some node) = namesAt parent ++ [segment] := hnames
    simpa [beginnings_cons, hat, Function.comp_def] using hq

theorem Lists.addPath {maxDepth : Int} {path : Text} (h : p.Lists asked)
    (hsound : p.Sound registry) (hrun : addPath registry maxDepth p path = .ok q) :
    q.Lists (asked ++ beginnings (segments path)) := by
  rw [Plan.addPath] at hrun
  split at hrun
  · cases hrun
  · have hdots : ∀ segment ∈ segments path, Byte.dot ∉ segment :=
      fun segment hsegment => Text.not_mem_of_mem_split hsegment
    simpa [namesAt] using h.addSegments hsound (by simp) hdots hrun

theorem Lists.foldlM_addPath {maxDepth : Int} {paths : List Text} (h : p.Lists asked)
    (hsound : p.Sound registry) (hrun : paths.foldlM (Plan.addPath registry maxDepth) p = .ok q) :
    q.Lists (asked ++ paths.flatMap fun path => beginnings (segments path)) := by
  induction paths generalizing p asked with
  | nil =>
    cases hrun
    simpa using h
  | cons path rest ih =>
    rw [List.foldlM_cons] at hrun
    obtain ⟨next, hpath, hrun⟩ := Result.bind_eq_ok.mp hrun
    have hnext := ih (h.addPath hsound hpath) (sound_addPath hsound hpath).1 hrun
    rwa [List.flatMap_cons, ← List.append_assoc]

-- Where the node at a position stands: below the root, or below an earlier
-- node, whose segments are its own but for the last.
def StandsBelow (p : Plan) (position : Nat) (n : Node) : Prop :=
  (n.names.dropLast = [] ∧ n.parent = none ∧ n.parentAlias = "t0" ∧ n.source = p.root) ∨
    ∃ earlier m, earlier < position ∧ p.nodes[earlier]? = some m ∧ m.names = n.names.dropLast ∧
      n.parent = some m.number ∧ n.parentAlias = m.aliasName ∧ n.source = m.target

-- A plan with a node for every beginning of the paths and with no others.
structure PrefixTree (registry : Registry) (p : Plan) (paths : List Text) : Prop where
  mem_iff : ∀ names, (∃ n ∈ p.nodes, n.names = names) ↔
    names ≠ [] ∧ ∃ path ∈ paths, names <+: segments path
  distinct : (p.nodes.map Node.names).Nodup
  ordered : p.nodes.map Node.names = prefixes paths
  aliasName : ∀ i n, p.nodes[i]? = some n → n.aliasName = "t" ++ Text.ofNat (i + 1)
  standsBelow : ∀ i n, p.nodes[i]? = some n → p.StandsBelow i n
  hop : ∀ n ∈ p.nodes, n.names.getLast? = some n.navigation.property ∧
    n.source.navigation? n.navigation.property = some n.navigation ∧
    registry.get n.navigation.target = .ok n.target
  joined : (joins p).map (fun j => (j.table, j.aliasName, j.left.1)) = p.nodes.flatMap Node.tables

theorem Lists.standsBelow (h : p.Lists asked) (hsound : p.Sound registry) {i : Nat} {n : Node}
    (hn : p.nodes[i]? = some n) : p.StandsBelow i n := by
  have hmem := List.mem_of_getElem? hn
  obtain ⟨parent, hparent, hup, hbelow⟩ := h.below n hmem
  have hsource := hsound.source_eq_sourceAt hmem hparent hup
  have hinit : n.names.dropLast = namesAt parent := by rw [hbelow, List.dropLast_concat]
  cases parent with
  | none => exact .inl ⟨hinit, hup, by rw [Node.parentAlias, hup]; rfl, hsource⟩
  | some m =>
    obtain ⟨j, hj⟩ := List.mem_iff_getElem?.mp (hparent m rfl)
    have hlt : m.number < n.number := ((hsound.fits n hmem).source_of_parent _ hup).1
    rw [hsound.number i n hn, hsound.number j m hj] at hlt
    exact .inr ⟨j, m, Nat.lt_of_succ_lt_succ hlt, hj, hinit.symm, hup,
      by rw [Node.parentAlias, hup]; rfl, hsource⟩

theorem joins_tables (p : Plan) :
    (joins p).map (fun j => (j.table, j.aliasName, j.left.1)) = p.nodes.flatMap Node.tables := by
  rw [joins, List.map_flatMap]
  congr 1
  funext n
  cases hkind : n.navigation.relationship <;> simp [joinsOf, Node.tables, hkind]

theorem prefixTree_of_lists {paths : List Text} (hsound : p.Sound registry)
    (h : p.Lists (paths.flatMap fun path => beginnings (segments path))) :
    p.PrefixTree registry paths where
  mem_iff names := by
    rw [← h.mem_iff]
    simp only [List.mem_flatMap, mem_beginnings]
    tauto
  distinct := h.names ▸ nodup_eraseDups _
  ordered := h.names
  aliasName i n hn := by rw [Node.aliasName, hsound.number i n hn, Node.aliasOf]
  standsBelow i n hn := h.standsBelow hsound hn
  hop n hn := by
    obtain ⟨parent, -, -, hbelow⟩ := h.below n hn
    have hfits := hsound.fits n hn
    exact ⟨by rw [hbelow, List.getLast?_concat], hfits.navigation, hfits.target⟩
  joined := joins_tables p

theorem exists_ofPaths_iff (registry : Registry) (maxDepth : Int) (root : Entity) (paths : List Text) :
    (∃ p, ofPaths registry maxDepth root paths = .ok p) ↔ 1 ≤ maxDepth ∧
      ∀ path ∈ paths, fault? maxDepth path = none ∧ Follows registry root (segments path) := by
  by_cases hdepth : maxDepth < 1
  · have hno : ¬1 ≤ maxDepth := by omega
    simp [ofPaths, hdepth, hno]
  · have hyes : 1 ≤ maxDepth := by omega
    rw [ofPaths, if_neg hdepth, exists_foldlM_addPath_iff (sound_empty root) paths]
    simp [hyes]

theorem make_eq_ok_iff {maxDepth : Int} {root : Entity} {paths : List Text} :
    make registry maxDepth root paths = .ok p ↔ ofPaths registry maxDepth root paths = .ok p ∧
      ∀ name ∈ askedNames registry root paths, identifierFault? name = none := by
  rw [make_eq_ok]
  refine and_congr_right fun h => ?_
  rw [(sound_ofPaths h).1.texts_iff]
  rcases eq_or_ne paths [] with rfl | hpaths
  · have hnodes : p.nodes = [] := by
      rw [ofPaths] at h
      split at h <;> cases h
      rfl
    simp [hnodes, askedNames]
  · rw [or_iff_right (nodes_ne_nil_of_ofPaths h hpaths)]
    exact forall_congr' fun name => imp_congr_left (names_of_ofPaths h hpaths)

end Plan

end EntitySql.Include
