import EntitySql.Include.Plan
import EntitySql.Proofs.Run
import EntitySql.Proofs.Schema.Lookup
import EntitySql.Proofs.Text.Plain

-- What every plan that is made from paths has in common: its nodes are
-- numbered in order, hang below earlier nodes, and follow navigations of the
-- entities that they hang below.

namespace EntitySql.Include

theorem Node.plain_aliasOf (number : Nat) : Text.Plain (aliasOf number) := by
  have hletter : Text.Plain (Text.ofString "t") := by decide
  exact hletter.append (.of_numeral (.ofNat number))

-- The foreign key is mapped on its side of the hop, and a side that is joined
-- by its primary key has one.
def Joinable (source target : Entity) (n : Navigation) : Prop :=
  match n.relationship with
  | .reference column =>
    (∃ f ∈ source.fields, Text.sameFolded f.column column = true) ∧ target.primaryKey?.isSome
  | .collection column =>
    (∃ f ∈ target.fields, Text.sameFolded f.column column = true) ∧ source.primaryKey?.isSome
  | .manyToMany .. => source.primaryKey?.isSome ∧ target.primaryKey?.isSome

namespace Plan

theorem checkKeys_eq_ok {source target : Entity} {n : Navigation} :
    checkKeys source target n = .ok () ↔ Joinable source target n := by
  cases hkind : n.relationship with
  | reference column =>
    simp only [checkKeys, Joinable, hkind, ← Entity.isSome_column?]
    cases source.column? column <;> cases target.primaryKey? <;> simp
  | collection column =>
    simp only [checkKeys, Joinable, hkind, ← Entity.isSome_column?]
    cases target.column? column <;> cases source.primaryKey? <;> simp
  | manyToMany junction parentColumn targetColumn =>
    simp only [checkKeys, Joinable, hkind]
    cases source.primaryKey? <;> cases target.primaryKey? <;> simp

-- A node fits below its parent: the root of the plan or an earlier node.
structure Fits (registry : Registry) (p : Plan) (n : Node) : Prop where
  source_of_root : n.parent = none → n.source = p.root
  source_of_parent : ∀ k, n.parent = some k → k < n.number ∧
    ∃ q ∈ p.nodes, q.number = k ∧ n.source = q.target
  navigation : n.source.navigation? n.navigation.property = some n.navigation
  target : registry.get n.navigation.target = .ok n.target
  keys : checkKeys n.source n.target n.navigation = .ok ()

structure Sound (registry : Registry) (p : Plan) : Prop where
  number : ∀ i n, p.nodes[i]? = some n → n.number = i + 1
  fits : ∀ n ∈ p.nodes, p.Fits registry n
  siblings : ∀ n ∈ p.nodes, ∀ m ∈ p.nodes, n.parent = m.parent →
    n.navigation.property = m.navigation.property → n = m

variable {registry : Registry} {p q : Plan}

theorem sound_empty (root : Entity) : Sound registry { root } where
  number := by simp
  fits := by simp
  siblings := by simp

theorem Fits.extend {n : Node} (h : p.Fits registry n) (more : List Node) :
    Fits registry { p with nodes := p.nodes ++ more } n where
  source_of_root := h.source_of_root
  source_of_parent := by
    intro k hk
    obtain ⟨hlt, m, hm, hnumber, hsource⟩ := h.source_of_parent k hk
    exact ⟨hlt, m, List.mem_append_left more hm, hnumber, hsource⟩
  navigation := h.navigation
  target := h.target
  keys := h.keys

theorem Sound.number_le (h : p.Sound registry) {n : Node} (hn : n ∈ p.nodes) :
    n.number ≤ p.nodes.length := by
  obtain ⟨i, hi⟩ := List.mem_iff_getElem?.mp hn
  obtain ⟨hlt, -⟩ := List.getElem?_eq_some_iff.mp hi
  rw [h.number i n hi]
  exact hlt

theorem Sound.eq_of_number_eq (h : p.Sound registry) {n m : Node} (hn : n ∈ p.nodes)
    (hm : m ∈ p.nodes) (heq : n.number = m.number) : n = m := by
  obtain ⟨i, hi⟩ := List.mem_iff_getElem?.mp hn
  obtain ⟨j, hj⟩ := List.mem_iff_getElem?.mp hm
  have hij : i = j := by
    rw [h.number i n hi, h.number j m hj] at heq
    exact Nat.succ.inj heq
  subst hij
  exact Option.some.inj (hi.symm.trans hj)

-- A new node is numbered next, and no sibling follows the same navigation.
theorem Sound.addNode (h : p.Sound registry) {n : Node} (hnumber : n.number = p.nodes.length + 1)
    (hfits : p.Fits registry n)
    (hsiblings : ∀ m ∈ p.nodes, m.parent = n.parent →
      m.navigation.property ≠ n.navigation.property) :
    Sound registry { p with nodes := p.nodes ++ [n] } where
  number := by
    intro i m hm
    rcases Nat.lt_trichotomy i p.nodes.length with hlt | rfl | hgt
    · rw [List.getElem?_append_left hlt] at hm
      exact h.number i m hm
    · rw [List.getElem?_concat_length] at hm
      rw [← Option.some.inj hm, hnumber]
    · rw [List.getElem?_eq_none (by simp; exact hgt)] at hm
      cases hm
  fits := by
    intro m hm
    rw [List.mem_append, List.mem_singleton] at hm
    rcases hm with hm | rfl
    · exact (h.fits m hm).extend [n]
    · exact hfits.extend [m]
  siblings := by
    intro a ha b hb hparent hproperty
    rw [List.mem_append, List.mem_singleton] at ha hb
    rcases ha with ha | rfl
    · rcases hb with hb | rfl
      · exact h.siblings a ha b hb hparent hproperty
      · exact absurd hproperty (hsiblings a ha hparent)
    · rcases hb with hb | rfl
      · exact absurd hproperty.symm (hsiblings b hb hparent.symm)
      · rfl

theorem property_of_navigation? {e : Entity} {name : Text} {n : Navigation}
    (h : e.navigation? name = some n) : n.property = name := by
  simpa using List.find?_some h

theorem newNode_spec {parent : Option Node} {segment fullPath : Text} {n : Node}
    (hparent : ∀ m ∈ parent, m ∈ p.nodes) (hsound : p.Sound registry)
    (h : newNode registry p parent segment fullPath = .ok n) :
    n.number = p.nodes.length + 1 ∧ n.parent = parent.map Node.number ∧
      n.navigation.property = segment ∧ p.Fits registry n := by
  simp only [newNode] at h
  split at h
  · cases h
  · next navigation hnavigation =>
    have hproperty := property_of_navigation? hnavigation
    cases htarget : registry.get navigation.target with
    | error e => simp [htarget, bind, Except.bind] at h
    | ok target =>
      cases hkeys : checkKeys ((parent.map Node.target).getD p.root) target navigation with
      | error e => simp [htarget, hkeys, bind, Except.bind] at h
      | ok _ =>
        simp only [htarget, hkeys, bind, Except.bind, pure, Except.pure, Except.ok.injEq] at h
        subst h
        refine ⟨rfl, rfl, hproperty, ?_, ?_, ?_, htarget, hkeys⟩
        · intro hnone
          rw [Option.map_eq_none_iff.mp hnone]
          rfl
        · intro k hk
          obtain ⟨m, hm, hnumber⟩ := Option.map_eq_some_iff.mp hk
          have hmem := hparent m hm
          refine ⟨?_, m, hmem, hnumber, by simp [hm]⟩
          have hle := hsound.number_le hmem
          show k < p.nodes.length + 1
          omega
        · rw [hproperty]
          exact hnavigation

theorem child?_spec {parent : Option Node} {segment : Text} {n : Node}
    (h : p.child? parent segment = some n) : n ∈ p.nodes := List.mem_of_find?_eq_some h

-- One segment further down: to the node that is there already, or to a new
-- one behind all others.
def descend (registry : Registry) (fullPath : Text) (p : Plan) (parent : Option Node)
    (segment : Text) : Result (Node × Plan) :=
  match p.child? parent segment with
  | some node => .ok (node, p)
  | none => do
    let node ← newNode registry p parent segment fullPath
    return (node, { p with nodes := p.nodes ++ [node] })

theorem addSegments_cons (fullPath : Text) (p : Plan) (parent : Option Node) (segment : Text)
    (rest : List Text) :
    addSegments registry fullPath p parent (segment :: rest) = (do
      let step ← descend registry fullPath p parent segment
      addSegments registry fullPath step.2 (some step.1) rest) := by
  rw [addSegments, descend]
  cases p.child? parent segment with
  | some node => rfl
  | none => cases newNode registry p parent segment fullPath <;> rfl

theorem descend_eq_ok {fullPath segment : Text} {parent : Option Node} {node : Node} :
    descend registry fullPath p parent segment = .ok (node, q) ↔
      (p.child? parent segment = some node ∧ q = p) ∨
      (p.child? parent segment = none ∧ newNode registry p parent segment fullPath = .ok node ∧
        q = { p with nodes := p.nodes ++ [node] }) := by
  rw [descend]
  cases p.child? parent segment with
  | some found => simp [eq_comm]
  | none =>
    rw [Result.bind_eq_ok]
    constructor
    · rintro ⟨added, hnew, heq⟩
      cases heq
      exact .inr ⟨rfl, hnew, rfl⟩
    · rintro (⟨hno, -⟩ | ⟨-, hnew, rfl⟩)
      · cases hno
      · exact ⟨node, hnew, rfl⟩

theorem sound_descend {fullPath segment : Text} {parent : Option Node} {node : Node}
    (hsound : p.Sound registry) (hparent : ∀ m ∈ parent, m ∈ p.nodes)
    (h : descend registry fullPath p parent segment = .ok (node, q)) :
    q.Sound registry ∧ q.root = p.root ∧ node ∈ q.nodes := by
  rcases descend_eq_ok.mp h with ⟨hchild, rfl⟩ | ⟨hchild, hnew, rfl⟩
  · exact ⟨hsound, rfl, child?_spec hchild⟩
  · obtain ⟨hnumber, hup, hproperty, hfits⟩ := newNode_spec hparent hsound hnew
    have hsiblings : ∀ m ∈ p.nodes, m.parent = node.parent →
        m.navigation.property ≠ node.navigation.property := by
      intro m hm hm_parent heq
      have hno := List.find?_eq_none.mp hchild m hm
      simp [hm_parent, hup, heq, hproperty] at hno
    exact ⟨hsound.addNode hnumber hfits hsiblings, rfl, by simp⟩

theorem sound_addSegments {fullPath : Text} {parent : Option Node} {segments : List Text}
    (hsound : p.Sound registry) (hparent : ∀ m ∈ parent, m ∈ p.nodes)
    (h : addSegments registry fullPath p parent segments = .ok q) :
    q.Sound registry ∧ q.root = p.root := by
  induction segments generalizing p parent with
  | nil =>
    cases h
    exact ⟨hsound, rfl⟩
  | cons segment rest ih =>
    rw [addSegments_cons] at h
    obtain ⟨⟨node, next⟩, hstep, h⟩ := Result.bind_eq_ok.mp h
    obtain ⟨hnext, hroot, hnode⟩ := sound_descend hsound hparent hstep
    obtain ⟨hq, hroot'⟩ := ih hnext (by simpa using hnode) h
    exact ⟨hq, hroot'.trans hroot⟩

theorem sound_addPath {maxDepth : Int} {path : Text} (hsound : p.Sound registry)
    (h : addPath registry maxDepth p path = .ok q) : q.Sound registry ∧ q.root = p.root := by
  rw [addPath] at h
  split at h
  · cases h
  · exact sound_addSegments hsound (by simp) h

theorem sound_foldlM_addPath {maxDepth : Int} {paths : List Text} (hsound : p.Sound registry)
    (h : paths.foldlM (addPath registry maxDepth) p = .ok q) :
    q.Sound registry ∧ q.root = p.root := by
  induction paths generalizing p with
  | nil =>
    cases h
    exact ⟨hsound, rfl⟩
  | cons path rest ih =>
    rw [List.foldlM_cons] at h
    cases hpath : addPath registry maxDepth p path with
    | error e => simp [hpath, bind, Except.bind] at h
    | ok next =>
      rw [hpath] at h
      obtain ⟨hnext, hroot⟩ := sound_addPath hsound hpath
      obtain ⟨hq, hroot'⟩ := ih hnext h
      exact ⟨hq, hroot'.trans hroot⟩

-- Every plan that the planner accepts is sound.
theorem sound_ofPaths {maxDepth : Int} {root : Entity} {paths : List Text}
    (h : ofPaths registry maxDepth root paths = .ok p) : p.Sound registry ∧ p.root = root := by
  rw [ofPaths] at h
  split at h
  · cases h
  · exact sound_foldlM_addPath (sound_empty root) h

-- What holds of every new node holds of all nodes.

theorem forall_addSegments {P : Node → Prop} {fullPath : Text}
    (hnew : ∀ p parent segment n, newNode registry p parent segment fullPath = .ok n → P n)
    {parent : Option Node} {segments : List Text} (hp : ∀ n ∈ p.nodes, P n)
    (h : addSegments registry fullPath p parent segments = .ok q) : ∀ n ∈ q.nodes, P n := by
  induction segments generalizing p parent with
  | nil =>
    cases h
    exact hp
  | cons segment rest ih =>
    rw [addSegments_cons] at h
    obtain ⟨⟨node, next⟩, hstep, h⟩ := Result.bind_eq_ok.mp h
    refine ih ?_ h
    rcases descend_eq_ok.mp hstep with ⟨-, rfl⟩ | ⟨-, hnode, rfl⟩
    · exact hp
    · exact List.forall_mem_append.mpr ⟨hp, by simpa using hnew _ _ _ _ hnode⟩

theorem forall_foldlM_addPath {P : Node → Prop} {maxDepth : Int} {paths : List Text}
    (hnew : ∀ p parent segment fullPath n,
      newNode registry p parent segment fullPath = .ok n → P n)
    (hp : ∀ n ∈ p.nodes, P n) (h : paths.foldlM (addPath registry maxDepth) p = .ok q) :
    ∀ n ∈ q.nodes, P n := by
  induction paths generalizing p with
  | nil =>
    cases h
    exact hp
  | cons path rest ih =>
    rw [List.foldlM_cons] at h
    obtain ⟨next, hpath, h⟩ := Result.bind_eq_ok.mp h
    refine ih ?_ h
    rw [addPath] at hpath
    split at hpath
    · cases hpath
    · exact forall_addSegments (fun p parent segment n => hnew p parent segment path n) hp hpath

-- The path of a node is the name of its navigation or has a dot before it.
theorem path_of_newNode {parent : Option Node} {segment fullPath : Text} {n : Node}
    (h : newNode registry p parent segment fullPath = .ok n) :
    n.path = n.navigation.property ∨ Byte.dot ∈ n.path := by
  simp only [newNode] at h
  split at h
  · cases h
  · obtain ⟨target, -, h⟩ := Result.bind_eq_ok.mp h
    obtain ⟨_, -, h⟩ := Result.bind_eq_ok.mp h
    cases h
    cases parent with
    | none => exact .inl rfl
    | some node => exact .inr (by simp)

theorem path_of_ofPaths {maxDepth : Int} {root : Entity} {paths : List Text}
    (h : ofPaths registry maxDepth root paths = .ok p) :
    ∀ n ∈ p.nodes, n.path = n.navigation.property ∨ Byte.dot ∈ n.path := by
  rw [ofPaths] at h
  split at h
  · cases h
  · exact forall_foldlM_addPath (fun _ _ _ _ _ => path_of_newNode) (by simp) h

-- Every path leaves a node.

theorem segments_of_addSegments {fullPath : Text} {parent : Option Node} {segments : List Text}
    (h : addSegments registry fullPath p parent segments = .ok q) (hq : q.nodes = []) :
    p.nodes = [] ∧ segments = [] := by
  induction segments generalizing p parent with
  | nil =>
    cases h
    exact ⟨hq, rfl⟩
  | cons segment rest ih =>
    rw [addSegments_cons] at h
    obtain ⟨⟨node, next⟩, hstep, h⟩ := Result.bind_eq_ok.mp h
    have hnodes : next.nodes = [] := (ih h).1
    rcases descend_eq_ok.mp hstep with ⟨hchild, rfl⟩ | ⟨-, -, rfl⟩
    · have hnode := child?_spec hchild
      rw [hnodes] at hnode
      cases hnode
    · simp at hnodes

theorem paths_of_foldlM_addPath {maxDepth : Int} {paths : List Text}
    (h : paths.foldlM (addPath registry maxDepth) p = .ok q) (hq : q.nodes = []) :
    p.nodes = [] ∧ paths = [] := by
  induction paths generalizing p with
  | nil =>
    cases h
    exact ⟨hq, rfl⟩
  | cons path rest ih =>
    rw [List.foldlM_cons] at h
    obtain ⟨next, hpath, h⟩ := Result.bind_eq_ok.mp h
    rw [addPath] at hpath
    split at hpath
    · cases hpath
    · exact absurd (segments_of_addSegments hpath (ih h).1).2 (Text.split_ne_nil _ _)

theorem nodes_ne_nil_of_ofPaths {maxDepth : Int} {root : Entity} {paths : List Text}
    (h : ofPaths registry maxDepth root paths = .ok p) (hpaths : paths ≠ []) : p.nodes ≠ [] := by
  intro hnodes
  rw [ofPaths] at h
  split at h
  · cases h
  · exact hpaths (paths_of_foldlM_addPath h hnodes).2

-- Nodes lead between the root and registered entities.

theorem Sound.target_mem (h : p.Sound registry) {n : Node} (hn : n ∈ p.nodes) :
    n.target ∈ registry.entities := Registry.mem_of_get (h.fits n hn).target

theorem Sound.source_eq_or_mem (h : p.Sound registry) {n : Node} (hn : n ∈ p.nodes) :
    n.source = p.root ∨ n.source ∈ registry.entities := by
  have hfits := h.fits n hn
  cases hparent : n.parent with
  | none => exact .inl (hfits.source_of_root hparent)
  | some k =>
    obtain ⟨-, q, hq, -, hsource⟩ := hfits.source_of_parent k hparent
    exact .inr (hsource ▸ h.target_mem hq)

theorem Sound.source_mem (h : p.Sound registry) (hroot : p.root ∈ registry.entities) {n : Node}
    (hn : n ∈ p.nodes) : n.source ∈ registry.entities := by
  rcases h.source_eq_or_mem hn with hsource | hsource
  · exact hsource ▸ hroot
  · exact hsource

theorem Sound.navigation_mem (h : p.Sound registry) {n : Node} (hn : n ∈ p.nodes) :
    n.navigation ∈ n.source.navigations := List.mem_of_find?_eq_some (h.fits n hn).navigation

end Plan

end EntitySql.Include
