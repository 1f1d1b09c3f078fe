import EntitySql.Proofs.Include.Sound
import Mathlib.Data.List.Induction
import Mathlib.Tactic.Tauto

-- Chains of includes from the root downwards. They can be read off the list
-- of nodes, by the numbers of the parents, and off the trees that are made
-- of it; both ways give the same chains.

namespace EntitySql.Include

-- Nodes of the list, each below the one before it, the first below the given
-- parent.
def Descends (nodes : List Node) : Option Nat → List Node → Prop
  | _, [] => True
  | parent, n :: rest => n ∈ nodes ∧ n.parent = parent ∧ Descends nodes (some n.number) rest

-- The ancestors of a node and the node itself, from the outermost inwards.
def Plan.Chain (p : Plan) (chain : List Node) : Prop := Descends p.nodes none chain

-- The number of the last node of a chain; none stands for the root.
def site (chain : List Node) : Option Nat := chain.getLast?.map Node.number

@[simp] theorem site_nil : site [] = none := rfl

@[simp] theorem site_append_singleton (chain : List Node) (n : Node) :
    site (chain ++ [n]) = some n.number := by
  simp [site]

theorem descends_append_singleton {nodes : List Node} {parent : Option Nat} {chain : List Node}
    {n : Node} :
    Descends nodes parent (chain ++ [n]) ↔
      Descends nodes parent chain ∧ n ∈ nodes ∧ n.parent = (site chain).or parent := by
  induction chain generalizing parent with
  | nil => simp [Descends]
  | cons m rest ih =>
    have hsite : (site rest).or (some m.number) = (site (m :: rest)).or parent := by
      cases hlast : rest.getLast? <;> simp [site, List.getLast?_cons, hlast]
    simp only [List.cons_append, Descends, ih, hsite]
    tauto

theorem Plan.chain_append_singleton {p : Plan} {chain : List Node} {n : Node} :
    p.Chain (chain ++ [n]) ↔ p.Chain chain ∧ n ∈ p.nodes ∧ n.parent = site chain := by
  rw [Chain, descends_append_singleton, Option.or_none]
  rfl

-- A path through trees from one of their roots.
def Leads : List Tree → List Node → Prop
  | _, [] => True
  | trees, n :: rest => ∃ children, Tree.node n children ∈ trees ∧ Leads children rest

mutual

def Tree.flatten : Tree → List Node
  | .node n children => n :: flattenAll children

def flattenAll : List Tree → List Node
  | [] => []
  | tree :: rest => tree.flatten ++ flattenAll rest

end

theorem flattenAll_eq_flatMap (trees : List Tree) : flattenAll trees = trees.flatMap Tree.flatten := by
  induction trees with
  | nil => rfl
  | cons tree rest ih => simp [flattenAll, ih]

-- Nodes in the order of their numbers, each behind its parent.
structure Numbered (nodes : List Node) : Prop where
  increasing : nodes.Pairwise fun n m => n.number < m.number
  parent_lt : ∀ n ∈ nodes, ∀ k, n.parent = some k → k < n.number

theorem Numbered.of_cons {n : Node} {rest : List Node} (h : Numbered (n :: rest)) :
    Numbered rest where
  increasing := (List.pairwise_cons.mp h.increasing).2
  parent_lt m hm := h.parent_lt m (List.mem_cons_of_mem n hm)

-- The parent of the first node is none of the nodes.
theorem Numbered.parent_head_ne {n : Node} {rest : List Node} (h : Numbered (n :: rest)) :
    ∀ m ∈ n :: rest, n.parent ≠ some m.number := by
  intro m hm hparent
  have hlt := h.parent_lt n (List.mem_cons_self ..) m.number hparent
  rcases List.mem_cons.mp hm with rfl | hm
  · omega
  · have hgt := (List.pairwise_cons.mp h.increasing).1 m hm
    omega

-- The first node is below none of the others, so chains below those do
-- without it.
theorem descends_cons_of_mem {n : Node} {rest : List Node} (h : Numbered (n :: rest))
    {m : Node} (hm : m ∈ rest) (chain : List Node) :
    Descends (n :: rest) (some m.number) chain ↔ Descends rest (some m.number) chain := by
  induction chain generalizing m with
  | nil => simp [Descends]
  | cons c chain ih =>
    simp only [Descends]
    constructor
    · rintro ⟨hc, hparent, hchain⟩
      rcases List.mem_cons.mp hc with rfl | hc
      · exact absurd hparent (h.parent_head_ne m (List.mem_cons_of_mem _ hm))
      · exact ⟨hc, hparent, (ih hc).mp hchain⟩
    · rintro ⟨hc, hparent, hchain⟩
      exact ⟨List.mem_cons_of_mem n hc, hparent, (ih hc).mpr hchain⟩

theorem descends_cons_self {n : Node} {rest : List Node} (h : Numbered (n :: rest))
    (chain : List Node) :
    Descends (n :: rest) (some n.number) chain ↔ Descends rest (some n.number) chain := by
  cases chain with
  | nil => simp [Descends]
  | cons c chain =>
    simp only [Descends]
    constructor
    · rintro ⟨hc, hparent, hchain⟩
      rcases List.mem_cons.mp hc with rfl | hc
      · exact absurd hparent (h.parent_head_ne c (List.mem_cons_self ..))
      · exact ⟨hc, hparent, (descends_cons_of_mem h hc chain).mp hchain⟩
    · rintro ⟨hc, hparent, hchain⟩
      exact ⟨List.mem_cons_of_mem n hc, hparent, (descends_cons_of_mem h hc chain).mpr hchain⟩

-- The trees that wait for a parent.
def below (nodes : List Node) (parent : Option Nat) : List Tree :=
  ((Plan.waiting nodes).filter fun w => w.1 = parent).map (·.2)

theorem waiting_cons (n : Node) (rest : List Node) :
    Plan.waiting (n :: rest) = (n.parent, .node n (below rest (some n.number))) ::
      (Plan.waiting rest).filter fun w => !decide (w.1 = some n.number) := by
  simp only [Plan.waiting, List.foldr_cons, List.partition_eq_filter_filter, below]
  rfl

theorem waiting_ne_number {nodes : List Node} (h : Numbered nodes) {w : Option Nat × Tree}
    (hw : w ∈ Plan.waiting nodes) : ∀ m ∈ nodes, w.1 ≠ some m.number := by
  induction nodes with
  | nil => simp
  | cons n rest ih =>
    rw [waiting_cons, List.mem_cons, List.mem_filter] at hw
    rcases hw with rfl | ⟨hw, hne⟩
    · exact h.parent_head_ne
    · intro m hm
      rcases List.mem_cons.mp hm with rfl | hm
      · simpa using hne
      · exact ih h.of_cons hw m hm

theorem waiting_parent {nodes : List Node} {w : Option Nat × Tree}
    (hw : w ∈ Plan.waiting nodes) : ∃ n ∈ nodes, n.parent = w.1 := by
  induction nodes with
  | nil => simp [Plan.waiting] at hw
  | cons n rest ih =>
    rw [waiting_cons, List.mem_cons, List.mem_filter] at hw
    rcases hw with rfl | ⟨hw, -⟩
    · exact ⟨n, List.mem_cons_self .., rfl⟩
    · obtain ⟨m, hm, hparent⟩ := ih hw
      exact ⟨m, List.mem_cons_of_mem n hm, hparent⟩

theorem mem_below {nodes : List Node} {parent : Option Nat} {tree : Tree} :
    tree ∈ below nodes parent ↔ (parent, tree) ∈ Plan.waiting nodes := by
  simp [below]

-- The trees that wait for a parent hold exactly the chains below it.
theorem leads_below {nodes : List Node} (h : Numbered nodes) (parent : Option Nat)
    (hparent : ∀ m ∈ nodes, parent ≠ some m.number) (chain : List Node) :
    Leads (below nodes parent) chain ↔ Descends nodes parent chain := by
  induction nodes generalizing parent chain with
  | nil => cases chain <;> simp [Leads, Descends, mem_below, Plan.waiting]
  | cons n rest ih =>
    cases chain with
    | nil => simp [Leads, Descends]
    | cons c chain =>
      have hn : ∀ m ∈ rest, some n.number ≠ some m.number := by
        intro m hm heq
        have hlt := (List.pairwise_cons.mp h.increasing).1 m hm
        exact absurd (Option.some.inj heq) (Nat.ne_of_lt hlt)
      have hrest := ih h.of_cons parent (fun m hm => hparent m (List.mem_cons_of_mem n hm))
        (c :: chain)
      simp only [Leads, Descends, mem_below] at hrest
      simp only [Leads, Descends, mem_below, waiting_cons, List.mem_cons, List.mem_filter,
        Prod.mk.injEq, Tree.node.injEq]
      constructor
      · rintro ⟨children, ⟨rfl, rfl, rfl⟩ | ⟨hmem, -⟩, hchain⟩
        · exact ⟨.inl rfl, rfl, (descends_cons_self h chain).mpr
            ((ih h.of_cons _ hn chain).mp hchain)⟩
        · obtain ⟨hc, hup, hdown⟩ := hrest.mp ⟨children, hmem, hchain⟩
          exact ⟨.inr hc, hup, (descends_cons_of_mem h hc chain).mpr hdown⟩
      · rintro ⟨rfl | hc, hup, hdown⟩
        · exact ⟨_, .inl ⟨hup.symm, rfl, rfl⟩, (ih h.of_cons _ hn chain).mpr
            ((descends_cons_self h chain).mp hdown)⟩
        · obtain ⟨children, hmem, hchain⟩ :=
            hrest.mpr ⟨hc, hup, (descends_cons_of_mem h hc chain).mp hdown⟩
          have hne : parent ≠ some n.number := hparent n (List.mem_cons_self ..)
          exact ⟨children, .inr ⟨hmem, by simpa using hne⟩, hchain⟩

theorem flatten_waiting_perm (nodes : List Node) :
    (flattenAll ((Plan.waiting nodes).map (·.2))).Perm nodes := by
  induction nodes with
  | nil => exact List.Perm.nil
  | cons n rest ih =>
    rw [waiting_cons, List.map_cons, flattenAll, Tree.flatten, List.cons_append]
    refine List.Perm.cons n (List.Perm.trans ?_ ih)
    simp only [below, flattenAll_eq_flatMap, ← List.flatMap_append, ← List.map_append]
    exact ((List.filter_append_perm _ _).map _).flatMap_right _

namespace Plan

variable {registry : Registry} {p : Plan}

theorem Sound.numbered (h : p.Sound registry) : Numbered p.nodes where
  increasing := by
    rw [List.pairwise_iff_getElem]
    intro i j hi hj hij
    rw [h.number i _ (List.getElem?_eq_getElem hi), h.number j _ (List.getElem?_eq_getElem hj)]
    omega
  parent_lt n hn k hk := ((h.fits n hn).source_of_parent k hk).1

-- No tree of a whole plan waits for a parent any more.
theorem Sound.trees_eq_below (h : p.Sound registry) : p.trees = below p.nodes none := by
  have hnone : ∀ w ∈ waiting p.nodes, w.1 = none := by
    intro w hw
    obtain ⟨n, hn, hparent⟩ := waiting_parent hw
    cases hup : w.1 with
    | none => rfl
    | some k =>
      obtain ⟨-, q, hq, hnumber, -⟩ := (h.fits n hn).source_of_parent k (hparent.trans hup)
      exact absurd (hup.trans (congrArg some hnumber.symm)) (waiting_ne_number h.numbered hw q hq)
  have hall : (waiting p.nodes).filter (fun w => w.1 = none) = waiting p.nodes :=
    List.filter_eq_self.mpr fun w hw => by simpa using hnone w hw
  rw [trees, below, hall]

theorem Sound.leads_trees (h : p.Sound registry) (chain : List Node) :
    Leads p.trees chain ↔ p.Chain chain := by
  rw [h.trees_eq_below]
  exact leads_below h.numbered none (by simp) chain

-- A chain is known by its last node.
theorem Sound.chain_eq_of_site_eq (h : p.Sound registry) {chain other : List Node}
    (hchain : p.Chain chain) (hother : p.Chain other) (heq : site chain = site other) :
    chain = other := by
  induction chain using List.reverseRecOn generalizing other with
  | nil =>
    cases other using List.reverseRecOn with
    | nil => rfl
    | append_singleton init m => simp at heq
  | append_singleton init n ih =>
    cases other using List.reverseRecOn with
    | nil => simp at heq
    | append_singleton init' m =>
      obtain ⟨hinit, hn, hparent⟩ := chain_append_singleton.mp hchain
      obtain ⟨hinit', hm, hparent'⟩ := chain_append_singleton.mp hother
      rw [site_append_singleton, site_append_singleton, Option.some.injEq] at heq
      obtain rfl := h.eq_of_number_eq hn hm heq
      rw [ih hinit hinit' (hparent.symm.trans hparent')]

theorem flatten_trees_perm (p : Plan) : (flattenAll p.trees).Perm p.nodes :=
  flatten_waiting_perm p.nodes

end Plan

end EntitySql.Include
