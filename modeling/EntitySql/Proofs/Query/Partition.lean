import EntitySql.Proofs.Query.Groups
import EntitySql.Proofs.Value.Hash
import Mathlib.Data.List.Pairwise

-- Groups in memory as a partition of their items. As long as the keys can be
-- read and hold no NaN, every item is in one group, whose key its own is taken for.
-- A group has all the items of its key if the test of keys sorts them into classes.

namespace EntitySql.Query

-- Keys of as many parts are compared part by part.
theorem same_keyOf {as bs : List Value} (h : as.length = bs.length) :
    (keyOf as).same (keyOf bs) = Value.sameItems as bs := by
  match as, bs with
  | [], [] => rfl
  | [a], [b] => simp [keyOf, Value.sameItems]
  | a :: a' :: as, b :: b' :: bs => simp [keyOf, Value.same]

theorem holdsNan_keyOf {parts : List Value} (h : ∀ part ∈ parts, part.holdsNan = false) :
    (keyOf parts).holdsNan = false := by
  match parts with
  | [part] => exact h part (List.mem_cons_self ..)
  | [] => rfl
  | _ :: _ :: _ => exact Value.itemsHoldNan_eq_false h

-- Items in groups by a test of their keys.
structure Splits (same : Value → Value → Bool) (key : InstanceId → Value)
    (items : List InstanceId) (groups : List Group) : Prop where
  keys : groups.map (·.key) = firstKeys same (items.map key)
  different : groups.Pairwise fun a b => same a.key b.key = false
  first : ∀ g ∈ groups, ∃ first ∈ items, g.items.head? = some first ∧ g.key = key first
  order : ∀ g ∈ groups, g.items.Sublist items
  alike : ∀ g ∈ groups, ∀ id ∈ g.items, same (key id) g.key = true
  once : ∀ id ∈ items, ∃ g ∈ groups, g.items.count id = items.count id ∧
    ∀ g' ∈ groups, id ∈ g'.items → g' = g

-- A stable partition: no item of a group's key is in another group.
structure Partitions (same : Value → Value → Bool) (key : InstanceId → Value)
    (items : List InstanceId) (groups : List Group) : Prop
    extends Splits same key items groups where
  members : ∀ g ∈ groups, g.items = items.filter fun id => same (key id) g.key

variable {same : Value → Value → Bool} {key : InstanceId → Value} {items : List InstanceId}
variable {groups : List Group} {g g' : Group} {id : InstanceId}

namespace Grouped

theorem items_eq (h : Grouped same (items.map fun id => (key id, id)) groups)
    (hproper : ∀ id ∈ items, same (key id) (key id) = true) {i : Nat} (hi : groups[i]? = some g) :
    g.items = items.filter fun id => Group.place? same groups (key id) = some i := by
  rw [h.items (List.forall_mem_map.mpr hproper) i g hi, List.filter_map, List.map_map]
  exact List.map_id _

theorem splits (hcomm : ∀ a b, same a b = same b a)
    (h : Grouped same (items.map fun id => (key id, id)) groups)
    (hproper : ∀ id ∈ items, same (key id) (key id) = true) : Splits same key items groups := by
  constructor
  case keys =>
    rw [h.keys, List.map_map]
    rfl
  case different => exact h.pairwise.imp fun hother => by rwa [hcomm]
  case first =>
    intro g hg
    obtain ⟨e, he, hhead, hkey⟩ := h.heads g hg
    obtain ⟨first, hfirst, rfl⟩ := List.mem_map.mp he
    exact ⟨first, hfirst, hhead, hkey⟩
  case order =>
    intro g hg
    obtain ⟨i, hi⟩ := List.mem_iff_getElem?.mp hg
    rw [h.items_eq hproper hi]
    exact List.filter_sublist
  case alike =>
    intro g hg id hid
    obtain ⟨i, hi⟩ := List.mem_iff_getElem?.mp hg
    rw [h.items_eq hproper hi, List.mem_filter, decide_eq_true_eq] at hid
    rw [hcomm]
    exact Group.same_of_place? hid.2 hi
  case once =>
    intro id hid
    -- The place of the key is the only one at which the item can be.
    obtain ⟨i, hplace⟩ := Option.isSome_iff_exists.mp
      (h.isSome_place? (List.mem_map_of_mem hid) (hproper id hid))
    obtain ⟨hlt, -⟩ := List.findIdx?_eq_some_iff_getElem.mp hplace
    refine ⟨groups[i], List.getElem_mem hlt, ?_, fun g' hg' hid' => ?_⟩
    · rw [h.items_eq hproper (List.getElem?_eq_getElem hlt)]
      exact List.count_filter (decide_eq_true hplace)
    · obtain ⟨j, hj⟩ := List.mem_iff_getElem?.mp hg'
      rw [h.items_eq hproper hj, List.mem_filter, decide_eq_true_eq, hplace] at hid'
      obtain rfl := Option.some.inj hid'.2
      exact (List.getElem?_eq_some_iff.mp hj).2.symm

end Grouped

namespace Splits

theorem key_mem (h : Splits same key items groups) (hg : g ∈ groups) : g.key ∈ items.map key := by
  obtain ⟨first, hfirst, -, hkey⟩ := h.first g hg
  exact hkey ▸ List.mem_map_of_mem hfirst

theorem exists_mem (h : Splits same key items groups) (hid : id ∈ items) :
    ∃ g ∈ groups, id ∈ g.items ∧ g.items.count id = items.count id := by
  obtain ⟨g, hg, hcount, -⟩ := h.once id hid
  exact ⟨g, hg, List.count_pos_iff.mp (hcount ▸ List.count_pos_iff.mpr hid), hcount⟩

-- The groups of two keys that are the same to a third one are one.
theorem count_of_same (h : Splits same key items groups) (hcomm : ∀ a b, same a b = same b a)
    (htrans : TransitiveOn (items.map key) same) (hg : g ∈ groups) (hid : id ∈ items)
    (hsame : same (key id) g.key = true) : g.items.count id = items.count id := by
  obtain ⟨g', hg', hid', hcount⟩ := h.exists_mem hid
  have hgroups : same g.key g'.key = true :=
    htrans _ (h.key_mem hg) _ (List.mem_map_of_mem hid) _ (h.key_mem hg')
      (hcomm .. ▸ hsame) (h.alike g' hg' id hid')
  have hsymm : Std.Symm fun a b : Group => same a.key b.key = false :=
    ⟨fun a b hother => by rwa [hcomm]⟩
  have heq : g = g' := by
    by_contra hne
    have hother := h.different.forall hg hg' hne
    rw [hgroups] at hother
    cases hother
  rw [heq, hcount]

theorem partitions (h : Splits same key items groups) (hcomm : ∀ a b, same a b = same b a)
    (htrans : TransitiveOn (items.map key) same) : Partitions same key items groups := by
  refine { h with members := fun g hg => ?_ }
  have hfiltered : g.items.Sublist (items.filter fun id => same (key id) g.key) := by
    rw [← List.filter_eq_self.mpr (h.alike g hg)]
    exact (h.order g hg).filter _
  refine hfiltered.eq_of_length (List.Perm.length_eq (List.perm_iff_count.mpr fun id => ?_))
  by_cases hid : id ∈ items.filter fun id => same (key id) g.key
  · obtain ⟨hmem, hsame⟩ := List.mem_filter.mp hid
    rw [h.count_of_same hcomm htrans hg hmem hsame]
    exact (List.count_filter (p := fun id => same (key id) g.key) hsame).symm
  · rw [List.count_eq_zero.mpr hid, List.count_eq_zero.mpr fun h => hid (hfiltered.subset h)]

-- Tests that agree on the keys of the items give the same groups.
theorem congr {same' : Value → Value → Bool} (h : Splits same key items groups)
    (hagree : ∀ a ∈ items.map key, ∀ b ∈ items.map key, same a b = same' a b) :
    Splits same' key items groups := by
  refine { h with keys := ?_, different := ?_, alike := fun g hg id hid => ?_ }
  · rw [h.keys, firstKeys_congr hagree]
  · exact h.different.imp_of_mem fun ha hb hother => hagree _ (h.key_mem ha) _ (h.key_mem hb) ▸ hother
  · rw [← hagree _ (List.mem_map_of_mem ((h.order g hg).subset hid)) _ (h.key_mem hg)]
    exact h.alike g hg id hid

end Splits
-- Equal keys are in one group exactly if they hash alike.
theorem Splits.partitions_same_iff {f : HashFunctions}
    (h : Splits (Value.sameKey f) key items groups)
    (htrans : TransitiveOn (items.map key) Value.same) :
    Partitions Value.same key items groups ↔
      ∀ a ∈ items, ∀ b ∈ items, (key a).same (key b) = true → (key a).hash f = (key b).hash f := by
  constructor
  · intro hpartitions a ha b hb hsame
    obtain ⟨g, hg, hag, -⟩ := h.exists_mem ha
    have hakey := Value.sameKey_iff.mp (h.alike g hg a hag)
    -- The group of one of them has the other one too.
    have hbg : b ∈ g.items := by
      rw [hpartitions.members g hg, List.mem_filter]
      exact ⟨hb, htrans _ (List.mem_map_of_mem hb) _ (List.mem_map_of_mem ha) _ (h.key_mem hg)
        (Value.same_symm hsame) hakey.2⟩
    exact hakey.1.trans (Value.sameKey_iff.mp (h.alike g hg b hbg)).1.symm
  · intro hhash
    refine (h.congr ?_).partitions Value.same_comm htrans
    refine List.forall_mem_map.mpr fun a ha => List.forall_mem_map.mpr fun b hb => ?_
    rw [Bool.eq_iff_iff, Value.sameKey_iff]
    exact and_iff_right_of_imp (hhash a ha b hb)

theorem Splits.partitions_same_of_plain {f : HashFunctions} (hf : f.RespectsDoubles)
    (h : Splits (Value.sameKey f) key items groups)
    (hplain : ∀ id ∈ items, (key id).holdsDocument = false) :
    Partitions Value.same key items groups :=
  (h.partitions_same_iff (transitiveOn_same (List.forall_mem_map.mpr hplain))).mpr
    fun _ ha _ _ => Value.hash_congr hf fun hdocument => by
      rw [hplain _ ha] at hdocument
      cases hdocument

namespace Session

open Sql.Compiler (Naming Honest)

variable {s : Services} {env : Environment} {p : Plan} {names : Naming} {before : Session}

theorem exists_accessor (hcache : Honest names s.registry before.cache) {key : Expr}
    (hkey : names key.id = some key) {a : Accessor}
    (ha : Eval.accessor s.registry key = .ok a) :
    ∃ after, Yields (accessor s env p key) before a after := by
  obtain ⟨state, hstate⟩ : ∃ state,
      Yields ((p.plainCompiler s env).accessor key) { cache := before.cache } a state :=
    Sql.Compiler.exists_accessor hcache hkey ha
  exact ⟨_, Yields.bind_iff.mpr ⟨_, _, yields_compile_of hstate, Yields.pure_iff.mpr ⟨rfl, rfl⟩⟩⟩

theorem exists_selectors {keys : List Expr} {selectors : List Accessor}
    (hselectors : List.Forall₂ (fun key a => Eval.accessor s.registry key = .ok a) keys selectors)
    (hnames : ∀ key ∈ keys, names key.id = some key)
    (hcache : Honest names s.registry before.cache) :
    ∃ after, Yields (keys.mapM (accessor s env p)) before selectors after ∧
      Recached names s.registry before after := by
  induction hselectors generalizing before with
  | nil => exact ⟨before, Yields.pure_iff.mpr ⟨rfl, rfl⟩, .refl hcache⟩
  | cons ha _ ih =>
    obtain ⟨hkey, hrest⟩ := List.forall_mem_cons.mp hnames
    obtain ⟨middle, hfirst⟩ : ∃ middle, Yields (accessor s env p _) before _ middle :=
      exists_accessor hcache hkey ha
    have hmiddle := (yields_accessor hcache hkey hfirst).2
    obtain ⟨after, hmore, hafter⟩ := ih hrest hmiddle.honest
    refine ⟨after, ?_, hmiddle.trans hafter⟩
    rw [List.mapM_cons]
    exact Yields.bind_iff.mpr ⟨_, _, hfirst, Yields.bind_iff.mpr
      ⟨_, _, hmore, Yields.pure_iff.mpr ⟨rfl, rfl⟩⟩⟩

end Session

-- Grouping in memory succeeds if the keys of all items can be read. Its groups are
-- told apart as a table does it. Where equality sorts the keys into classes, they are
-- a stable partition by equal keys unless two equal keys hash apart, which takes
-- documents.
theorem partitions_items {s : Services} {env : Environment} {p : Plan}
    {names : Sql.Compiler.Naming} {before : Session} {selectors : List Accessor}
    {parts : InstanceId → List Value} {items : List InstanceId}
    (hnames : ∀ key ∈ p.clauses.groupKeys, names key.id = some key)
    (hcache : Sql.Compiler.Honest names s.registry before.cache)
    (hselectors : List.Forall₂ (fun key a => Eval.accessor s.registry key = .ok a)
      p.clauses.groupKeys selectors)
    (hparts : ∀ id ∈ items, selectors.mapM
      (· { captures := env.captures, store := before.store, entity := some id }) = .ok (parts id))
    (hnan : ∀ id ∈ items, ∀ part ∈ parts id, part.holdsNan = false) :
    ∃ groups after, Yields (Session.groupInMemory s env p items) before groups after ∧
      Session.Recached names s.registry before after ∧
      Splits (Value.sameKey env.hashes) (fun id => keyOf (parts id)) items groups ∧
      (TransitiveOn (items.map fun id => keyOf (parts id)) (Value.sameKey env.hashes) →
        Partitions (Value.sameKey env.hashes) (fun id => keyOf (parts id)) items groups) ∧
      (TransitiveOn (items.map fun id => keyOf (parts id)) Value.same →
        (Partitions Value.same (fun id => keyOf (parts id)) items groups ↔
          ∀ a ∈ items, ∀ b ∈ items, (keyOf (parts a)).same (keyOf (parts b)) = true →
            (keyOf (parts a)).hash env.hashes = (keyOf (parts b)).hash env.hashes)) ∧
      (env.hashes.RespectsDoubles → (∀ id ∈ items, (keyOf (parts id)).holdsDocument = false) →
        Partitions Value.same (fun id => keyOf (parts id)) items groups) ∧
      ∀ a ∈ items, ∀ b ∈ items,
        (keyOf (parts a)).same (keyOf (parts b)) = Value.sameItems (parts a) (parts b) := by
  obtain ⟨after, hrun, hrecached⟩ := Session.exists_selectors hselectors hnames hcache
  have hstore : after.store = before.store := by
    obtain ⟨cache, -, rfl⟩ := hrecached
    rfl
  have hgroups := Session.foldlM_groupItem hparts []
  have hsplits := (Grouped.nil.foldl (Value.sameKey_comm env.hashes)
    (fun id => keyOf (parts id)) items).splits (Value.sameKey_comm env.hashes) fun id hid => by
      rw [Value.sameKey_self, holdsNan_keyOf (hnan id hid)]
      rfl
  refine ⟨_, after, ?_, hrecached, hsplits, hsplits.partitions (Value.sameKey_comm env.hashes),
    hsplits.partitions_same_iff, fun hf => hsplits.partitions_same_of_plain hf,
    fun a ha b hb => ?_⟩
  · refine Yields.bind_iff.mpr ⟨selectors, after, hrun, ?_⟩
    rw [Yields.get_bind_iff, hstore]
    exact Yields.lift_iff.mpr ⟨hgroups, rfl⟩
  · exact same_keyOf ((Result.length_of_mapM (hparts a ha)).trans
      (Result.length_of_mapM (hparts b hb)).symm)

-- Equal documents that hash apart are two keys.
example :
    (Value.json (.int 1)).same (.json (.double 1)) = true ∧
      (Value.json (.int 1)).sameKey .plain (.json (.double 1)) = false := by decide +kernel

-- Authors by company and name. The first one is listed twice.

def namesakes : Plan where
  clauses :=
    { root := Catalogue.authorEntity
      groupKeys :=
        [.member 1 (.parameter 0 ⟨"a", Catalogue.author, false⟩) "CompanyId",
          .member 3 (.parameter 2 ⟨"a", Catalogue.author, false⟩) "Name"] }

def namesakeFields : List Field :=
  [Catalogue.field "CompanyId" (.optional .int64) "company_id",
    Catalogue.field "Name" .string "name"]

def namesakeSession : Session where
  store := ⟨[
    ⟨Catalogue.author, [("Id", .int 1), ("Name", .string "Ada"), ("CompanyId", .int 1)], []⟩,
    ⟨Catalogue.author, [("Id", .int 2), ("Name", .string "Ada"), ("CompanyId", .null)], []⟩,
    ⟨Catalogue.author, [("Id", .int 3), ("Name", .string "Ada"), ("CompanyId", .int 1)], []⟩]⟩

def namesakeNames : Sql.Compiler.Naming := fun id =>
  namesakes.clauses.groupKeys.find? (·.id = id)

def namesakeParts (id : InstanceId) : List Value :=
  namesakeFields.map (namesakeSession.store.valueAt id)

theorem partitions_items_namesakes :
    ∃ groups after,
      Yields (Session.groupInMemory readServices readEnvironment namesakes [0, 1, 2, 0])
        namesakeSession groups after ∧
      groups.map (·.items) = [[0, 2, 0], [1]] ∧
      Partitions Value.same (fun id => keyOf (namesakeParts id)) [0, 1, 2, 0] groups := by
  have hroot : readServices.registry.find? Catalogue.authorEntity.type =
      some Catalogue.authorEntity := by decide
  have hcompany : Catalogue.authorEntity.property? "CompanyId" =
      some (Catalogue.field "CompanyId" (.optional .int64) "company_id") := by decide
  have hname : Catalogue.authorEntity.property? "Name" =
      some (Catalogue.field "Name" .string "name") := by decide
  have hselectors : List.Forall₂
      (fun key a => Eval.accessor readServices.registry key = .ok a)
      namesakes.clauses.groupKeys (namesakeFields.map fun f => Eval.readField f (·.entity)) :=
    .cons (accessor_member hroot hcompany 1 0 "a")
      (.cons (accessor_member hroot hname 3 2 "a") .nil)
  have hnames : ∀ key ∈ namesakes.clauses.groupKeys, namesakeNames key.id = some key :=
    List.forall_mem_cons.mpr ⟨rfl, List.forall_mem_cons.mpr ⟨rfl, by simp⟩⟩
  have hnan : ∀ id ∈ [0, 1, 2, 0], ∀ part ∈ namesakeParts id, part.holdsNan = false := by decide
  have hplain : ∀ key ∈ [0, 1, 2, 0].map fun id => keyOf (namesakeParts id),
      key.holdsDocument = false := by decide
  have hhash : ∀ a ∈ [0, 1, 2, 0], ∀ b ∈ [0, 1, 2, 0],
      (keyOf (namesakeParts a)).same (keyOf (namesakeParts b)) = true →
        (keyOf (namesakeParts a)).hash .plain = (keyOf (namesakeParts b)).hash .plain := by
    decide +kernel
  have hrun : ((Session.groupInMemory readServices readEnvironment namesakes
      [0, 1, 2, 0]).run.run namesakeSession).run.1.toOption.map
        (fun groups => groups.map (·.items)) = some [[0, 2, 0], [1]] := by decide +kernel
  obtain ⟨found, hfound, hitems⟩ := Option.map_eq_some_iff.mp hrun
  obtain ⟨groups, after, hyields, -, -, -, hpartitions, -⟩ := partitions_items hnames
    (Sql.Compiler.honest_none _ _) hselectors
    (fun id _ => Session.mapM_readFields namesakeSession.store id) hnan
  obtain ⟨rfl, -⟩ := hyields.unique (Yields.of_toOption hfound)
  exact ⟨groups, after, hyields, hitems, (hpartitions (transitiveOn_same hplain)).mpr hhash⟩

end EntitySql.Query
