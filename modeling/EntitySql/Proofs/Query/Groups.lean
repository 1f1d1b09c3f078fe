import EntitySql.Proofs.Query.Session
import EntitySql.Proofs.Value.FirstKeys
import EntitySql.Query.Grouping

-- Groups in memory have the different keys of their items, each where it comes
-- first, and a group has all the items of its key.

namespace EntitySql

-- The value that an instance has for a field, and its key for some fields.
def Store.valueAt (s : Store) (id : InstanceId) (f : Field) : Value :=
  ((s.get? id).map (·.value f)).getD .null

theorem Store.valueAt_eq {s : Store} {id : InstanceId} {i j : Instance} (hget : s.get? id = some j)
    (hvalues : j.values = i.values) (f : Field) : s.valueAt id f = i.value f := by
  rw [valueAt, hget, Option.map_some, Option.getD_some, Instance.value, hvalues, Instance.value]

namespace Query

def keyAt (s : Store) (fields : List Field) (id : InstanceId) : Value :=
  keyOf (fields.map (s.valueAt id))

namespace Group

-- The place of the group that an item of the key goes to.
def place? (same : Value → Value → Bool) (groups : List Group) (key : Value) : Option Nat :=
  groups.findIdx? fun g => same g.key key

variable {same : Value → Value → Bool} {key other : Value} {item : InstanceId}
variable {groups : List Group} {g : Group}

theorem isSome_place? :
    (place? same groups key).isSome = (groups.map (·.key)).any (same · key) := by
  rw [place?, List.findIdx?_isSome, List.any_map]
  rfl

theorem place?_eq (groups : List Group) (key : Value) :
    place? same groups key = (groups.map (·.key)).findIdx? (same · key) := by
  rw [place?, List.findIdx?_map]
  rfl

theorem same_of_place? {i : Nat} (h : place? same groups key = some i) (hi : groups[i]? = some g) :
    same g.key key = true := by
  obtain ⟨hlt, hsame, -⟩ := List.findIdx?_eq_some_iff_getElem.mp h
  rwa [(List.getElem?_eq_some_iff.mp hi).2] at hsame

theorem keys_add (same : Value → Value → Bool) (key : Value) (item : InstanceId)
    (groups : List Group) :
    (add same key item groups).map (·.key) =
      if (groups.map (·.key)).any (same · key) then groups.map (·.key)
      else groups.map (·.key) ++ [key] := by
  induction groups with
  | nil => rfl
  | cons g rest ih =>
    rw [add, List.map_cons, List.any_cons]
    cases hsame : same g.key key with
    | true => rfl
    | false =>
      simp only [Bool.false_eq_true, if_false, List.map_cons, ih, Bool.false_or]
      split <;> rfl

-- What has become of the group at a place: it has grown, or is as before, or is new.
theorem getElem?_add {i : Nat} (h : (add same key item groups)[i]? = some g) :
    (place? same groups key = some i ∧
        ∃ grown, groups[i]? = some grown ∧ g = ⟨grown.key, grown.items ++ [item]⟩) ∨
      (place? same groups key ≠ some i ∧ groups[i]? = some g) ∨
      (place? same groups key = none ∧ i = groups.length ∧ g = ⟨key, [item]⟩) := by
  induction groups generalizing i with
  | nil =>
    rw [add, List.getElem?_singleton] at h
    split at h
    · next hzero => exact .inr (.inr ⟨rfl, hzero, (Option.some.inj h).symm⟩)
    · cases h
  | cons first rest ih =>
    rw [add] at h
    rw [place?, List.findIdx?_cons]
    cases hsame : same first.key key with
    | true =>
      rw [if_pos hsame] at h
      rw [if_pos rfl]
      cases i with
      | zero => exact .inl ⟨rfl, first, rfl, (Option.some.inj h).symm⟩
      | succ i => exact .inr (.inl ⟨by simp, h⟩)
    | false =>
      rw [if_neg (by simp [hsame])] at h
      rw [if_neg Bool.false_ne_true]
      cases i with
      | zero =>
        refine .inr (.inl ⟨?_, h⟩)
        cases rest.findIdx? _ <;> simp
      | succ i =>
        rcases ih h with ⟨hplace, hgrown⟩ | ⟨hplace, hsame⟩ | ⟨hplace, hlength, hnew⟩
        · exact .inl ⟨congrArg (Option.map (· + 1)) hplace, hgrown⟩
        · refine .inr (.inl ⟨fun heq => hplace ?_, hsame⟩)
          obtain ⟨j, hj, hij⟩ := Option.map_eq_some_iff.mp heq
          exact hj.trans (congrArg some (Nat.succ.inj hij))
        · exact .inr (.inr ⟨congrArg (Option.map (· + 1)) hplace, congrArg Nat.succ hlength, hnew⟩)

-- Groups keep their places.
theorem place?_add_of_isSome (hknown : (place? same groups other).isSome) :
    place? same (add same key item groups) other = place? same groups other := by
  rw [place?_eq] at hknown
  rw [place?_eq, place?_eq, keys_add]
  split
  · rfl
  · rw [List.findIdx?_append, Option.or_of_isSome hknown]

theorem place?_add_self (hself : same key key = true) :
    place? same (add same key item groups) key =
      some ((place? same groups key).getD groups.length) := by
  cases hplace : place? same groups key with
  | some i =>
    rw [place?_add_of_isSome (by rw [hplace]; rfl), hplace]
    rfl
  | none =>
    have hnone : (groups.map (·.key)).any (same · key) = false := by
      rw [← isSome_place?, hplace]
      rfl
    rw [place?_eq] at hplace
    rw [place?_eq, keys_add, hnone, if_neg Bool.false_ne_true, List.findIdx?_append, hplace]
    simp [hself]

-- No item is lost.
theorem exists_add_of_mem (key : Value) (item : InstanceId) (hg : g ∈ groups) :
    ∃ g' ∈ add same key item groups, g'.key = g.key ∧ g.items ⊆ g'.items := by
  induction groups with
  | nil => cases hg
  | cons first rest ih =>
    rw [add]
    split
    · rcases List.mem_cons.mp hg with rfl | hrest
      · exact ⟨_, List.mem_cons_self .., rfl, List.subset_append_left ..⟩
      · exact ⟨g, List.mem_cons_of_mem _ hrest, rfl, List.Subset.refl _⟩
    · rcases List.mem_cons.mp hg with rfl | hrest
      · exact ⟨g, List.mem_cons_self .., rfl, List.Subset.refl _⟩
      · obtain ⟨g', hg', hkey, hitems⟩ := ih hrest
        exact ⟨g', List.mem_cons_of_mem _ hg', hkey, hitems⟩

theorem exists_add_self (hself : same key key = true) (item : InstanceId) (groups : List Group) :
    ∃ g ∈ add same key item groups, same g.key key = true ∧ item ∈ g.items := by
  induction groups with
  | nil => exact ⟨_, List.mem_cons_self .., hself, List.mem_cons_self ..⟩
  | cons first rest ih =>
    rw [add]
    split
    · next hsame =>
      exact ⟨_, List.mem_cons_self .., hsame, List.mem_append_right _ (List.mem_cons_self ..)⟩
    · obtain ⟨g, hg, hfound⟩ := ih
      exact ⟨g, List.mem_cons_of_mem _ hg, hfound⟩

end Group

-- The groups of a list of items with their keys. A key that is not the same as
-- itself contains a NaN, and makes a group of its own every time.
structure Grouped (same : Value → Value → Bool) (entries : List (Value × InstanceId))
    (groups : List Group) : Prop where
  keys : groups.map (·.key) = firstKeys same (entries.map (·.1))
  heads : ∀ g ∈ groups, ∃ e ∈ entries, g.items.head? = some e.2 ∧ g.key = e.1
  placed : ∀ e ∈ entries, same e.1 e.1 = true →
    ∃ g ∈ groups, same g.key e.1 = true ∧ e.2 ∈ g.items
  items : (∀ e ∈ entries, same e.1 e.1 = true) → ∀ i g, groups[i]? = some g →
    g.items = (entries.filter fun e => Group.place? same groups e.1 = some i).map (·.2)

namespace Grouped

variable {same : Value → Value → Bool} {entries : List (Value × InstanceId)} {groups : List Group}
variable {key : Value} {item : InstanceId}

theorem nil : Grouped same [] [] := ⟨rfl, by simp, by simp, by simp⟩

theorem pairwise (h : Grouped same entries groups) :
    groups.Pairwise fun a b => same b.key a.key = false :=
  List.pairwise_map.mp (h.keys ▸ pairwise_firstKeys same _)

theorem isSome_place? (h : Grouped same entries groups) {e : Value × InstanceId}
    (he : e ∈ entries) (hself : same e.1 e.1 = true) : (Group.place? same groups e.1).isSome := by
  obtain ⟨g, hg, hsame, -⟩ := h.placed e he hself
  rw [Group.isSome_place?, List.any_map]
  exact List.any_eq_true.mpr ⟨g, hg, hsame⟩

-- One item more.
theorem add (hcomm : ∀ a b, same a b = same b a) (h : Grouped same entries groups) (key : Value)
    (item : InstanceId) : Grouped same (entries ++ [(key, item)]) (Group.add same key item groups) := by
  constructor
  case keys =>
    rw [Group.keys_add, h.keys, List.map_append, List.map_singleton, firstKeys_append_singleton hcomm]
  case heads =>
    intro g hg
    obtain ⟨i, hi⟩ := List.mem_iff_getElem?.mp hg
    rcases Group.getElem?_add hi with ⟨-, grown, hgrown, rfl⟩ | ⟨-, hsame⟩ | ⟨-, -, rfl⟩
    · obtain ⟨e, he, hhead, hkey⟩ := h.heads grown (List.mem_of_getElem? hgrown)
      exact ⟨e, List.mem_append_left _ he, by rw [List.head?_append, hhead]; rfl, hkey⟩
    · obtain ⟨e, he, hfirst⟩ := h.heads g (List.mem_of_getElem? hsame)
      exact ⟨e, List.mem_append_left _ he, hfirst⟩
    · exact ⟨(key, item), List.mem_append_right _ (List.mem_cons_self ..), rfl, rfl⟩
  case placed =>
    refine List.forall_mem_append.mpr ⟨fun e he hself => ?_, ?_⟩
    · obtain ⟨g, hg, hsame, hitem⟩ := h.placed e he hself
      obtain ⟨g', hg', hkey, hitems⟩ := Group.exists_add_of_mem key item hg
      exact ⟨g', hg', hkey ▸ hsame, hitems hitem⟩
    · rw [List.forall_mem_singleton]
      exact fun hself => Group.exists_add_self hself item groups
  case items =>
    intro hproper i g hi
    obtain ⟨hentries, hself⟩ := List.forall_mem_append.mp hproper
    rw [List.forall_mem_singleton] at hself
    -- The items so far have their places, and keep them.
    have hold : entries.filter (fun e =>
        Group.place? same (Group.add same key item groups) e.1 = some i) =
          entries.filter fun e => Group.place? same groups e.1 = some i :=
      List.filter_congr fun e he => by
        rw [Group.place?_add_of_isSome (h.isSome_place? he (hentries e he))]
    rw [List.filter_append, List.map_append, hold, List.filter_singleton, Group.place?_add_self hself]
    rcases Group.getElem?_add hi with
      ⟨hplace, grown, hgrown, rfl⟩ | ⟨hplace, hsame⟩ | ⟨hplace, rfl, rfl⟩
    · rw [h.items hentries i grown hgrown, hplace]
      simp
    · have hother : (Group.place? same groups key).getD groups.length ≠ i := by
        cases hfound : Group.place? same groups key with
        | some j => exact fun heq => hplace (by rw [hfound, ← heq]; rfl)
        | none => exact fun heq => absurd (List.getElem?_eq_some_iff.mp hsame).1 (heq ▸ Nat.lt_irrefl _)
      rw [h.items hentries i g hsame]
      simp [hother]
    · have hnone : entries.filter (fun e => Group.place? same groups e.1 = some groups.length) = [] := by
        refine List.filter_eq_nil_iff.mpr fun e he heq => ?_
        have hlt := (List.findIdx?_eq_some_iff_getElem.mp (of_decide_eq_true heq)).1
        exact absurd hlt (Nat.lt_irrefl _)
      rw [hnone, hplace]
      simp

-- Item by item.
theorem foldl (hcomm : ∀ a b, same a b = same b a) (h : Grouped same entries groups)
    (key : InstanceId → Value) (items : List InstanceId) :
    Grouped same (entries ++ items.map fun id => (key id, id))
      (items.foldl (fun groups id => Group.add same (key id) id groups) groups) := by
  induction items generalizing entries groups with
  | nil => simpa using h
  | cons id rest ih => simpa using ih (h.add hcomm (key id) id)

end Grouped

-- Group keys that are members of the row itself, and the fields that they read.
def Plan.KeyedBy (p : Plan) : List Field → Prop :=
  List.Forall₂ (fun key f => ∃ id owner parameter name,
    key = .member id (.parameter owner ⟨parameter, p.root.type, false⟩) name ∧
      p.root.property? name = some f) p.clauses.groupKeys

theorem Plan.KeyedBy.groupFields {p : Plan} {fields : List Field} (h : p.KeyedBy fields) :
    p.groupFields = fields.map some := by
  rw [Plan.groupFields]
  unfold KeyedBy at h
  generalize p.clauses.groupKeys = keys at h
  induction h with
  | nil => rfl
  | cons hkey _ ih =>
    obtain ⟨id, owner, parameter, name, rfl, hf⟩ := hkey
    rw [List.map_cons, List.map_cons, ih, Plan.keyField?, if_neg (by simp), hf]

theorem accessor_member {registry : Registry} {e : Entity} (he : registry.find? e.type = some e)
    {f : Field} {name : Text} (hf : e.property? name = some f) (id owner : NodeId)
    (parameter : Text) :
    Eval.accessor registry (.member id (.parameter owner ⟨parameter, e.type, false⟩) name) =
      .ok (Eval.readField f (·.entity)) := by
  rw [Eval.accessor, Eval.path?, if_neg (by simp), Registry.get, he]
  simp only [Except.map, bind, Except.bind, hf]
  rfl

-- The selectors of a plan read its fields of the entity in the scope.
theorem Plan.KeyedBy.selectors_eq {p : Plan} {fields : List Field} (h : p.KeyedBy fields)
    {registry : Registry} (hroot : registry.find? p.root.type = some p.root)
    {selectors : List Accessor}
    (hselectors : List.Forall₂ (fun key a => Eval.accessor registry key = .ok a)
      p.clauses.groupKeys selectors) :
    selectors = fields.map fun f => Eval.readField f (·.entity) := by
  unfold KeyedBy at h
  generalize p.clauses.groupKeys = keys at h hselectors
  induction h generalizing selectors with
  | nil =>
    cases hselectors
    rfl
  | cons hkey _ ih =>
    obtain ⟨id, owner, parameter, name, rfl, hf⟩ := hkey
    cases hselectors with | cons ha hrest =>
    rw [accessor_member hroot hf] at ha
    rw [List.map_cons, ih hrest, Except.ok.inj ha]

namespace Session

open Sql.Compiler (Naming Honest)

variable {s : Services} {env : Environment} {p : Plan} {names : Naming} {fields : List Field}
variable {before after : Session}

theorem yields_accessor (hcache : Honest names s.registry before.cache) {key : Expr}
    (hkey : names key.id = some key) {a : Accessor}
    (h : Yields (accessor s env p key) before a after) :
    Eval.accessor s.registry key = .ok a ∧ Recached names s.registry before after := by
  obtain ⟨⟨found, bindings⟩, middle, hcompile, h⟩ := Yields.bind_iff.mp h
  obtain ⟨rfl, rfl⟩ := Yields.pure_iff.mp h
  obtain ⟨state, haccessor, -, rfl⟩ := yields_compile hcompile
  obtain ⟨ha, cache, hcache', rfl⟩ := Sql.Compiler.accessor_of_yields hcache hkey haccessor
  exact ⟨ha, cache, hcache', rfl⟩

theorem mapM_readFields (store : Store) (id : InstanceId) :
    (fields.map fun f => Eval.readField f (·.entity)).mapM
      (· { captures := env.captures, store, entity := some id }) =
        (.ok (fields.map (store.valueAt id)) : Result _) := by
  rw [List.mapM_map]
  exact List.mapM_pure

-- Keys that can be read are all that it takes to group items.
theorem foldlM_groupItem {selectors : List Accessor} {store : Store} {items : List InstanceId}
    {parts : InstanceId → List Value}
    (hparts : ∀ id ∈ items, selectors.mapM
      (· { captures := env.captures, store, entity := some id }) = .ok (parts id))
    (groups : List Group) :
    items.foldlM (groupItem env selectors store) groups =
      .ok (items.foldl (fun groups id =>
        Group.add (Value.sameKey env.hashes) (keyOf (parts id)) id groups) groups) := by
  induction items generalizing groups with
  | nil => rfl
  | cons id rest ih =>
    obtain ⟨hid, hrest⟩ := List.forall_mem_cons.mp hparts
    have hitem : groupItem env selectors store groups id =
        .ok (Group.add (Value.sameKey env.hashes) (keyOf (parts id)) id groups) := by
      rw [groupItem, hid]
      rfl
    rw [List.foldlM_cons, hitem]
    exact ih hrest _

-- Grouping in memory touches nothing but the cache.
theorem yields_groupInMemory (hroot : s.registry.find? p.root.type = some p.root)
    (hkeys : p.KeyedBy fields) (hnames : ∀ key ∈ p.clauses.groupKeys, names key.id = some key)
    (hcache : Honest names s.registry before.cache) {items : List InstanceId} {groups : List Group}
    (h : Yields (groupInMemory s env p items) before groups after) :
    Grouped (Value.sameKey env.hashes)
        (items.map fun id => (keyAt before.store fields id, id)) groups ∧
      Recached names s.registry before after := by
  obtain ⟨selectors, middle, hselectors, h⟩ := Yields.bind_iff.mp h
  obtain ⟨haccessors, hrecached⟩ := Yields.forall₂_of_mapM_keeping
    (R := fun key a => Eval.accessor s.registry key = .ok a)
    (I := Recached names s.registry before)
    (fun key hkey _ _ _ hs ha =>
      have ⟨hread, ht⟩ := yields_accessor hs.honest (hnames key hkey) ha
      ⟨hread, hs.trans ht⟩) (.refl hcache) hselectors
  rw [Yields.get_bind_iff, hkeys.selectors_eq hroot haccessors] at h
  obtain ⟨hfold, rfl⟩ := Yields.lift_iff.mp h
  have hstore : after.store = before.store := by
    obtain ⟨cache, -, rfl⟩ := hrecached
    rfl
  rw [hstore, foldlM_groupItem fun id _ => mapM_readFields before.store id] at hfold
  cases hfold
  exact ⟨Grouped.nil.foldl (Value.sameKey_comm env.hashes) (keyAt before.store fields) items,
    hrecached⟩

end Session

end Query

end EntitySql
