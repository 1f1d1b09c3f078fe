import EntitySql.Proofs.Include.FanOut
import EntitySql.Proofs.Rows.Includes
import Mathlib.Data.List.Perm.Subperm

-- Pages of joined rows. Of a page there is one instance for every record that
-- it shows, linked to what it shows below the record. A record of the root is
-- complete if the page has all of its rows.

namespace EntitySql

open Include (Node Plan Joined SelectedColumn keyOf related reachedFrom Shown ShownBelow)

namespace Materializer

-- An instance with the values of a record.
structure Portrays (e : Entity) (r : Record) (i : Instance) : Prop where
  type : i.type = e.type
  values : i.values = e.fields.map fun f => (f.property, f.stored (r.cell f.column))

-- The store has one instance for every record that the page shows at the end
-- of a chain. Its links are the related records that the page shows below it,
-- each once.
structure Mirrors (db : Database) (p : Plan) (page : List Joined) (store : Store)
    (stands : List Node → Record → InstanceId) : Prop where
  instances : ∀ chain, p.Chain chain → ∀ r, Shown page chain r → ∃ i,
    store.get? (stands chain r) = some i ∧ Portrays (p.entityAt chain) r i ∧
    ∀ n, p.Chain (chain ++ [n]) → ∃ found : List Record, found.Sublist (related db n r) ∧
      (∀ other, other ∈ found ↔ ShownBelow page chain n r other) ∧
      (i.linked n.navigation).Perm (found.map (stands (chain ++ [n])))
  apart : ∀ chain other, p.Chain chain → p.Chain other → ∀ r r', Shown page chain r →
    Shown page other r' → stands chain r = stands other r' → chain = other ∧ r = r'

-- All that the includes lead to from a record of the root is in the store,
-- and is linked to all that it is related to.
def Complete (db : Database) (p : Plan) (store : Store) (stands : List Node → Record → InstanceId)
    (r : Record) : Prop :=
  ∀ chain, p.Chain chain → ∀ other ∈ reachedFrom db chain r, ∃ i,
    store.get? (stands chain other) = some i ∧ Portrays (p.entityAt chain) other i ∧
    ∀ n, p.Chain (chain ++ [n]) →
      (i.linked n.navigation).Perm ((related db n other).map (stands (chain ++ [n])))

namespace Joins

variable (hashes : HashFunctions) {registry : Registry} {db : Database} {p : Plan}
  {typeName : SelectedColumn → Text} {rows page : List Joined} {chain : List Node} {n : Node}
  {r : Record}

theorem mem_joined_of_mem_joinedFrom {joined : Joined} (hr : r ∈ db p.root.table)
    (hjoined : joined ∈ p.joinedFrom db r) : joined ∈ p.joined db := by
  rw [Plan.joined_eq_flatMap]
  exact List.mem_flatMap.mpr ⟨r, hr, hjoined⟩

-- The links below a record that a page shows.
theorem held_page (h : Joins registry db p typeName rows) (hpage : page ⊆ rows)
    (hchain : p.Chain (chain ++ [n])) (hr : r ∈ db (p.entityAt chain).table) :
    ∃ found : List Record, found.Sublist (related db n r) ∧
      (∀ other, other ∈ found ↔ ShownBelow page chain n r other) ∧
      (n.held (Value.sameKey hashes)
        ((ofPlan hashes p).keysUnder (Value.sameKey hashes) (p.resultSet typeName page).columns
          (rowsFrom 0 (p.resultSet typeName page).rows) chain n (keyOf (p.entityAt chain) r))).Perm
            (found.map (keyOf n.target)) := by
  classical
  have hmem : ∀ other, other ∈ (related db n r).filter (ShownBelow page chain n r ·) ↔
      ShownBelow page chain n r other := by
    intro other
    rw [List.mem_filter, decide_eq_true_iff, and_iff_right_iff_imp]
    exact h.related_of_shownBelow hpage hchain
  have hsublist : ((related db n r).filter (ShownBelow page chain n r ·)).Sublist
      (related db n r) := List.filter_sublist
  have hnodup := (h.nodup_related hchain).sublist (hsublist.map (keyOf n.target))
  refine ⟨_, hsublist, hmem, held_perm (fun key => ?_) hnodup (fun a ha b hb => ?_)
    fun hreference => ?_⟩
  · rw [h.mem_keysUnder_page hashes hpage hchain hr, List.mem_map]
    exact exists_congr fun other => and_congr_left fun _ => (hmem other).symm
  · have htable : ∀ key, key ∈ ((related db n r).filter (ShownBelow page chain n r ·)).map
        (keyOf n.target) →
        key ∈ (db (p.entityAt (chain ++ [n])).table).map (keyOf (p.entityAt (chain ++ [n]))) := by
      intro key hkey
      obtain ⟨other, hother, rfl⟩ := List.mem_map.mp hkey
      rw [Plan.entityAt_append_singleton]
      exact List.mem_map_of_mem (List.mem_filter.mp (hsublist.subset hother)).1
    exact h.sameKey_keys hashes hchain a (htable a ha) b (htable b hb)
  · rw [List.length_map]
    exact Nat.le_trans hsublist.length_le (h.length_related hchain hreference)

theorem chainKeys_page (h : Joins registry db p typeName rows) (hpage : page ⊆ rows)
    (hchain : p.Chain chain) (index : Nat) :
    (ofPlan hashes p).chainKeys (p.resultSet typeName page).columns
        (rowsFrom index (p.resultSet typeName page).rows) chain =
      (page.filterMap (·.recordAt chain)).map (keyOf (p.entityAt chain)) := by
  induction page generalizing index with
  | nil => rfl
  | cons joined rest ih =>
    obtain ⟨hjoined, hrest⟩ := List.cons_subset.mp hpage
    have hrows : rowsFrom index (p.resultSet typeName (joined :: rest)).rows =
        ⟨index, (Include.projection p).map fun c => joined.value c.column⟩ ::
          rowsFrom (index + 1) (p.resultSet typeName rest).rows := rfl
    have hkey : (ofPlan hashes p).chainKey? (p.resultSet typeName (joined :: rest)).columns
        ⟨index, (Include.projection p).map fun c => joined.value c.column⟩ chain =
          (joined.recordAt chain).map (keyOf (p.entityAt chain)) :=
      h.chainKey?_eq hashes hchain hjoined rfl
    have hothers := ih hrest (index + 1)
    rw [chainKeys, hrows, List.filterMap_cons, hkey, List.filterMap_cons]
    cases joined.recordAt chain with
    | none => exact hothers
    | some r => exact congrArg (keyOf (p.entityAt chain) r :: ·) hothers

-- The roots of a page are the records of the root that it shows, in the order
-- of its rows and each once.
theorem firstKeys_page (h : Joins registry db p typeName rows) (hpage : page ⊆ rows) :
    ∃ firsts : List Record, firsts.Sublist (page.filterMap (·.recordAt [])) ∧ firsts.Nodup ∧
      (∀ r, r ∈ firsts ↔ Shown page [] r) ∧
      firstKeys (Value.sameKey hashes) ((ofPlan hashes p).chainKeys
        (p.resultSet typeName page).columns (rowsFrom 0 (p.resultSet typeName page).rows) []) =
          firsts.map (keyOf (p.entityAt [])) := by
  have hchain : p.Chain [] := trivial
  rw [h.chainKeys_page hashes hpage hchain]
  obtain ⟨firsts, hsublist, hkeys⟩ := List.sublist_map_iff.mp
    (firstKeys_sublist (Value.sameKey hashes) ((page.filterMap (·.recordAt [])).map (keyOf (p.entityAt []))))
  have hshown : ∀ r, r ∈ page.filterMap (·.recordAt []) ↔ Shown page [] r := fun r =>
    List.mem_filterMap
  have htable : ∀ r, Shown page [] r → r ∈ db (p.entityAt []).table := fun r =>
    h.mem_table_of_shown hpage hchain
  have hequal : ∀ a ∈ (page.filterMap (·.recordAt [])).map (keyOf (p.entityAt [])),
      ∀ b ∈ (page.filterMap (·.recordAt [])).map (keyOf (p.entityAt [])),
        a.sameKey hashes b = true → a = b := by
    intro a ha b hb
    obtain ⟨r, hr, rfl⟩ := List.mem_map.mp ha
    obtain ⟨other, hother, rfl⟩ := List.mem_map.mp hb
    exact (h.sameKey_keys hashes hchain _ (List.mem_map_of_mem (htable r ((hshown r).mp hr))) _
      (List.mem_map_of_mem (htable other ((hshown other).mp hother)))).mp
  refine ⟨firsts, hsublist, ?_,
    fun r => ⟨fun hr => (hshown r).mp (hsublist.subset hr), fun hr => ?_⟩, hkeys⟩
  · have hdiffer := pairwise_firstKeys (Value.sameKey hashes)
      ((page.filterMap (·.recordAt [])).map (keyOf (p.entityAt [])))
    rw [hkeys, List.pairwise_map] at hdiffer
    refine hdiffer.imp_of_mem fun {a b} ha hb hkey heq => ?_
    have ha := htable a ((hshown a).mp (hsublist.subset ha))
    have hb := htable b ((hshown b).mp (hsublist.subset hb))
    rw [(h.sameKey_iff hashes hchain hb ha).mpr heq.symm] at hkey
    cases hkey
  · have hkey : keyOf (p.entityAt []) r ∈
        (page.filterMap (·.recordAt [])).map (keyOf (p.entityAt [])) :=
      List.mem_map_of_mem ((hshown r).mpr hr)
    have hkept := (mem_firstKeys_iff hequal).mpr hkey
    rw [hkeys] at hkept
    obtain ⟨first, hfirst, heq⟩ := List.mem_map.mp hkept
    have hfirst_table := htable first ((hshown first).mp (hsublist.subset hfirst))
    exact List.inj_on_of_nodup_map (h.nodup_keys hchain) hfirst_table (htable r hr) heq ▸ hfirst

-- A page is read without error.
theorem read_page (h : Joins registry db p typeName rows) (hpage : page ⊆ rows) {s : State}
    (hfresh : s.memory = {}) (hs : s.cancelled = false) :
    ∃ (ids : List InstanceId) (t : State) (stands : List Node → Record → InstanceId)
        (firsts : List Record),
      Yields ((ofPlan hashes p).read (p.resultSet typeName page)) s ids t ∧
      Mirrors db p page t.store stands ∧ ids = firsts.map (stands []) ∧
      firsts.Sublist (page.filterMap (·.recordAt [])) ∧ firsts.Nodup ∧
      ∀ r, r ∈ firsts ↔ Shown page [] r := by
  obtain ⟨ids, t, hrun⟩ := h.exists_run_page hashes hpage hs
  obtain ⟨place, hout⟩ :=
    outcome_of_read rfl (h.reads_page hashes hpage) (h.transitiveOn_keysIn hashes hpage) hfresh hrun
  obtain ⟨firsts, hsublist, hnodup, hmem, hkeys⟩ := h.firstKeys_page hashes hpage
  refine ⟨ids, t, fun chain r => place chain (keyOf (p.entityAt chain) r), firsts, hrun,
    ⟨?_, ?_⟩, ?_, hsublist, hnodup, hmem⟩
  · intro chain hchain r hr
    have htable := h.mem_table_of_shown hpage hchain hr
    have hkey := h.mem_chainKeys_page hashes hpage hchain hr
    obtain ⟨row, i, k, hfirst, hi, hk, hsame_type, hsame_values⟩ := hout.content chain hchain _ hkey
    obtain ⟨j, hread, htype, hvalues⟩ := h.readInstance_page hashes hpage hchain hr hfirst
    obtain rfl : j = k := Except.ok.inj (hread.symm.trans hk)
    refine ⟨i, hi, ⟨hsame_type.trans htype, hsame_values.trans hvalues⟩, fun n hn => ?_⟩
    obtain ⟨found, hfound, hshown, hheld⟩ := h.held_page hashes hpage hn htable
    refine ⟨found, hfound, hshown, ?_⟩
    rw [hout.links chain n hn _ hkey i hi]
    have hplaces := hheld.map (place (chain ++ [n]))
    rw [List.map_map] at hplaces
    simp only [Plan.entityAt_append_singleton]
    exact hplaces
  · intro chain other hchain hother r r' hr hr' heq
    have htable := h.mem_table_of_shown hpage hchain hr
    have htable' := h.mem_table_of_shown hpage hother hr'
    obtain ⟨rfl, hsame⟩ := (hout.apart chain other hchain hother _
      (h.mem_chainKeys_page hashes hpage hchain hr) _
      (h.mem_chainKeys_page hashes hpage hother hr')).mp heq
    exact ⟨rfl, (h.sameKey_iff hashes hchain htable htable').mp hsame⟩
  · rw [hout.roots, hkeys, List.map_map]
    rfl

-- Where a page has all rows of a record of the root, the record is complete.
theorem complete_of_rows (h : Joins registry db p typeName rows) {store : Store}
    {stands : List Node → Record → InstanceId} (hmirrors : Mirrors db p page store stands)
    (hrows : p.joinedFrom db r ⊆ page) : Complete db p store stands r := by
  intro chain hchain other hother
  obtain ⟨row, hrow, hat⟩ := (h.sound.mem_reachedFrom_iff hchain).mp hother
  obtain ⟨i, hi, hportrays, hlinks⟩ :=
    hmirrors.instances chain hchain other ⟨row, hrows hrow, hat⟩
  refine ⟨i, hi, hportrays, fun n hn => ?_⟩
  obtain ⟨found, hsublist, hfound, hlinked⟩ := hlinks n hn
  obtain ⟨-, hnode, hparent⟩ := Plan.chain_append_singleton.mp hn
  have hall : related db n other ⊆ found := by
    intro target htarget
    rw [(Plan.recordAt_append_singleton row hparent).1] at hat
    obtain ⟨row', hrow', hup, hself⟩ := h.sound.joinAll_of_related hnode hrow hat htarget
    obtain ⟨hat_up, hat_self⟩ := Plan.recordAt_append_singleton row' hparent
    exact (hfound target).mpr ⟨row', hrows hrow', hat_up.trans hup, hat_self.trans hself⟩
  have hnodup : (related db n other).Nodup := (h.nodup_related hn).of_map
  rw [← hsublist.eq_of_length_le (List.Nodup.subperm hnodup hall).length_le]
  exact hlinked

-- Of a record with one row a page shows all rows if it shows the record.
theorem joinedFrom_subset_of_single (h : Joins registry db p typeName rows) (hpage : page ⊆ rows)
    (hone : p.fanOut db r = 1) (hshown : Shown page [] r) : p.joinedFrom db r ⊆ page := by
  obtain ⟨joined, hjoined, hat⟩ := hshown
  have hmem := h.rows.mem_iff.mp (hpage hjoined)
  rw [Plan.joined_eq_flatMap] at hmem
  obtain ⟨root, -, hfrom⟩ := List.mem_flatMap.mp hmem
  have hroot := h.sound.recordAt_joinedFrom hfrom
  rw [hat, Option.some.injEq] at hroot
  subst hroot
  obtain ⟨only, honly⟩ := List.length_eq_one_iff.mp hone
  rw [honly] at hfrom ⊢
  exact List.cons_subset.mpr ⟨List.mem_singleton.mp hfrom ▸ hjoined, List.nil_subset _⟩

-- References alone do not multiply the rows of the root.
theorem fanOut_of_references (h : Joins registry db p typeName rows)
    (hreferences : ∀ n ∈ p.nodes, ¬n.isCollection) (r : Record) : p.fanOut db r = 1 := by
  refine h.sound.fanOut_eq_one fun n hn => ?_
  obtain ⟨chain, hchain⟩ := exists_chain h.sound hn
  have hreference := hreferences n hn
  cases hrelationship : n.navigation.relationship with
  | reference column =>
    refine ⟨⟨n.target.table, n.aliasName, (n.parentAlias, column), (n.aliasName,
      Include.keyColumn n.target)⟩, ?_, fun mid => h.length_related hchain hreference⟩
    rw [Include.joinsOf, hrelationship]
  | collection column =>
    exact absurd (by simp [Node.isCollection, Navigation.isCollection, hrelationship]) hreference
  | manyToMany junction source target =>
    exact absurd (by simp [Node.isCollection, Navigation.isCollection, hrelationship]) hreference

-- The records of the root in an order that tells any two of them apart, and
-- the joined rows in the order of the records behind the root.
structure Ordered (db : Database) (p : Plan) (le : Record → Record → Prop) (roots : List Record)
    (rows : List Joined) : Prop where
  perm : roots.Perm (db p.root.table)
  refl : ∀ a, le a a
  antisymm : ∀ a ∈ roots, ∀ b ∈ roots, le a b → le b a → a = b
  rootsSorted : roots.Pairwise le
  rowsSorted : rows.Pairwise fun j k => ∀ a ∈ j.recordAt [], ∀ b ∈ k.recordAt [], le a b

namespace Ordered

variable {le : Record → Record → Prop} {roots firsts : List Record}

theorem nodup (ho : Ordered db p le roots rows) (h : Joins registry db p typeName rows) :
    roots.Nodup := by
  have hchain : p.Chain [] := trivial
  exact (List.Perm.nodup_iff ho.perm).mpr (h.nodup_keys hchain).of_map

theorem sorted_copies (ho : Ordered db p le roots rows) :
    (roots.flatMap fun r => List.replicate (p.fanOut db r) r).Pairwise le := by
  rw [List.pairwise_flatMap]
  constructor
  · intro r _
    exact List.pairwise_replicate.mpr (.inr (ho.refl r))
  · refine ho.rootsSorted.imp fun {a b} hab x hx y hy => ?_
    rw [List.eq_of_mem_replicate hx, List.eq_of_mem_replicate hy]
    exact hab

-- The rows hold every record of the root as often as it fans out, in the
-- order of the records.
theorem map_recordAt (ho : Ordered db p le roots rows) (h : Joins registry db p typeName rows) :
    rows.map (·.recordAt []) =
      (roots.flatMap fun r => List.replicate (p.fanOut db r) r).map some := by
  have hperm : (rows.map (·.recordAt [])).Perm
      ((roots.flatMap fun r => List.replicate (p.fanOut db r) r).map some) := by
    have hrows := h.rows.map (·.recordAt [])
    rw [h.sound.map_recordAt_joined] at hrows
    exact hrows.trans ((ho.perm.symm.flatMap_right _).map some)
  have hmem : ∀ r, some r ∈ rows.map (·.recordAt []) → r ∈ roots := by
    intro r hr
    obtain ⟨r', hr', heq⟩ := List.mem_map.mp (hperm.mem_iff.mp hr)
    obtain ⟨root, hroot, hcopy⟩ := List.mem_flatMap.mp hr'
    rw [← Option.some.inj heq, List.eq_of_mem_replicate hcopy]
    exact hroot
  have hsorted : (rows.map (·.recordAt [])).Pairwise fun x y => ∀ a ∈ x, ∀ b ∈ y, le a b :=
    List.pairwise_map.mpr ho.rowsSorted
  have hcopies : ((roots.flatMap fun r => List.replicate (p.fanOut db r) r).map some).Pairwise
      fun x y => ∀ a ∈ x, ∀ b ∈ y, le a b := by
    refine List.pairwise_map.mpr (ho.sorted_copies.imp ?_)
    rintro _ _ hle _ ⟨⟩ _ ⟨⟩
    exact hle
  refine List.Perm.eq_of_pairwise (fun x y hx hy hle hge => ?_) hsorted hcopies hperm
  obtain ⟨a, -, rfl⟩ := List.mem_map.mp (hperm.mem_iff.mp hx)
  obtain ⟨b, -, rfl⟩ := List.mem_map.mp hy
  exact congrArg some (ho.antisymm a (hmem a hx) b (hmem b (hperm.mem_iff.mpr hy)) (hle a rfl b rfl)
    (hge b rfl a rfl))

-- Records in the order of the roots stand among them in that order.
theorem sublist (ho : Ordered db p le roots rows) (h : Joins registry db p typeName rows)
    (hnodup : firsts.Nodup) (hsorted : firsts.Pairwise le) (hsubset : firsts ⊆ roots) :
    firsts.Sublist roots := by
  classical
  have hfilter : (roots.filter (· ∈ firsts)).Sublist roots := List.filter_sublist
  have hperm : firsts.Perm (roots.filter (· ∈ firsts)) := by
    refine (List.perm_ext_iff_of_nodup hnodup ((ho.nodup h).sublist hfilter)).mpr fun r => ?_
    rw [List.mem_filter, decide_eq_true_iff, iff_and_self]
    exact fun hr => hsubset hr
  have hsame : firsts = roots.filter (· ∈ firsts) :=
    List.Perm.eq_of_pairwise (fun a b ha hb => ho.antisymm a (hsubset ha) b (hfilter.subset hb))
      hsorted (ho.rootsSorted.sublist hfilter) hperm
  exact hsame ▸ hfilter

theorem eq_of_mem_iff (ho : Ordered db p le roots rows) (h : Joins registry db p typeName rows)
    (hfirsts : firsts.Sublist roots) {others : List Record} (hothers : others.Sublist roots)
    (hmem : ∀ r, r ∈ firsts ↔ r ∈ others) : firsts = others := by
  have hnodup := ho.nodup h
  have hperm : firsts.Perm others :=
    (List.perm_ext_iff_of_nodup (hnodup.sublist hfirsts) (hnodup.sublist hothers)).mpr hmem
  exact List.Perm.eq_of_pairwise
    (fun a b ha hb => ho.antisymm a (hfirsts.subset ha) b (hothers.subset hb))
    (ho.rootsSorted.sublist hfirsts) (ho.rootsSorted.sublist hothers) hperm

-- The rows of a record stand together: between rows of records before it and
-- behind it a page has them all.
theorem joinedFrom_subset (ho : Ordered db p le roots rows) (h : Joins registry db p typeName rows)
    {before after : List Joined} (hsplit : rows = before ++ page ++ after) (hr : r ∈ roots)
    {a b : Record} (ha : a ∈ roots) (hb : b ∈ roots) (hshown_a : Shown page [] a)
    (hshown_b : Shown page [] b) (hle_a : le a r) (hne_a : a ≠ r) (hle_b : le r b)
    (hne_b : r ≠ b) : p.joinedFrom db r ⊆ page := by
  intro joined hjoined
  have hat := h.sound.recordAt_joinedFrom hjoined
  have hmem : joined ∈ rows :=
    h.rows.mem_iff.mpr (mem_joined_of_mem_joinedFrom (ho.perm.mem_iff.mp hr) hjoined)
  have hsorted := ho.rowsSorted
  rw [hsplit] at hmem hsorted
  rw [List.pairwise_append, List.pairwise_append] at hsorted
  obtain ⟨⟨-, -, hbefore⟩, -, hafter⟩ := hsorted
  rw [List.mem_append, List.mem_append] at hmem
  rcases hmem with (hmem | hmem) | hmem
  · obtain ⟨row, hrow, hat_a⟩ := hshown_a
    exact absurd (ho.antisymm a ha r hr hle_a (hbefore joined hmem row hrow r hat a hat_a)) hne_a
  · exact hmem
  · obtain ⟨row, hrow, hat_b⟩ := hshown_b
    have hback := hafter row (List.mem_append_right _ hrow) joined hmem b hat_b r hat
    exact absurd (ho.antisymm r hr b hb hle_b hback) hne_b

-- A page of ordered rows gives records in the order of the roots. All but the
-- first and the last are complete.
theorem read_page (ho : Ordered db p le roots rows) (h : Joins registry db p typeName rows)
    {before after : List Joined} (hsplit : rows = before ++ page ++ after) {s : State}
    (hfresh : s.memory = {}) (hs : s.cancelled = false) :
    ∃ (ids : List InstanceId) (t : State) (stands : List Node → Record → InstanceId)
        (found : List Record),
      Yields ((ofPlan hashes p).read (p.resultSet typeName page)) s ids t ∧
      Mirrors db p page t.store stands ∧ ids = found.map (stands []) ∧ found.Sublist roots ∧
      (∀ r, r ∈ found ↔ Shown page [] r) ∧
      ∀ earlier r later, found = earlier ++ r :: later → earlier ≠ [] → later ≠ [] →
        Complete db p t.store stands r := by
  have hpage : page ⊆ rows := by
    rw [hsplit]
    exact fun joined hjoined => List.mem_append_left _ (List.mem_append_right _ hjoined)
  obtain ⟨ids, t, stands, found, hrun, hmirrors, hids, hrecords, hnodup, hmem⟩ :=
    h.read_page hashes hpage hfresh hs
  have hroots : found ⊆ roots := fun r hr => by
    have hchain : p.Chain [] := trivial
    exact ho.perm.mem_iff.mpr (h.mem_table_of_shown hpage hchain ((hmem r).mp hr))
  have hsorted : found.Pairwise le := by
    have hrows := ho.rowsSorted
    rw [hsplit, List.pairwise_append, List.pairwise_append] at hrows
    exact (List.pairwise_filterMap.mpr (hrows.1.2.1.imp fun hle a ha b hb => hle a ha b hb)).sublist
      hrecords
  have hsublist := ho.sublist h hnodup hsorted hroots
  refine ⟨ids, t, stands, found, hrun, hmirrors, hids, hsublist, hmem, ?_⟩
  intro earlier r later hfound hearlier hlater
  obtain ⟨a, ha⟩ := List.exists_mem_of_ne_nil _ hearlier
  obtain ⟨b, hb⟩ := List.exists_mem_of_ne_nil _ hlater
  have ha_found : a ∈ found := hfound ▸ List.mem_append_left _ ha
  have hb_found : b ∈ found := hfound ▸ List.mem_append_right _ (List.mem_cons_of_mem r hb)
  have hr_found : r ∈ found := hfound ▸ List.mem_append_right _ (List.mem_cons_self ..)
  rw [hfound, List.nodup_append, List.nodup_cons] at hnodup
  rw [hfound, List.pairwise_append, List.pairwise_cons] at hsorted
  refine h.complete_of_rows hmirrors (ho.joinedFrom_subset h hsplit (hroots hr_found)
    (hroots ha_found) (hroots hb_found) ((hmem a).mp ha_found) ((hmem b).mp hb_found) ?_ ?_ ?_ ?_)
  · exact hsorted.2.2 a ha r (List.mem_cons_self ..)
  · exact hnodup.2.2 a ha r (List.mem_cons_self ..)
  · exact hsorted.2.1.1 b hb
  · rintro rfl
    exact hnodup.2.1.1 hb

end Ordered

end Joins

end Materializer

end EntitySql
