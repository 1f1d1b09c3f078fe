import EntitySql.Proofs.Rows.Joined
import EntitySql.Schema.Catalogue

-- Includes from the tables to the graph: the joins of a plan and the reading
-- of their rows together put every record of the root and every record
-- related to it in its place.

namespace EntitySql

open Include (Node Plan Joined SelectedColumn keyOf related reached Shown)

section Found

variable {same : Value → Value → Bool} {keys targets : List Value}
  (hmem : ∀ key, key ∈ keys ↔ key ∈ targets) (hnodup : targets.Nodup)
  (hsame : ∀ a ∈ targets, ∀ b ∈ targets, same a b = true ↔ a = b)
include hmem hnodup hsame

-- Keys without repetitions are the first of any list that has them as its
-- members.
theorem firstKeys_perm : (firstKeys same keys).Perm targets := by
  have hfirst : ∀ key, key ∈ firstKeys same keys ↔ key ∈ targets := fun key => by
    rw [← hmem, mem_firstKeys_iff fun a ha b hb => (hsame a ((hmem a).mp ha) b ((hmem b).mp hb)).mp]
  refine (List.perm_ext_iff_of_nodup ?_ hnodup).mpr hfirst
  refine (pairwise_firstKeys same keys).imp_of_mem fun {a b} ha hb hdiffer heq => ?_
  rw [(hsame b ((hfirst b).mp hb) a ((hfirst a).mp ha)).mpr heq.symm] at hdiffer
  cases hdiffer

theorem held_perm {n : Node} (hone : ¬n.isCollection → targets.length ≤ 1) :
    (n.held same keys).Perm targets := by
  rw [Node.held]
  split
  · exact firstKeys_perm hmem hnodup hsame
  · next hreference =>
    have hlength := hone hreference
    cases targets with
    | nil =>
      have hnone : keys = [] := List.eq_nil_iff_forall_not_mem.mpr fun key hkey => by
        simpa using (hmem key).mp hkey
      rw [hnone]
      exact List.Perm.nil
    | cons target rest =>
      obtain rfl : rest = [] := List.eq_nil_of_length_eq_zero (by simpa using hlength)
      have hall : ∀ key ∈ keys, key = target := fun key hkey => by simpa using (hmem key).mp hkey
      have hne : keys ≠ [] := by
        rintro rfl
        simpa using (hmem target).mpr (List.mem_singleton_self target)
      have hlast : keys.getLast? = some target := by
        rw [List.getLast?_eq_some_getLast hne, hall _ (List.getLast_mem hne)]
      rw [hlast]
      exact List.Perm.refl _

end Found

namespace Materializer.Joins

variable (hashes : HashFunctions) {registry : Registry} {db : Database} {p : Plan}
  {typeName : SelectedColumn → Text} {rows page : List Joined} {chain : List Node} {n : Node}
  {r : Record}

-- Related records are records of the target without repetitions.
theorem nodup_related (h : Joins registry db p typeName rows) (hchain : p.Chain (chain ++ [n])) :
    ((related db n r).map (keyOf n.target)).Nodup := by
  have hnodup := h.nodup_keys hchain
  rw [Plan.entityAt_append_singleton] at hnodup
  exact hnodup.sublist ((List.filter_sublist).map _)

-- A reference leads to one record at most.
theorem length_related (h : Joins registry db p typeName rows) (hchain : p.Chain (chain ++ [n]))
    (hreference : ¬n.isCollection) : (related db n r).length ≤ 1 := by
  have hnodup := h.nodup_related hchain (r := r)
  have hall : ∀ a ∈ related db n r, ∀ b ∈ related db n r, a = b := by
    intro a ha b hb
    obtain ⟨ha_mem, ha_eq⟩ := List.mem_filter.mp ha
    obtain ⟨hb_mem, hb_eq⟩ := List.mem_filter.mp hb
    cases hrelationship : n.navigation.relationship with
    | reference column =>
      simp only [hrelationship, Value.equals, Bool.and_eq_true] at ha_eq hb_eq
      have ha_table : a ∈ db (p.entityAt (chain ++ [n])).table := by
        rw [Plan.entityAt_append_singleton]
        exact ha_mem
      have hb_table : b ∈ db (p.entityAt (chain ++ [n])).table := by
        rw [Plan.entityAt_append_singleton]
        exact hb_mem
      refine List.inj_on_of_nodup_map (h.nodup_keys hchain) ha_table hb_table ?_
      have ha_kind := h.key_kind hchain ha_table
      have hb_kind := h.key_kind hchain hb_table
      rw [Plan.entityAt_append_singleton] at ha_kind hb_kind ⊢
      rcases ha_kind with ⟨x, hx⟩ | ⟨x, hx⟩ <;> rcases hb_kind with ⟨y, hy⟩ | ⟨y, hy⟩ <;>
        cases hcell : r.cell column <;> simp_all [Value.same]
    | collection column => exact absurd (by simp [Node.isCollection, Navigation.isCollection, hrelationship]) hreference
    | manyToMany junction a b => exact absurd (by simp [Node.isCollection, Navigation.isCollection, hrelationship]) hreference
  have hnodup := hnodup.of_map
  generalize related db n r = found at hnodup hall ⊢
  by_contra hmany
  obtain ⟨a, b, rest, rfl⟩ : ∃ a b rest, found = a :: b :: rest := by
    rcases found with _ | ⟨a, _ | ⟨b, rest⟩⟩
    · exact absurd (Nat.zero_le 1) hmany
    · exact absurd (Nat.le_refl 1) hmany
    · exact ⟨a, b, rest, rfl⟩
  have hab := hall a (by simp) b (by simp)
  rw [hab] at hnodup
  simp at hnodup

theorem sameKey_keys (h : Joins registry db p typeName rows) (hchain : p.Chain chain) :
    ∀ a ∈ (db (p.entityAt chain).table).map (keyOf (p.entityAt chain)),
      ∀ b ∈ (db (p.entityAt chain).table).map (keyOf (p.entityAt chain)),
        a.sameKey hashes b = true ↔ a = b := by
  intro a ha b hb
  obtain ⟨r, hr, rfl⟩ := List.mem_map.mp ha
  obtain ⟨other, hother, rfl⟩ := List.mem_map.mp hb
  rw [h.sameKey_iff hashes hchain hr hother]
  constructor
  · rintro rfl
    rfl
  · exact List.inj_on_of_nodup_map (h.nodup_keys hchain) hr hother

-- The links of an instance are the related records, each once.
theorem held_keysUnder (h : Joins registry db p typeName rows) (hchain : p.Chain (chain ++ [n]))
    (hr : r ∈ reached db p.root chain) :
    (n.held (Value.sameKey hashes)
      ((ofPlan hashes p).keysUnder (Value.sameKey hashes) (p.resultSet typeName rows).columns
        (rowsFrom 0 (p.resultSet typeName rows).rows) chain n (keyOf (p.entityAt chain) r))).Perm
          ((related db n r).map (keyOf n.target)) := by
  have htable : ∀ key ∈ (related db n r).map (keyOf n.target),
      key ∈ (db (p.entityAt (chain ++ [n])).table).map (keyOf (p.entityAt (chain ++ [n]))) := by
    intro key hkey
    obtain ⟨other, hother, rfl⟩ := List.mem_map.mp hkey
    rw [Plan.entityAt_append_singleton]
    exact List.mem_map_of_mem (List.mem_filter.mp hother).1
  refine held_perm (h.mem_keysUnder hashes hchain hr) (h.nodup_related hchain) ?_ ?_
  · intro a ha b hb
    exact h.sameKey_keys hashes hchain a (htable a ha) b (htable b hb)
  · intro hreference
    rw [List.length_map]
    exact h.length_related hchain hreference

-- The roots are the records of the root, each once.
theorem firstKeys_roots (h : Joins registry db p typeName rows) :
    (firstKeys (Value.sameKey hashes) ((ofPlan hashes p).chainKeys (p.resultSet typeName rows).columns
      (rowsFrom 0 (p.resultSet typeName rows).rows) [])).Perm
        ((db (p.entityAt []).table).map (keyOf (p.entityAt []))) := by
  have hchain : p.Chain [] := trivial
  refine firstKeys_perm (fun key => ?_) (h.nodup_keys hchain) (h.sameKey_keys hashes hchain)
  rw [mem_chainKeys, List.mem_map]
  constructor
  · rintro ⟨row, hrow, hkey⟩
    obtain ⟨joined, hjoined, hcells⟩ := exists_joined hrow
    rw [h.chainKey?_eq hashes hchain hjoined hcells, Option.map_eq_some_iff] at hkey
    obtain ⟨r, hr, rfl⟩ := hkey
    exact ⟨r, h.mem_table hchain hjoined hr, rfl⟩
  · rintro ⟨r, hr, rfl⟩
    rw [Plan.entityAt_nil] at hr
    obtain ⟨joined, hjoined, hrecord⟩ := h.sound.recordAt_root.mp hr
    have hshown : Shown rows [] r := ⟨joined, h.rows.mem_iff.mpr hjoined, hrecord⟩
    exact mem_chainKeys.mp (h.mem_chainKeys_page hashes (List.Subset.refl _) hchain hshown)

-- A row in which a record is found by its key gives an instance with the
-- values of the record.
theorem readInstance_page (h : Joins registry db p typeName rows) (hpage : page ⊆ rows)
    (hchain : p.Chain chain) (hshown : Shown page chain r) {row : Row}
    (hrow : (rowsFrom 0 (p.resultSet typeName page).rows).find?
      ((ofPlan hashes p).shows (Value.sameKey hashes) (p.resultSet typeName page).columns chain
        (keyOf (p.entityAt chain) r)) = some row) : ∃ i,
    row.readInstance {} ((ofPlan hashes p).binding (p.resultSet typeName page).columns chain) = .ok i ∧
      i.type = (p.entityAt chain).type ∧
      i.values = (p.entityAt chain).fields.map fun f => (f.property, f.stored (r.cell f.column)) := by
  have htable := h.mem_table_of_shown hpage hchain hshown
  obtain ⟨joined, hjoined, hcells⟩ := exists_joined (List.mem_of_find?_eq_some hrow)
  have hrecord := (h.recordAt_of_shows hashes hchain (hpage hjoined) hcells htable).mp
    (List.find?_some hrow)
  have hbinds := h.binds hashes hchain hcells
  rw [hrecord] at hbinds
  obtain ⟨hregular, hfits, -⟩ := h.fits hchain htable
  exact hbinds.readInstance hregular hfits

end Materializer.Joins

theorem Catalogue.joinable : Catalogue.registry.Joinable where
  separate := by
    intro e he
    have hcolumns : ∀ e ∈ Catalogue.registry.entities,
        e.fields.Pairwise fun f g => Text.sameFolded f.column g.column = false := by decide
    have hunaliased : ∀ e ∈ Catalogue.registry.entities, ∀ f ∈ e.fields,
        (f.column[1]?).all (fun c => !Byte.isDigit c) = true := by decide
    exact ⟨hcolumns e he, hunaliased e he⟩
  regular := by
    intro e he
    have hproperties : ∀ e ∈ Catalogue.registry.entities, (e.fields.map Field.property).Nodup := by
      decide
    have hrefines : ∀ e ∈ Catalogue.registry.entities, ∀ f ∈ e.fields,
        Entity.refines f.member.fieldType f.type = true := by decide
    have hkey : ∀ e ∈ Catalogue.registry.entities, ∀ f ∈ e.primaryKey?,
        f.member = .int64 ∨ f.member = .uuid := by decide
    exact ⟨hproperties e he, hrefines e he, hkey e he⟩
  keyed := by
    intro e he n hn target htarget hkeys
    have hall : ∀ e ∈ Catalogue.registry.entities, ∀ n ∈ e.navigations,
        ((Catalogue.registry.get n.target).toOption.all fun target =>
          !(Plan.checkKeys e target n).isOk || target.primaryKey?.isSome) = true := by decide
    have hthis := hall e he n hn
    rw [htarget] at hthis
    simpa [Except.toOption, hkeys, Except.isOk, Except.toBool] using hthis

namespace Materializer

-- The rows of a plan, in whatever order they come, are read without error.
-- There is one instance for each record of the root, and every record that a
-- chain of includes reaches stands as one instance in the graph: it has the
-- values of the record and is linked, for every include below, to the
-- instances of the related records, each once.
theorem read_joined (hashes : HashFunctions) {root : Entity}
    (hroot : root ∈ Catalogue.registry.entities) (hkey : root.primaryKey?.isSome) {depth : Int}
    {paths : List Text} {p : Plan} (hplan : Plan.ofPaths Catalogue.registry depth root paths = .ok p)
    {db : Database} (htables : db.WellFormed Catalogue.registry) {typeName : SelectedColumn → Text}
    (htypes : p.Typed typeName) {rows : List Joined} (hrows : rows.Perm (p.joined db)) {s : State}
    (hfresh : s.memory = {}) (hs : s.cancelled = false) :
    ∃ (ids : List InstanceId) (t : State) (stands : List Node → Record → InstanceId),
      Yields ((ofPlan hashes p).read (p.resultSet typeName rows)) s ids t ∧
      ids.Perm ((db root.table).map (stands [])) ∧
      (∀ chain, p.Chain chain → ∀ r ∈ reached db root chain, ∃ i,
        t.store.get? (stands chain r) = some i ∧ i.type = (p.entityAt chain).type ∧
        i.values = (p.entityAt chain).fields.map (fun f => (f.property, f.stored (r.cell f.column))) ∧
        ∀ n, p.Chain (chain ++ [n]) →
          (i.linked n.navigation).Perm ((related db n r).map (stands (chain ++ [n]))) ∧
          (¬n.isCollection → (related db n r).length ≤ 1)) ∧
      ∀ chain other, p.Chain chain → p.Chain other → ∀ r ∈ reached db root chain,
        ∀ r' ∈ reached db root other, stands chain r = stands other r' → chain = other ∧ r = r' := by
  obtain ⟨hsound, rfl⟩ := Plan.sound_ofPaths hplan
  have h : Joins Catalogue.registry db p typeName rows :=
    ⟨Catalogue.joinable, hsound, hroot, hkey, htables, htypes, hrows⟩
  have hall : rows ⊆ rows := List.Subset.refl _
  obtain ⟨ids, t, hrun⟩ := h.exists_run hashes hs
  obtain ⟨place, hout⟩ :=
    outcome_of_read rfl (h.reads hashes) (h.transitiveOn_keysIn hashes hall) hfresh hrun
  have hshows : ∀ {chain r}, p.Chain chain → r ∈ reached db p.root chain →
      keyOf (p.entityAt chain) r ∈ (ofPlan hashes p).chainKeys (p.resultSet typeName rows).columns
        (rowsFrom 0 (p.resultSet typeName rows).rows) chain := fun hchain hr =>
    h.mem_chainKeys_page hashes hall hchain (h.shown_of_reached hchain hr)
  refine ⟨ids, t, fun chain r => place chain (keyOf (p.entityAt chain) r), hrun, ?_, ?_, ?_⟩
  · have hroots := (h.firstKeys_roots hashes).map (place [])
    rw [← hout.roots, List.map_map] at hroots
    exact hroots
  · intro chain hchain r hr
    obtain ⟨row, i, k, hfirst, hi, hk, hsame_type, hsame_values⟩ :=
      hout.content chain hchain _ (hshows hchain hr)
    obtain ⟨j, hread, htype, hvalues⟩ :=
      h.readInstance_page hashes hall hchain (h.shown_of_reached hchain hr) hfirst
    obtain rfl : j = k := Except.ok.inj (hread.symm.trans hk)
    refine ⟨i, hi, hsame_type.trans htype, hsame_values.trans hvalues, ?_⟩
    intro n hn
    refine ⟨?_, h.length_related hn⟩
    rw [hout.links chain n hn _ (hshows hchain hr) i hi]
    have hheld := (h.held_keysUnder hashes hn hr).map (place (chain ++ [n]))
    rw [List.map_map] at hheld
    simp only [Plan.entityAt_append_singleton]
    exact hheld
  · intro chain other hchain hother r hr r' hr' heq
    obtain ⟨rfl, hsame⟩ := (hout.apart chain other hchain hother _ (hshows hchain hr) _
      (hshows hother hr')).mp heq
    exact ⟨rfl, (h.sameKey_iff hashes hchain (Joins.mem_table_of_reached hr)
      (Joins.mem_table_of_reached hr')).mp hsame⟩

-- Two authors, one of them in a company.
def employer : Record := ⟨[("id", .int 7), ("name", .string "C")]⟩

def employed : Record := ⟨[("id", .int 1), ("name", .string "A"), ("company_id", .int 7)]⟩

def freelancer : Record := ⟨[("id", .int 2), ("name", .string "B"), ("company_id", .null)]⟩

def staffTables : Database := fun table =>
  if table = Catalogue.companyEntity.table then [employer]
  else if table = Catalogue.authorEntity.table then [employed, freelancer]
  else []

def companyNode : Node :=
  ⟨1, none, "Company", ⟨"Company", Catalogue.company, .reference "company_id"⟩, Catalogue.authorEntity,
    Catalogue.companyEntity⟩

def companyPlan : Plan := ⟨Catalogue.authorEntity, [companyNode]⟩

theorem staffTables_wellFormed : staffTables.WellFormed Catalogue.registry := by
  have hempty : ∀ e ∈ Catalogue.registry.entities,
      e ∈ [Catalogue.companyEntity, Catalogue.authorEntity] ∨ (staffTables e.table).isEmpty := by
    decide
  refine Database.wellFormed_of_filled hempty ?_ (by decide) (by decide)
  intro e he r hr f hf
  simp only [List.mem_cons, List.not_mem_nil, or_false] at he
  rcases he with rfl | rfl
  · have hrow : r = employer := List.mem_singleton.mp hr
    simp only [Catalogue.companyEntity, List.mem_cons, List.not_mem_nil, or_false] at hf
    subst hrow
    rcases hf with rfl | rfl <;> exact .inr trivial
  · have hrow : r = employed ∨ r = freelancer := List.mem_pair.mp hr
    simp only [Catalogue.authorEntity, List.mem_cons, List.not_mem_nil, or_false] at hf
    rcases hrow with rfl | rfl <;> rcases hf with rfl | rfl | rfl <;>
      first
        | exact .inl rfl
        | exact .inr trivial
        | exact .inr (.inr trivial)

theorem read_joined_staff :
    ∃ (ids : List InstanceId) (t : State) (stands : List Node → Record → InstanceId) (i : Instance),
      Yields ((ofPlan HashFunctions.plain companyPlan).read (companyPlan.resultSet (fun _ => [])
        (companyPlan.joined staffTables))) {} ids t ∧
      ids.Perm [stands [] employed, stands [] freelancer] ∧
      t.store.get? (stands [] employed) = some i ∧
      (i.linked companyNode.navigation).Perm [stands [companyNode] employer] := by
  have hroot : Catalogue.authorEntity ∈ Catalogue.registry.entities := by simp [Catalogue.registry]
  have hplan : Plan.ofPaths Catalogue.registry 5 Catalogue.authorEntity ["Company"] = .ok companyPlan := by
    rfl
  have htypes : companyPlan.Typed fun _ => [] := ⟨fun _ _ => rfl, fun _ _ _ _ => rfl⟩
  obtain ⟨ids, t, stands, hrun, hids, hinstances, -⟩ :=
    read_joined HashFunctions.plain hroot rfl hplan staffTables_wellFormed htypes (List.Perm.refl _) (s := {}) rfl rfl
  have hemployed : employed ∈ reached staffTables Catalogue.authorEntity [] := List.mem_cons_self ..
  obtain ⟨i, hi, -, -, hlinks⟩ := hinstances [] trivial employed hemployed
  have hchain : companyPlan.Chain ([] ++ [companyNode]) := ⟨List.mem_singleton_self _, rfl, trivial⟩
  exact ⟨ids, t, stands, i, hrun, hids, hi, (hlinks companyNode hchain).1⟩

end Materializer

end EntitySql
