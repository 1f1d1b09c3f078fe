import EntitySql.Proofs.Query.KeyRows
import EntitySql.Proofs.Value.Hash

-- Grouped queries with a HAVING predicate, from their two statements to their
-- groups. The database says which keys qualify, and of the groups in memory
-- those are kept that have one of these keys.

namespace EntitySql.Query

open Materializer (rowsFrom)

-- The entity that is read from the row has the key.
def EntityRow (converter : Conversion.Converter) (root : Entity) (fields : List Field)
    (set : ResultSet) (row : Row) (key : Value) : Prop :=
  ∃ i, row.readInstance converter (.bind set.columns root none) = .ok i ∧
    key = keyOf (fields.map i.value)

-- Groups of the entities of a result.
structure GroupedRows (hashes : HashFunctions) (converter : Conversion.Converter) (root : Entity)
    (fields : List Field) (set : ResultSet) (rows : List Row)
    (entries : List (Value × InstanceId)) (groups : List Group) : Prop where
  sublist : rows.Sublist (rowsFrom 0 set.rows)
  keys : List.Forall₂ (fun row e => EntityRow converter root fields set row e.1) rows entries
  grouped : Grouped (Value.sameKey hashes) entries groups

-- The groups that have a key of a list. Keys are looked up as a table does it.
def Group.withKeys (hashes : HashFunctions) (keys : List Value) (groups : List Group) :
    List Group :=
  groups.filter fun g => (firstKeys (Value.sameKey hashes) keys).any (·.sameKey hashes g.key)

-- The groups that are kept, for the keys of one result and the entities of another.
structure Kept (hashes : HashFunctions) (converter : Conversion.Converter) (root : Entity)
    (fields : List Field) (keySet entitySet : ResultSet) (keys : List Value) (rows : List Row)
    (entries : List (Value × InstanceId)) (groups found : List Group) : Prop where
  qualifying : List.Forall₂ (KeyRow converter fields keySet) (rowsFrom 0 keySet.rows) keys
  grouped : GroupedRows hashes converter root fields entitySet rows entries groups
  kept : found = Group.withKeys hashes keys groups
  -- What is found has the key of a key row, and the other way round if the test sorts
  -- the keys into classes.
  sound : ∀ g ∈ found, ∃ key ∈ keys, key.sameKey hashes g.key = true
  complete : TransitiveOn (keys ++ entries.map (·.1)) (Value.sameKey hashes) →
    ∀ g ∈ groups, (∃ key ∈ keys, key.sameKey hashes g.key = true) → g ∈ found
  -- Rows with the cells of a key row have its key, and their entities are found.
  cells : ∀ k ∈ (rowsFrom 0 keySet.rows).zip keys, ∀ r ∈ rows.zip entries,
    SameCells (.bind entitySet.columns root none) r.1 fields keySet.columns k.1.cells →
      r.2.1 = k.2 ∧ (TransitiveOn (keys ++ entries.map (·.1)) (Value.sameKey hashes) →
        k.2.holdsNan = false → ∃ g ∈ found, r.2.2 ∈ g.items)
  -- Groups without documents in their keys are found by equality.
  equal : hashes.RespectsDoubles → ∀ g ∈ groups, g.key.holdsDocument = false →
    (g ∈ found ↔ ∃ key ∈ keys, key.same g.key = true)
  -- So are all groups if equality sorts the keys into classes and equal keys hash alike.
  alike : TransitiveOn (keys ++ entries.map (·.1)) Value.same →
    (∀ key ∈ keys, ∀ g ∈ groups, key.same g.key = true → key.hash hashes = g.key.hash hashes) →
      ∀ g ∈ groups, (g ∈ found ↔ ∃ key ∈ keys, key.same g.key = true)

theorem keyAt_of_holds {m : Materializer} {columns : List Column} {store : Store} {id : InstanceId}
    {row : Row} {fields : List Field} (h : m.Holds columns store id row) :
    ∃ i, row.readInstance m.converter (m.rootBinding columns) = .ok i ∧
      keyAt store fields id = keyOf (fields.map i.value) := by
  obtain ⟨i, j, hread, hget, hvalues⟩ := h
  have hall : ∀ f ∈ fields, store.valueAt id f = i.value f :=
    fun f _ => Store.valueAt_eq hget hvalues f
  exact ⟨i, hread, congrArg keyOf (List.map_congr_left hall)⟩

section

variable {hashes : HashFunctions} {converter : Conversion.Converter} {root : Entity}
variable {fields : List Field} {keySet entitySet : ResultSet} {keys : List Value}
variable {rows : List Row} {entries : List (Value × InstanceId)} {groups : List Group} {g : Group}

theorem key_eq_of_sameCells (hconverter : converter.fallback.KeepsDoubles)
    (hproperties : (root.fields.map Field.property).Nodup)
    (hrefines : ∀ f ∈ root.fields, Entity.refines f.member.fieldType f.type = true)
    {keyRow row : Row} {key key' : Value} (hkey : KeyRow converter fields keySet keyRow key)
    (hkey' : EntityRow converter root fields entitySet row key')
    (hsame : SameCells (.bind entitySet.columns root none) row fields keySet.columns keyRow.cells) :
    key' = key := by
  obtain ⟨r, hr, rfl⟩ := hkey
  obtain ⟨parts, hparts, hr⟩ := Result.bind_eq_ok.mp hr
  cases hr
  obtain ⟨i, hread, rfl⟩ := hkey'
  rw [values_of_sameCells hconverter hproperties hrefines hread hsame hparts]

namespace Group

theorem exists_key_of_mem_withKeys (h : g ∈ withKeys hashes keys groups) :
    ∃ key ∈ keys, key.sameKey hashes g.key = true := by
  obtain ⟨key, hkey, hsame⟩ := List.any_eq_true.mp (List.mem_filter.mp h).2
  exact ⟨key, mem_of_mem_firstKeys hkey, hsame⟩

theorem mem_withKeys (hg : g ∈ groups)
    (htrans : ∀ a ∈ keys, ∀ b ∈ keys, a.sameKey hashes b = true → b.sameKey hashes g.key = true →
      a.sameKey hashes g.key = true)
    (h : ∃ key ∈ keys, key.sameKey hashes g.key = true) : g ∈ withKeys hashes keys groups := by
  refine List.mem_filter.mpr ⟨hg, ?_⟩
  rw [any_firstKeys (Value.sameKey_comm hashes) htrans]
  exact List.any_eq_true.mpr h

theorem mem_withKeys_of_plain (hf : hashes.RespectsDoubles) (hg : g ∈ groups)
    (hplain : g.key.holdsDocument = false) :
    g ∈ withKeys hashes keys groups ↔ ∃ key ∈ keys, key.same g.key = true := by
  rw [withKeys, List.mem_filter, any_firstKeys_of_plain hashes keys hplain, List.any_eq_true]
  simp only [Value.sameKey_eq_same_of_plain hf hplain, hg, true_and]

end Group

theorem GroupedRows.key_mem
    (h : GroupedRows hashes converter root fields entitySet rows entries groups) (hg : g ∈ groups) :
    g.key ∈ keys ++ entries.map (·.1) := by
  obtain ⟨e, he, -, hkey⟩ := h.grouped.heads g hg
  exact List.mem_append_right keys (hkey ▸ List.mem_map_of_mem he)

theorem GroupedRows.mem_withKeys
    (h : GroupedRows hashes converter root fields entitySet rows entries groups)
    (htrans : TransitiveOn (keys ++ entries.map (·.1)) (Value.sameKey hashes)) (hg : g ∈ groups)
    (hkey : ∃ key ∈ keys, key.sameKey hashes g.key = true) : g ∈ Group.withKeys hashes keys groups :=
  Group.mem_withKeys hg (fun a ha b hb => htrans a (List.mem_append_left _ ha) b
    (List.mem_append_left _ hb) g.key (h.key_mem hg)) hkey

theorem GroupedRows.kept (hconverter : converter.fallback.KeepsDoubles)
    (hproperties : (root.fields.map Field.property).Nodup)
    (hrefines : ∀ f ∈ root.fields, Entity.refines f.member.fieldType f.type = true)
    (h : GroupedRows hashes converter root fields entitySet rows entries groups)
    (hkeys : List.Forall₂ (KeyRow converter fields keySet) (rowsFrom 0 keySet.rows) keys) :
    Kept hashes converter root fields keySet entitySet keys rows entries groups
      (Group.withKeys hashes keys groups) := by
  constructor
  case qualifying => exact hkeys
  case grouped => exact h
  case kept => rfl
  case sound => exact fun g hg => Group.exists_key_of_mem_withKeys hg
  case complete => exact fun htrans g hg hkey => h.mem_withKeys htrans hg hkey
  case cells =>
    rintro ⟨keyRow, key⟩ hk ⟨row, key', id⟩ hr hsame
    obtain rfl : key' = key := key_eq_of_sameCells hconverter hproperties hrefines
      (List.forall₂_zip hkeys hk) (List.forall₂_zip h.keys hr) hsame
    refine ⟨rfl, fun htrans hnan => ?_⟩
    have hself : key'.sameKey hashes key' = true := by
      rw [Value.sameKey_self, hnan]
      rfl
    obtain ⟨g, hg, hkey, hmem⟩ := h.grouped.placed _ (List.of_mem_zip hr).2 hself
    rw [Value.sameKey_comm] at hkey
    exact ⟨g, h.mem_withKeys htrans hg ⟨key', (List.of_mem_zip hk).2, hkey⟩, hmem⟩
  case equal => exact fun hf g hg hplain => Group.mem_withKeys_of_plain hf hg hplain
  case alike =>
    intro htrans hhash g hg
    constructor
    · intro hfound
      obtain ⟨key, hkey, hsame⟩ := Group.exists_key_of_mem_withKeys hfound
      exact ⟨key, hkey, (Value.sameKey_iff.mp hsame).2⟩
    · rintro ⟨key, hkey, hsame⟩
      exact h.mem_withKeys (htrans.sameKey hashes) hg
        ⟨key, hkey, Value.sameKey_iff.mpr ⟨hhash key hkey g hg hsame, hsame⟩⟩

end

theorem Plan.Named.key {p : Plan} {names : Sql.Compiler.Naming} (h : p.Named names) {key : Expr}
    (hkey : key ∈ p.clauses.groupKeys) : names key.id = some key := by
  have hself : p ∈ p.nested := by
    cases p
    exact List.mem_cons_self ..
  exact (h p hself).groupKeys key hkey key (Expr.mem_nodes_self key)

namespace Session

open Sql.Compiler (Naming Honest)

variable {s : Services} {env : Environment} {p : Plan} {names : Naming} {fields : List Field}
variable {converter : Conversion.Converter} {before after : Session}

theorem yields_fetchGroupRows {r : Rendered} {fields : List (Option Field)} {rows : List GroupRow}
    (h : Yields (fetchGroupRows converter r fields) before rows after) :
    after.cache = before.cache ∧ after.store = before.store ∧ ∃ set, Took r set before after ∧
      List.Forall₂ (fun row r => GroupRow.read converter fields set row.index row.cells = .ok r)
        (rowsFrom 0 set.rows) rows := by
  obtain ⟨set, middle, hreader, h⟩ := Yields.bind_iff.mp h
  obtain ⟨⟨hresults, hcommands⟩, hcache, hstore⟩ := yields_runReader hreader
  obtain ⟨-, h⟩ := Yields.guard_iff.mp h
  rw [Yields.get_bind_iff] at h
  cases hrun : (GroupRow.readAll converter fields set 0 set.rows).run
      middle.connection.cancelled with
  | mk result cancelled =>
    simp only [hrun, changeConnection] at h
    rw [Yields.modify_bind_iff] at h
    obtain ⟨rfl, rfl⟩ := Yields.lift_iff.mp h
    exact ⟨hcache, hstore, set, ⟨hresults, hcommands⟩, GroupRow.forall₂_readAll hrun⟩

theorem yields_qualifyingKeys (hconverter : s.converter = some converter)
    (hkeys : p.KeyedBy fields) (hp : p.Named names) (hcache : Honest names s.registry before.cache)
    {keys : List Value} (h : Yields (qualifyingKeys s env p) before keys after) :
    Honest names s.registry after.cache ∧ after.store = before.store ∧
      ∃ r set, Took r set before after ∧
        List.Forall₂ (KeyRow converter fields set) (rowsFrom 0 set.rows) keys := by
  obtain ⟨_, hrequire, h⟩ := Yields.lift_bind_iff.mp h
  rw [requireConverter, hconverter] at hrequire
  cases hrequire
  obtain ⟨r, middle, hrows, h⟩ := Yields.bind_iff.mp h
  obtain ⟨cache, hhonest, rfl⟩ := recached_rows hp hcache rfl hrows
  obtain ⟨rows, last, hfetch, h⟩ := Yields.bind_iff.mp h
  obtain ⟨rfl, rfl⟩ := Yields.pure_iff.mp h
  rw [hkeys.groupFields] at hfetch
  obtain ⟨hcache', hstore, set, ⟨hresults, hcommands⟩, hall⟩ := yields_fetchGroupRows hfetch
  refine ⟨hcache' ▸ hhonest, hstore, r, set, ⟨hresults, hcommands⟩, ?_⟩
  exact List.forall₂_map_right_iff.mpr (hall.imp fun row found hfound => ⟨found, hfound, rfl⟩)

theorem yields_fetchGroups (hconverter : s.converter = some converter)
    (hroot : s.registry.find? p.root.type = some p.root) (hkeys : p.KeyedBy fields)
    (hp : p.Named names) (hcache : Honest names s.registry before.cache) {groups : List Group}
    (h : Yields (fetchGroups s env p) before groups after) :
    ∃ r set rows entries, Took r set before after ∧
      GroupedRows env.hashes converter p.root fields set rows entries groups := by
  obtain ⟨ids, middle, hfetch, h⟩ := Yields.bind_iff.mp h
  obtain ⟨_, hrequire, hfetch⟩ := Yields.lift_bind_iff.mp hfetch
  rw [requireConverter, hconverter] at hrequire
  cases hrequire
  obtain ⟨r, last, hrows, hfetch⟩ := Yields.bind_iff.mp hfetch
  obtain ⟨cache, hhonest, rfl⟩ := recached_rows hp hcache rfl hrows
  obtain ⟨hcache', set, rows, ⟨hresults, hcommands⟩, hsublist, hholds⟩ := yields_materialize hfetch
  have hnames : ∀ key ∈ p.clauses.groupKeys, names key.id = some key :=
    fun key hkey => hp.key hkey
  have hmiddle : Honest names s.registry middle.cache := hcache' ▸ hhonest
  obtain ⟨hgrouped, _, -, rfl⟩ := yields_groupInMemory hroot hkeys hnames hmiddle h
  refine ⟨r, set, rows, _, ⟨hresults, hcommands⟩, hsublist, ?_, hgrouped⟩
  exact List.forall₂_map_right_iff.mpr (hholds.flip.imp fun row id hid => keyAt_of_holds hid)

theorem groupKeys_of_qualifyingKeys (hhaving : p.hasHaving = true) {keys : List Value}
    (h : Yields (qualifyingKeys s env p) before keys after) : p.clauses.groupKeys ≠ [] := by
  obtain ⟨_, -, h⟩ := Yields.lift_bind_iff.mp h
  obtain ⟨r, middle, hrows, -⟩ := Yields.bind_iff.mp h
  obtain ⟨q, includes, state, hselect, -, -⟩ := yields_rows hrows
  cases p with
  | mk clauses conditions operations =>
    rw [select] at hselect
    obtain ⟨hgrouped, -⟩ := Yields.guard_iff.mp hselect
    rw [Plan.hasHaving] at hhaving
    simpa [hhaving] using hgrouped

-- The keys decide whether the entities are fetched, and which groups are kept.
theorem yields_groups_iff (hhaving : p.hasHaving = true) {found : List Group} :
    Yields (groups s env p) before found after ↔
      ∃ keys middle, Yields (qualifyingKeys s env p) before keys middle ∧
        ((keys = [] ∧ found = [] ∧ after = middle) ∨
          (keys ≠ [] ∧ ∃ all, Yields (fetchGroups s env p) middle all after ∧
            found = Group.withKeys env.hashes keys all)) := by
  unfold groups
  rw [hhaving]
  constructor
  · intro h
    obtain ⟨-, h⟩ := Yields.guard_iff.mp h
    obtain ⟨keys, middle, hqualifying, h⟩ := Yields.bind_iff.mp h
    refine ⟨keys, middle, hqualifying, ?_⟩
    obtain ⟨hnone, h⟩ | ⟨hsome, h⟩ := Yields.ite_iff.mp h
    · obtain ⟨rfl, rfl⟩ := Yields.pure_iff.mp h
      exact .inl ⟨by simpa using hnone, rfl, rfl⟩
    · obtain ⟨all, last, hfetch, h⟩ := Yields.bind_iff.mp h
      obtain ⟨rfl, rfl⟩ := Yields.pure_iff.mp h
      exact .inr ⟨by simpa using hsome, all, hfetch, rfl⟩
  · rintro ⟨keys, middle, hqualifying, hrest⟩
    have hkeys := groupKeys_of_qualifyingKeys hhaving hqualifying
    refine Yields.ite_iff.mpr (.inr ⟨by simpa using hkeys, ?_⟩)
    refine Yields.bind_iff.mpr ⟨keys, middle, hqualifying, ?_⟩
    rcases hrest with ⟨rfl, rfl, rfl⟩ | ⟨hsome, all, hfetch, rfl⟩
    · exact Yields.pure_iff.mpr ⟨rfl, rfl⟩
    · refine Yields.ite_iff.mpr (.inr ⟨by simpa using hsome, ?_⟩)
      exact Yields.bind_iff.mpr ⟨all, after, hfetch, Yields.pure_iff.mpr ⟨rfl, rfl⟩⟩

-- How a grouped query ends. If no key qualifies, nothing more is asked for.
inductive Answer (s : Services) (env : Environment) (p : Plan) (converter : Conversion.Converter)
    (fields : List Field) (before : Session) : List Group → Session → Prop where
  | empty {r : Rendered} {keySet : ResultSet} {after : Session} (took : Took r keySet before after)
      (none : keySet.rows = []) : Answer s env p converter fields before [] after
  | kept {r r' : Rendered} {keySet entitySet : ResultSet} {middle after : Session}
      {keys : List Value} {rows : List Row} {entries : List (Value × InstanceId)}
      {groups found : List Group} (took : Took r keySet before middle) (nonempty : keySet.rows ≠ [])
      (fetched : Yields (fetchGroups s env p) middle groups after)
      (took' : Took r' entitySet middle after)
      (kept : Kept env.hashes converter p.root fields keySet entitySet keys rows entries groups found) :
      Answer s env p converter fields before found after

theorem answer_of_groups (hconverter : s.converter = some converter)
    (hdoubles : converter.fallback.KeepsDoubles)
    (hroot : s.registry.find? p.root.type = some p.root) (hkeys : p.KeyedBy fields)
    (hproperties : (p.root.fields.map Field.property).Nodup)
    (hrefines : ∀ f ∈ p.root.fields, Entity.refines f.member.fieldType f.type = true)
    (hp : p.Named names) (hhaving : p.hasHaving = true)
    (hcache : Honest names s.registry before.cache) {found : List Group}
    (h : Yields (groups s env p) before found after) :
    Answer s env p converter fields before found after := by
  obtain ⟨keys, middle, hqualifying, hrest⟩ := (yields_groups_iff hhaving).mp h
  obtain ⟨hhonest, -, r, keySet, htook, hall⟩ :=
    yields_qualifyingKeys hconverter hkeys hp hcache hqualifying
  have hlength : keySet.rows.length = keys.length := by
    have hrows := hall.length_eq
    simpa [rowsFrom] using hrows
  rcases hrest with ⟨rfl, rfl, rfl⟩ | ⟨hsome, all, hfetch, rfl⟩
  · exact .empty htook (List.length_eq_zero_iff.mp hlength)
  · obtain ⟨r', entitySet, rows, entries, htook', hgrouped⟩ :=
      yields_fetchGroups hconverter hroot hkeys hp hhonest hfetch
    have hrows : keySet.rows ≠ [] := by
      intro hnone
      rw [hnone] at hlength
      exact hsome (List.length_eq_zero_iff.mp hlength.symm)
    exact .kept htook hrows hfetch htook' (hgrouped.kept hdoubles hproperties hrefines hall)

end Session

-- HAVING predicates are left to the database and the groups are made in memory,
-- and both agree on the keys: on their fields, on the value of every cell, and on
-- the groups that are kept.
theorem keys_agree {s : Services} {env : Environment} {p : Plan} {fields : List Field}
    {names : Sql.Compiler.Naming} {converter : Conversion.Converter}
    (hconverter : s.converter = some converter) (hdoubles : converter.fallback.KeepsDoubles)
    (hroot : s.registry.find? p.root.type = some p.root) (hkeys : p.KeyedBy fields)
    (hproperties : (p.root.fields.map Field.property).Nodup)
    (hrefines : ∀ f ∈ p.root.fields, Entity.refines f.member.fieldType f.type = true)
    (hp : p.Named names) (hhaving : p.hasHaving = true) :
    (p.groupFields = fields.map some ∧
      ∀ before q includes after,
        Yields (select s env { keysOnly := true } p) before (q, includes) after →
          q.parts.projections = fields.map fun f => .groupKey (.column none f.column)) ∧
    (∀ key f, (key, f) ∈ p.clauses.groupKeys.zip fields →
      ∃ a, Eval.accessor s.registry key = .ok a ∧
        ∀ index column v value columns row i,
          GroupRow.readCell converter index column (some f) v = .ok value →
          Delivers (.bind columns p.root none) row f column v →
          row.readInstance converter (.bind columns p.root none) = .ok i →
          ∀ captures store id j, store.get? id = some j → j.values = i.values →
            a { captures, store, entity := some id } = .ok value) ∧
    ∀ before, Sql.Compiler.Honest names s.registry before.cache →
      (∀ found after, Yields (Session.groups s env p) before found after →
        Session.Answer s env p converter fields before found after) ∧
      ∀ keys middle, Yields (Session.qualifyingKeys s env p) before keys middle →
        (keys = [] → Yields (Session.groups s env p) before [] middle) ∧
        ∀ groups after, keys ≠ [] → Yields (Session.fetchGroups s env p) middle groups after →
          Yields (Session.groups s env p) before (Group.withKeys env.hashes keys groups) after := by
  refine ⟨⟨hkeys.groupFields, fun _ _ _ _ hselect => hkeys.projections hroot hselect⟩, ?_,
    fun before hcache => ⟨fun found after hrun => ?_, fun keys middle hqualifying => ?_⟩⟩
  · intro key f hmem
    obtain ⟨id, owner, parameter, name, rfl, hf⟩ := List.forall₂_zip hkeys hmem
    refine ⟨_, accessor_member hroot hf id owner parameter, ?_⟩
    intro index column v value columns row i hkey hdelivers hread captures store id j hget hvalues
    have hvalue : store.valueAt id f = value := (Store.valueAt_eq hget hvalues f).trans
      (value_of_delivers hdoubles hproperties hrefines hdelivers hkey hread)
    exact congrArg Except.ok hvalue
  · exact Session.answer_of_groups hconverter hdoubles hroot hkeys hproperties hrefines hp hhaving
      hcache hrun
  · refine ⟨fun hnone => ?_, fun groups after hany hfetch => ?_⟩
    · exact (Session.yields_groups_iff hhaving).mpr
        ⟨keys, middle, hqualifying, .inl ⟨hnone, rfl, rfl⟩⟩
    · exact (Session.yields_groups_iff hhaving).mpr
        ⟨keys, middle, hqualifying, .inr ⟨hany, groups, hfetch, rfl⟩⟩

-- Authors by their companies. The third author has none, and the company of the
-- second one does not qualify.

def authorsByCompany : Plan where
  clauses :=
    { root := Catalogue.authorEntity
      groupKeys := [.member 1 (.parameter 0 ⟨"a", Catalogue.author, false⟩) "CompanyId"]
      having := [.binary 5 (.compare .greater)
        (.call 3 (.parameter 2 ⟨"g", Catalogue.author, true⟩) "Count" []) (.constant 4 (.int 0))] }

def companyField : Field := Catalogue.field "CompanyId" (.optional .int64) "company_id"

def companyKeys : ResultSet := { columns := [⟨"company_id", []⟩], rows := [[.null], [.int 1]] }

def authorRows : ResultSet where
  columns := [⟨"id", []⟩, ⟨"name", []⟩, ⟨"company_id", []⟩]
  rows :=
    [[.int 1, .string "Ada", .int 1], [.int 2, .string "Bob", .int 2],
      [.int 3, .string "Cyd", .null], [.int 4, .string "Dan", .int 1]]

def authorSession : Session :=
  { connection := { results := [some companyKeys, some authorRows] } }

def companyNodes : List Expr :=
  (authorsByCompany.clauses.groupKeys ++ authorsByCompany.clauses.having).flatMap Expr.nodes

def companyNames : Sql.Compiler.Naming := fun id => companyNodes.find? (·.id = id)

theorem named_authorsByCompany : authorsByCompany.Named companyNames := by
  intro q hq
  have hq : q = authorsByCompany := by
    simpa [authorsByCompany, Plan.nested, Plan.nestedInConditions, Plan.nestedInOperations] using hq
  subst hq
  constructor
  all_goals
    simp [authorsByCompany, Named, Expr.nodes, Expr.nodesOf]
  case groupKeys => exact ⟨rfl, rfl⟩
  case having => exact ⟨rfl, rfl, rfl, rfl⟩

theorem keys_agree_authorsByCompany :
    authorsByCompany.groupFields = [some companyField] ∧
      ∃ found after,
        Yields (Session.groups readServices readEnvironment authorsByCompany) authorSession found
          after ∧
        found.map (·.items) = [[0, 3], [2]] ∧
        Session.Answer readServices readEnvironment authorsByCompany {} [companyField]
          authorSession found after := by
  have hrun : ((Session.groups readServices readEnvironment authorsByCompany).run.run
      authorSession).run.1.toOption.map (fun found => found.map (·.items)) =
        some [[0, 3], [2]] := by decide +kernel
  obtain ⟨found, hfound, hitems⟩ := Option.map_eq_some_iff.mp hrun
  have hyields := Yields.of_toOption hfound
  have hkeys : authorsByCompany.KeyedBy [companyField] :=
    .cons ⟨1, 0, "a", "CompanyId", rfl, by decide⟩ .nil
  obtain ⟨⟨hfields, -⟩, -, hanswer⟩ := @keys_agree readServices readEnvironment authorsByCompany
    [companyField] companyNames {} rfl Conversion.Fallback.keepsDoubles_generic (by decide) hkeys
    (by decide) (by decide) named_authorsByCompany rfl
  have hhonest := Sql.Compiler.honest_none companyNames readServices.registry
  exact ⟨hfields, found, _, hyields, hitems, (hanswer authorSession hhonest).1 found _ hyields⟩

end EntitySql.Query
