import EntitySql.Rows.Materialize

-- Instances and stores after changes: linking touches one navigation of one
-- instance, and reading a row touches no navigation at all.

namespace EntitySql

namespace Instance

variable {α : Type}

theorem keys_replace (key : Text) (change : α → α) (entries : List (Text × α)) :
    (replace key change entries).map (·.1) = entries.map (·.1) := by
  induction entries with
  | nil => rfl
  | cons e rest ih =>
    obtain ⟨k, a⟩ := e
    by_cases hk : k = key <;> simp [replace, hk, ih]

theorem lookup_replace_self (key : Text) (change : α → α) (entries : List (Text × α)) :
    (replace key change entries).lookup key = (entries.lookup key).map change := by
  induction entries with
  | nil => rfl
  | cons e rest ih =>
    obtain ⟨k, a⟩ := e
    by_cases hk : k = key
    · simp [replace, hk]
    · have hk' : (key == k) = false := beq_false_of_ne (Ne.symm hk)
      simp only [replace, hk, if_false, List.lookup_cons, hk', ih]

theorem lookup_replace_other {key other : Text} (h : other ≠ key) (change : α → α)
    (entries : List (Text × α)) :
    (replace key change entries).lookup other = entries.lookup other := by
  induction entries with
  | nil => rfl
  | cons e rest ih =>
    obtain ⟨k, a⟩ := e
    by_cases hk : k = key
    · have hne : (other == k) = false := beq_false_of_ne (hk ▸ h)
      simp only [replace, hk, if_true, List.lookup_cons]
      rw [hk] at hne
      simp only [hne]
    · simp only [replace, hk, if_false, List.lookup_cons, ih]

theorem replace_append_cons {key : Text} {before after : List (Text × α)} {a : α}
    (h : key ∉ before.map (·.1)) (change : α → α) :
    replace key change (before ++ (key, a) :: after) = before ++ (key, change a) :: after := by
  induction before with
  | nil => rw [List.nil_append, List.nil_append, replace, if_pos rfl]
  | cons e rest ih =>
    obtain ⟨k, x⟩ := e
    rw [List.map_cons, List.mem_cons, not_or] at h
    rw [List.cons_append, replace, if_neg (Ne.symm h.1), ih h.2, List.cons_append]

-- The navigations that an instance has a place for.
def Navigable (i : Instance) (n : Navigation) : Prop := n.property ∈ i.links.map (·.1)

theorem navigable_new {e : Entity} {n : Navigation} (h : n ∈ e.navigations) :
    (new e).Navigable n := by
  simp only [Navigable, new, List.map_map]
  exact List.mem_map.mpr ⟨n, h, rfl⟩

theorem linked_new (e : Entity) (n : Navigation) : (new e).linked n = [] := by
  simp only [linked, new]
  induction e.navigations with
  | nil => rfl
  | cons head rest ih =>
    rw [List.map_cons, List.lookup_cons]
    split
    · rfl
    · exact ih

@[simp] theorem type_link (i : Instance) (n : Navigation) (target : InstanceId) :
    (i.link n target).type = i.type := rfl

@[simp] theorem values_link (i : Instance) (n : Navigation) (target : InstanceId) :
    (i.link n target).values = i.values := rfl

theorem navigable_link {i : Instance} {n : Navigation} (other : Navigation)
    (target : InstanceId) : (i.link other target).Navigable n ↔ i.Navigable n := by
  simp only [Navigable, link, keys_replace]

theorem linked_link_self {i : Instance} {n : Navigation} (h : i.Navigable n)
    (target : InstanceId) :
    (i.link n target).linked n =
      if n.isCollection then i.linked n ++ [target] else [target] := by
  obtain ⟨targets, hfound⟩ : ∃ targets, i.links.lookup n.property = some targets := by
    obtain ⟨entry, hmem, hkey⟩ := List.mem_map.mp h
    cases hl : i.links.lookup n.property with
    | some targets => exact ⟨targets, rfl⟩
    | none => exact absurd (List.lookup_eq_none_iff.mp hl entry hmem) (by simp [hkey])
  simp only [linked, link, lookup_replace_self, hfound, Option.map_some, Option.getD_some]

theorem linked_link_other {i : Instance} {n other : Navigation}
    (h : n.property ≠ other.property) (target : InstanceId) :
    (i.link other target).linked n = i.linked n := by
  simp only [linked, link, lookup_replace_other h]

theorem links_set {i j : Instance} {f : Field} {v : Value} (h : i.set f v = .ok j) :
    j.type = i.type ∧ j.links = i.links := by
  simp only [set] at h
  cases ha : f.member.accept v with
  | error e => simp [ha, bind, Except.bind] at h
  | ok accepted =>
    simp only [ha, bind, Except.bind, pure, Except.pure, Except.ok.injEq] at h
    subst h
    exact ⟨rfl, rfl⟩

end Instance

namespace Row

theorem ok_of_mapError {α : Type} {r : Result α} {change : Error → Error} {a : α}
    (h : r.mapError change = .ok a) : r = .ok a := by
  cases r with
  | error e => cases h
  | ok b =>
    cases h
    rfl

theorem links_readInto {converter : Conversion.Converter} {r : Row} {i j : Instance}
    {b : ColumnBinding} (h : r.readInto converter i b = .ok j) :
    j.type = i.type ∧ j.links = i.links := by
  simp only [readInto] at h
  cases hv : r.readColumn converter b with
  | error e => simp [hv, bind, Except.bind] at h
  | ok v =>
    rw [hv] at h
    exact Instance.links_set (ok_of_mapError h)

theorem links_foldlM_readInto {converter : Conversion.Converter} {r : Row} {i j : Instance}
    {columns : List ColumnBinding} (h : columns.foldlM (r.readInto converter) i = .ok j) :
    j.type = i.type ∧ j.links = i.links := by
  induction columns generalizing i with
  | nil =>
    cases h
    exact ⟨rfl, rfl⟩
  | cons b rest ih =>
    rw [List.foldlM_cons] at h
    cases hb : r.readInto converter i b with
    | error e => simp [hb, bind, Except.bind] at h
    | ok k =>
      rw [hb] at h
      obtain ⟨htype, hlinks⟩ := links_readInto hb
      obtain ⟨htype', hlinks'⟩ := ih h
      exact ⟨htype'.trans htype, hlinks'.trans hlinks⟩

-- A row fills the values of a new instance and links it to nothing.
theorem links_readInstance {converter : Conversion.Converter} {r : Row} {b : EntityBinding}
    {i : Instance} (h : r.readInstance converter b = .ok i) :
    i.type = b.entity.type ∧ i.links = (Instance.new b.entity).links :=
  links_foldlM_readInto h

end Row

namespace Store

theorem get?_insert_size (s : Store) (i : Instance) : (s.insert i).1.get? s.size = some i := by
  simp [insert, get?, size]

theorem get?_insert_of_lt {s : Store} {id : InstanceId} (i : Instance) (h : id < s.size) :
    (s.insert i).1.get? id = s.get? id := List.getElem?_append_left h

@[simp] theorem insert_snd (s : Store) (i : Instance) : (s.insert i).2 = s.size := rfl

theorem get?_update (s : Store) (id other : InstanceId) (change : Instance → Instance) :
    (s.update id change).get? other =
      if id = other then (s.get? other).map change else s.get? other := by
  simp only [update, get?, List.getElem?_modify]
  by_cases h : id = other <;> simp [h]

theorem lt_size_of_get? {s : Store} {id : InstanceId} {i : Instance} (h : s.get? id = some i) :
    id < s.size := by
  obtain ⟨hlt, -⟩ := List.getElem?_eq_some_iff.mp h
  exact hlt

end Store

end EntitySql
