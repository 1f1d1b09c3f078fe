import EntitySql.Proofs.Rows.Progress
import EntitySql.Schema.Catalogue

-- What rows need to be read. A row asks for its root and for the entities of
-- the includes that it shows. Of each it needs the key, and all bound cells
-- if no row has asked for that key before. Reading stops at the first of
-- these that is wrong, and only there.

namespace EntitySql

namespace Materializer

open Include (Node Tree)

-- An entity that a row asks for: the root, or that of an include.
structure Request where
  site : Option Nat
  binding : EntityBinding
  row : Row

mutual

def treeRequests (columns : List Column) (row : Row) : Tree → List Request
  | .node n children =>
    if row.isUnmatched (nodeBinding columns n) then []
    else ⟨some n.number, nodeBinding columns n, row⟩ :: forestRequests columns row children

def forestRequests (columns : List Column) (row : Row) : List Tree → List Request
  | [] => []
  | tree :: rest => treeRequests columns row tree ++ forestRequests columns row rest

end

-- In the order of the includes, each in front of those below it.
def rowRequests (m : Materializer) (columns : List Column) (row : Row) : List Request :=
  ⟨none, m.rootBinding columns, row⟩ :: forestRequests columns row m.trees

-- There is no column for the key, or nothing in it.
def Request.isKeyless (r : Request) : Bool :=
  r.binding.key?.all fun c => (r.row.cell c.ordinal).isNull

-- The key of a request. Requests without one are numbered instead.
def keyOf? (m : Materializer) (number : Nat) (r : Request) : Option Value :=
  if r.isKeyless then some (.array [.null, .int (Int64.ofNat number)]) else m.key? r.binding r.row

-- There is an instance for the key.
def isKnown (m : Materializer) (known : List (Option Nat × Value)) (site : Option Nat) (key : Value) :
    Bool :=
  known.any fun k => k.1 = site && m.same k.2 key

def enlist (m : Materializer) (known : List (Option Nat × Value)) (site : Option Nat) (key : Value) :
    List (Option Nat × Value) :=
  if m.isKnown known site key then known else known ++ [(site, key)]

-- The keys with instances after some requests: each request makes one unless there is one
-- for its key.
def keysFrom (m : Materializer) (number : Nat) (known : List (Option Nat × Value)) :
    List Request → List (Option Nat × Value)
  | [] => known
  | r :: rest =>
    m.keysFrom (if r.isKeyless then number + 1 else number)
      (((m.keyOf? number r).map (m.enlist known r.site)).getD known) rest

def keysAfter (m : Materializer) (earlier : List Request) : List (Option Nat × Value) :=
  m.keysFrom 0 [] earlier

def keyAfter? (m : Materializer) (earlier : List Request) (r : Request) : Option Value :=
  m.keyOf? (earlier.countP Request.isKeyless) r

-- No earlier request for the root, or for the same include, has made an instance for
-- the key.
def isNew (m : Materializer) (earlier : List Request) (r : Request) : Bool :=
  (m.keyAfter? earlier r).any fun key => !m.isKnown (m.keysAfter earlier) r.site key

-- What may be wrong with a cell: a key that is null, a value that does not
-- convert to the type of the field, and one that its member does not take.
inductive Need where
  | present (e : Entity) (c : ColumnBinding)
  | converted (c : ColumnBinding)
  | stored (c : ColumnBinding)

def Need.fault? (converter : Conversion.Converter) (row : Row) : Need → Option Error
  | .present e c =>
    if (row.cell c.ordinal).isNull then some (.contract (.nullKey c.field.column e.name row.index))
    else none
  | .converted c =>
    (row.readCell converter c).error?.map (.mapping .field c.field.column c.field.property row.index)
  | .stored c =>
    (row.readCell converter c >>= c.field.member.accept).error?.map
      (.mapping .field c.field.column c.field.property row.index)

-- The key of the root must not be null.
def Request.keyNeeds (r : Request) : List Need :=
  match r.binding.key? with
  | none => []
  | some c => if r.site.isNone then [.present r.binding.entity c, .converted c] else [.converted c]

def needs (m : Materializer) (earlier : List Request) (r : Request) : List Need :=
  r.keyNeeds ++ if m.isNew earlier r then r.binding.columns.map .stored else []

def needsFrom (m : Materializer) (earlier : List Request) : List Request → List Need
  | [] => []
  | r :: rest => m.needs earlier r ++ m.needsFrom (earlier ++ [r]) rest

-- The cells that a row needs behind other rows, in the order of reading.
def rowNeeds (m : Materializer) (columns : List Column) (before : List Row) (row : Row) : List Need :=
  m.needsFrom (before.flatMap (m.rowRequests columns)) (m.rowRequests columns row)

-- The first thing wrong in a row.
def rowFault? (m : Materializer) (columns : List Column) (before : List Row) (row : Row) :
    Option Error :=
  (m.rowNeeds columns before row).findSome? (Need.fault? m.converter row)

-- Nothing is wrong in any of some rows behind others.
def Faultless (m : Materializer) (columns : List Column) (before rows : List Row) : Prop :=
  ∀ front row back, rows = front ++ row :: back → m.rowFault? columns (before ++ front) row = none

def firstFault? (m : Materializer) (columns : List Column) (before : List Row) :
    List Row → Option Error
  | [] => none
  | row :: rest =>
    (m.rowFault? columns before row).or (m.firstFault? columns (before ++ [row]) rest)

variable {m : Materializer} {columns : List Column} {row : Row} {earlier : List Request}

theorem keysFrom_append (number : Nat) (known : List (Option Nat × Value))
    (requests more : List Request) :
    m.keysFrom number known (requests ++ more) =
      m.keysFrom (number + requests.countP Request.isKeyless) (m.keysFrom number known requests)
        more := by
  induction requests generalizing number known with
  | nil => rfl
  | cons r rest ih =>
    rw [List.cons_append, keysFrom, keysFrom, ih, List.countP_cons]
    cases r.isKeyless <;> simp [Nat.add_comm, Nat.add_left_comm]

theorem keysAfter_append_singleton {r : Request} {key : Value}
    (hkey : m.keyAfter? earlier r = some key) :
    m.keysAfter (earlier ++ [r]) = m.enlist (m.keysAfter earlier) r.site key := by
  rw [keysAfter, keysFrom_append, Nat.zero_add, keysFrom, keysFrom, ← keyAfter?, hkey]
  rfl

theorem needsFrom_append (requests more : List Request) :
    m.needsFrom earlier (requests ++ more) =
      m.needsFrom earlier requests ++ m.needsFrom (earlier ++ requests) more := by
  induction requests generalizing earlier with
  | nil => simp [needsFrom]
  | cons r rest ih => simp [needsFrom, ih]

theorem faultless_cons_iff {before rest : List Row} :
    m.Faultless columns before (row :: rest) ↔
      m.rowFault? columns before row = none ∧ m.Faultless columns (before ++ [row]) rest := by
  constructor
  · intro h
    refine ⟨?_, fun front r back hsplit => ?_⟩
    · have hrow := h [] row rest rfl
      rwa [List.append_nil] at hrow
    · have hr := h (row :: front) r back (by rw [hsplit]; rfl)
      rwa [List.append_cons] at hr
  · rintro ⟨hrow, hrest⟩ front r back hsplit
    cases front with
    | nil =>
      cases hsplit
      rwa [List.append_nil]
    | cons _ front =>
      cases hsplit
      rw [List.append_cons]
      exact hrest front r back rfl

theorem firstFault?_eq_none_iff {before rows : List Row} :
    m.firstFault? columns before rows = none ↔ m.Faultless columns before rows := by
  induction rows generalizing before with
  | nil => simp [firstFault?, Faultless]
  | cons first rest ih => rw [firstFault?, Option.or_eq_none_iff, ih, faultless_cons_iff]

-- The row with the first fault comes behind rows without one.
theorem firstFault?_eq_some_iff {before rows : List Row} {e : Error} :
    m.firstFault? columns before rows = some e ↔ ∃ earlier row later,
      rows = earlier ++ row :: later ∧ m.Faultless columns before earlier ∧
      m.rowFault? columns (before ++ earlier) row = some e := by
  induction rows generalizing before with
  | nil => simp [firstFault?]
  | cons first rest ih =>
    rw [firstFault?, Option.or_eq_some_iff, ih]
    constructor
    · rintro (hfirst | ⟨hfirst, earlier, row, later, rfl, hearlier, hrow⟩)
      · exact ⟨[], first, rest, rfl, by simp [Faultless], by rwa [List.append_nil]⟩
      · exact ⟨first :: earlier, row, later, rfl, faultless_cons_iff.mpr ⟨hfirst, hearlier⟩,
          by rwa [List.append_cons]⟩
    · rintro ⟨earlier, row, later, hsplit, hearlier, hrow⟩
      cases earlier with
      | nil =>
        cases hsplit
        rw [List.append_nil] at hrow
        exact .inl hrow
      | cons _ earlier =>
        cases hsplit
        obtain ⟨hfirst, hrest⟩ := faultless_cons_iff.mp hearlier
        rw [List.append_cons] at hrow
        exact .inr ⟨hfirst, earlier, row, later, rfl, hrest, hrow⟩

end Materializer

namespace Row

open Materializer (Need)

variable {converter : Conversion.Converter} {row : Row}

theorem error?_readColumn (c : ColumnBinding) :
    (row.readColumn converter c).error? = (Need.converted c).fault? converter row := by
  rw [readColumn, Need.fault?]
  cases row.readCell converter c <;> rfl

theorem error?_readInto (i : Instance) (c : ColumnBinding) :
    (row.readInto converter i c).error? = (Need.stored c).fault? converter row := by
  rw [readInto, readColumn, Need.fault?]
  cases row.readCell converter c with
  | error cause => rfl
  | ok v =>
    simp only [Except.mapError, bind, Except.bind, Instance.set]
    cases c.field.member.accept v <;> rfl

-- An instance needs all columns in their order.
theorem error?_readInstance (b : EntityBinding) :
    (row.readInstance converter b).error? =
      (b.columns.map Need.stored).findSome? (Need.fault? converter row) := by
  rw [readInstance]
  generalize Instance.new b.entity = i
  generalize b.columns = columns
  induction columns generalizing i with
  | nil => rfl
  | cons c rest ih =>
    have hfirst : (row.readInto converter i c).error? = (Need.stored c).fault? converter row :=
      error?_readInto i c
    rw [List.foldlM_cons, List.map_cons, List.findSome?_cons, ← hfirst]
    cases row.readInto converter i c with
    | error e => rfl
    | ok j => exact ih j

end Row

namespace Materializer

open Include (Node Tree)

variable {m : Materializer} {columns : List Column} {row : Row} {earlier : List Request}
  {keys : List (Option Nat × Value)} {number : Nat} {s t : State}

-- A state in which there are instances for some keys, and a number of
-- requests had none.
structure Remembers (m : Materializer) (keys : List (Option Nat × Value)) (number : Nat)
    (s : State) : Prop where
  known : ∀ site key, (s.memory.instance? m.same site key).isSome = m.isKnown keys site key
  numbered : s.memory.synthetic = number
  running : s.cancelled = false

namespace Remembers

variable {site : Option Nat} {key : Value}

theorem remember (h : m.Remembers keys number s)
    (hnew : (s.memory.instance? m.same site key).isSome = false) (id : InstanceId) (store : Store) :
    m.Remembers (m.enlist keys site key) number
      { s with memory := s.memory.remember site key id, store := store } where
  known other otherKey := by
    rw [h.known] at hnew
    rw [Memory.instance?_remember, Option.isSome_or, h.known, enlist, hnew, if_neg Bool.false_ne_true,
      isKnown, isKnown, List.any_append, List.any_cons, List.any_nil, Bool.or_false]
    congr 1
    by_cases hsame : site = other ∧ m.same key otherKey = true
    · simp [hsame]
    · rw [if_neg hsame]
      simpa using hsame
  numbered := by
    rw [← h.numbered]
    cases site <;> rfl
  running := h.running

theorem of_known (h : m.Remembers keys number s)
    (hknown : (s.memory.instance? m.same site key).isSome) :
    m.Remembers (m.enlist keys site key) number s := by
  rw [h.known] at hknown
  rw [enlist, if_pos hknown]
  exact h

end Remembers

-- The state after some requests.
def Knows (m : Materializer) (earlier : List Request) (s : State) : Prop :=
  m.Remembers (m.keysAfter earlier) (earlier.countP Request.isKeyless) s

theorem ends_syntheticKey (h : m.Remembers keys number s) :
    Ends syntheticKey s none fun key t =>
      key = .array [.null, .int (Int64.ofNat number)] ∧ m.Remembers keys (number + 1) t := by
  obtain ⟨hknown, rfl, hrunning⟩ := h
  exact ⟨_, _, rfl, rfl, hknown, rfl, hrunning⟩

theorem Request.keyNeeds_of_key? {r : Request} {c : ColumnBinding} (hkey : r.binding.key? = some c) :
    r.keyNeeds =
      if r.site.isNone then [.present r.binding.entity c, .converted c] else [.converted c] := by
  rw [keyNeeds, hkey]

-- A key that is not null must convert.
theorem Request.findSome?_keyNeeds {r : Request} {c : ColumnBinding} (hkey : r.binding.key? = some c)
    (hnull : (r.row.cell c.ordinal).isNull = false) (converter : Conversion.Converter) :
    r.keyNeeds.findSome? (Need.fault? converter r.row) = (r.row.readColumn converter c).error? := by
  have hpresent : (Need.present r.binding.entity c).fault? converter r.row = none := by
    rw [Need.fault?, hnull]
    rfl
  rw [keyNeeds_of_key? hkey, Row.error?_readColumn]
  cases r.site <;> simp [hpresent]

theorem ends_readKey (r : Request) (h : m.Knows earlier s) :
    Ends (m.readKey r.binding r.row r.site.isNone) s
      (r.keyNeeds.findSome? (Need.fault? m.converter r.row)) fun key t =>
        m.keyAfter? earlier r = some key ∧
          m.Remembers (m.keysAfter earlier) ((earlier ++ [r]).countP Request.isKeyless) t := by
  rw [List.countP_append, List.countP_singleton]
  -- A request without a key takes the next number.
  have hkeyless : r.isKeyless = true →
      Ends syntheticKey s none fun key t => m.keyAfter? earlier r = some key ∧
        m.Remembers (m.keysAfter earlier)
          (earlier.countP Request.isKeyless + if r.isKeyless then 1 else 0) t := by
    intro hr
    rw [keyAfter?, keyOf?, if_pos hr, if_pos hr]
    obtain ⟨key, t, hyields, rfl, ht⟩ := ends_syntheticKey h
    exact ⟨_, t, hyields, rfl, ht⟩
  cases hkey : r.binding.key? with
  | none =>
    have hr : r.isKeyless = true := by rw [Request.isKeyless, hkey]; rfl
    simp only [readKey, Request.keyNeeds, hkey]
    exact hkeyless hr
  | some c =>
    have hr : r.isKeyless = (r.row.cell c.ordinal).isNull := by rw [Request.isKeyless, hkey]; rfl
    simp only [readKey, hkey]
    cases hnull : (r.row.cell c.ordinal).isNull with
    | true =>
      rw [Request.keyNeeds_of_key? hkey]
      have hread : r.row.readCell m.converter c = .ok c.field.nullValue := by
        rw [Row.readCell, if_pos hnull]
      cases hsite : r.site with
      | none =>
        simp only [Option.isNone_none, if_true, List.findSome?_cons, Need.fault?, hnull]
        exact .throw _
      | some n =>
        simp only [Option.isNone_some, Bool.false_eq_true, if_true, if_false, List.findSome?_cons,
          Need.fault?, hread]
        exact hkeyless (hr.trans hnull)
    | false =>
      rw [Request.findSome?_keyNeeds hkey hnull]
      refine .lift fun key hread => ⟨?_, ?_⟩
      · rw [keyAfter?, keyOf?, hr, hnull, if_neg Bool.false_ne_true, key?, hkey]
        simp [hnull, hread, Except.toOption]
      · rw [hr, hnull, if_neg Bool.false_ne_true, Nat.add_zero]
        exact h

theorem isNew_eq (h : m.Remembers (m.keysAfter earlier) number s) {r : Request} {key : Value}
    (hkey : m.keyAfter? earlier r = some key) :
    m.isNew earlier r = (s.memory.instance? m.same r.site key).isNone := by
  rw [isNew, hkey, Option.any_some, ← h.known, Option.not_isSome]

-- A new instance of a request, and what is done with it.
theorem ends_newInstance {β : Type} {f : InstanceId → Step β} {fault : Option Error}
    {P : β → State → Prop} {r : Request} {key : Value} (hkey : m.keyAfter? earlier r = some key)
    (h : m.Remembers (m.keysAfter earlier) number s)
    (hnew : (s.memory.instance? m.same r.site key).isSome = false)
    (hf : ∀ id t, m.Remembers (m.keysAfter (earlier ++ [r])) number t → Ends (f id) t fault P) :
    Ends (liftM (r.row.readInstance m.converter r.binding) >>= fun i => insert i >>= fun id =>
        modify (fun s => { s with memory := s.memory.remember r.site key id }) >>= fun _ => f id) s
      (((r.binding.columns.map .stored).findSome? (Need.fault? m.converter r.row)).or fault) P := by
  rw [← Row.error?_readInstance]
  refine Ends.bind (P := fun _ t => t = s) (.lift fun _ _ => rfl) fun _ i t ht => ?_
  subst ht
  refine Ends.then_bind (P := fun id u => u = { t with store := (t.store.insert i).1 })
    ⟨_, _, insert_yields i t, rfl⟩ fun id u hu => ?_
  subst hu
  refine Ends.then_bind (P := fun _ u => m.Remembers (m.keysAfter (earlier ++ [r])) number u)
    (.modify ?_) fun _ u hu => hf id u hu
  rw [keysAfter_append_singleton hkey]
  exact h.remember hnew id _

theorem ends_relatedInstance {r : Request} {node : Nat} (hsite : r.site = some node) {key : Value}
    (hkey : m.keyAfter? earlier r = some key) (h : m.Remembers (m.keysAfter earlier) number s) :
    Ends (m.relatedInstance node r.binding r.row key) s
      ((if m.isNew earlier r then r.binding.columns.map .stored else []).findSome?
        (Need.fault? m.converter r.row))
      fun _ t => m.Remembers (m.keysAfter (earlier ++ [r])) number t := by
  have hnew := isNew_eq h hkey
  rw [hsite] at hnew
  refine .get_bind ?_
  have hknown : s.memory.related? m.same node key = s.memory.instance? m.same (some node) key := rfl
  rw [hknown]
  cases hid : s.memory.instance? m.same (some node) key with
  | some id =>
    rw [hid, Option.isNone_some] at hnew
    rw [hnew, if_neg Bool.false_ne_true]
    refine .pure ?_
    rw [keysAfter_append_singleton hkey, hsite]
    exact h.of_known (by rw [hid]; rfl)
  | none =>
    rw [hid, Option.isNone_none] at hnew
    have hread := ends_newInstance (f := pure)
      (P := fun _ t => m.Remembers (m.keysAfter (earlier ++ [r])) number t) hkey h
      (by rw [hsite, hid]; rfl) fun _ _ ht => .pure ht
    rw [Option.or_none, hsite] at hread
    rw [hnew, if_pos rfl]
    exact hread

theorem ends_linkRelated (h : m.Remembers keys number s) (n : Node) (parent related : InstanceId)
    (parentKey key : Value) :
    Ends (m.linkRelated n parent parentKey key related) s none fun _ t => m.Remembers keys number t := by
  have hlink : ∀ t, m.Remembers keys number t →
      Ends (link n.navigation parent related) t none fun _ u => m.Remembers keys number u :=
    fun t ht => .modify ⟨ht.known, ht.numbered, ht.running⟩
  simp only [linkRelated]
  split
  · refine .get_bind ?_
    split
    · exact .pure h
    · refine Ends.then_bind (P := fun _ t => m.Remembers keys number t) (.modify ?_) fun _ t ht => hlink t ht
      refine ⟨fun site key => ?_, h.numbered, h.running⟩
      rw [← h.known]
      cases site <;> rfl
  · exact hlink s h

-- The faults of some requests that are made from a row.
def faultFrom? (m : Materializer) (row : Row) (earlier requests : List Request) : Option Error :=
  (m.needsFrom earlier requests).findSome? (Need.fault? m.converter row)

theorem faultFrom?_append (requests more : List Request) :
    m.faultFrom? row earlier (requests ++ more) =
      (m.faultFrom? row earlier requests).or (m.faultFrom? row (earlier ++ requests) more) := by
  rw [faultFrom?, needsFrom_append, List.findSome?_append]
  rfl

-- First the key, then the cells if it is new, then what comes behind.
theorem faultFrom?_cons (r : Request) (rest : List Request) :
    m.faultFrom? row earlier (r :: rest) =
      (r.keyNeeds.findSome? (Need.fault? m.converter row)).or
        (((if m.isNew earlier r then r.binding.columns.map Need.stored else []).findSome?
          (Need.fault? m.converter row)).or (m.faultFrom? row (earlier ++ [r]) rest)) := by
  rw [faultFrom?, needsFrom, needs, List.findSome?_append, List.findSome?_append, Option.or_assoc]
  rfl

-- The entity of an include, and what is done below it.
theorem ends_related {r : Request} {n : Node} (hsite : r.site = some n.number)
    (h : m.Knows earlier s) (parent : InstanceId) (parentKey : Value)
    {f : InstanceId → Value → Step Unit} {fault : Option Error} {P : Unit → State → Prop}
    (hf : ∀ related key t, m.Knows (earlier ++ [r]) t → Ends (f related key) t fault P) :
    Ends (m.readKey r.binding r.row false >>= fun key =>
        m.relatedInstance n.number r.binding r.row key >>= fun related =>
          m.linkRelated n parent parentKey key related >>= fun _ => f related key) s
      ((r.keyNeeds.findSome? (Need.fault? m.converter r.row)).or
        (((if m.isNew earlier r then r.binding.columns.map Need.stored else []).findSome?
          (Need.fault? m.converter r.row)).or fault)) P := by
  have hkey := ends_readKey r h
  rw [hsite, Option.isNone_some] at hkey
  refine hkey.bind fun _ key t ht => ?_
  refine (ends_relatedInstance hsite ht.1 ht.2).bind fun _ related u hu => ?_
  exact (ends_linkRelated hu n parent related parentKey key).then_bind fun _ v hv => hf related key v hv

mutual

theorem ends_readTree {earlier : List Request} {s : State} (tree : Tree) (h : m.Knows earlier s)
    (parent : InstanceId) (parentKey : Value) :
    Ends (m.readTree columns row parent parentKey tree) s
      (m.faultFrom? row earlier (treeRequests columns row tree))
      fun _ t => m.Knows (earlier ++ treeRequests columns row tree) t := by
  match tree with
  | .node n children =>
    by_cases hmatched : row.isUnmatched (nodeBinding columns n)
    · have hstep : m.readTree columns row parent parentKey (.node n children) = pure () := by
        simp only [readTree]
        exact if_pos hmatched
      have hrequests : treeRequests columns row (.node n children) = [] := by
        simp only [treeRequests]
        exact if_pos hmatched
      rw [hstep, hrequests, List.append_nil]
      exact .pure h
    · have hstep : m.readTree columns row parent parentKey (.node n children) =
          m.readKey (nodeBinding columns n) row false >>= fun key =>
            m.relatedInstance n.number (nodeBinding columns n) row key >>= fun related =>
              m.linkRelated n parent parentKey key related >>= fun _ =>
                m.readTrees columns row related key children := by
        simp only [readTree]
        exact if_neg hmatched
      have hrequests : treeRequests columns row (.node n children) =
          ⟨some n.number, nodeBinding columns n, row⟩ :: forestRequests columns row children := by
        simp only [treeRequests]
        exact if_neg hmatched
      rw [hstep, hrequests, faultFrom?_cons]
      refine ends_related (r := ⟨some n.number, nodeBinding columns n, row⟩) rfl h parent parentKey
        fun related key t ht => ?_
      have hbelow := ends_readTrees children ht related key
      rwa [List.append_assoc] at hbelow

theorem ends_readTrees {earlier : List Request} {s : State} (trees : List Tree)
    (h : m.Knows earlier s) (parent : InstanceId) (parentKey : Value) :
    Ends (m.readTrees columns row parent parentKey trees) s
      (m.faultFrom? row earlier (forestRequests columns row trees))
      fun _ t => m.Knows (earlier ++ forestRequests columns row trees) t := by
  match trees with
  | [] =>
    simp only [readTrees, forestRequests, List.append_nil]
    exact .pure h
  | tree :: rest =>
    simp only [readTrees, forestRequests, faultFrom?_append, ← List.append_assoc]
    exact (ends_readTree tree h parent parentKey).bind fun _ _ t ht =>
      ends_readTrees rest ht parent parentKey

end

theorem ends_readRow {before : List Row} (h : m.Knows (before.flatMap (m.rowRequests columns)) s) :
    Ends (m.readRow columns row) s (m.rowFault? columns before row) fun _ t =>
      m.Knows ((before ++ [row]).flatMap (m.rowRequests columns)) t := by
  have hfault : m.rowFault? columns before row =
      m.faultFrom? row (before.flatMap (m.rowRequests columns)) (m.rowRequests columns row) := rfl
  have hrequests : (before ++ [row]).flatMap (m.rowRequests columns) =
      before.flatMap (m.rowRequests columns) ++ m.rowRequests columns row := by simp
  rw [hfault, hrequests]
  generalize before.flatMap (m.rowRequests columns) = earlier at h
  rw [rowRequests, faultFrom?_cons, readRow]
  have htrees : ∀ (id : InstanceId) (key : Value) (new : Option InstanceId) u,
      m.Knows (earlier ++ [⟨none, m.rootBinding columns, row⟩]) u →
        Ends (m.readTrees columns row id key m.trees >>= fun _ => pure new) u
          (m.faultFrom? row (earlier ++ [⟨none, m.rootBinding columns, row⟩])
            (forestRequests columns row m.trees))
          fun _ v => m.Knows (earlier ++ ⟨none, m.rootBinding columns, row⟩ ::
            forestRequests columns row m.trees) v := by
    intro id key new u hu
    have hbelow : Ends (m.readTrees columns row id key m.trees) u _ _ :=
      ends_readTrees m.trees hu id key
    rw [List.append_assoc] at hbelow
    exact hbelow.bind_pure fun _ _ hv => hv
  refine (ends_readKey ⟨none, m.rootBinding columns, row⟩ h).bind fun _ key t ht => .get_bind ?_
  obtain ⟨hkey, ht⟩ := ht
  have hnew := isNew_eq ht hkey
  have hknown : t.memory.root? m.same key = t.memory.instance? m.same none key := rfl
  rw [hknown]
  cases hid : t.memory.instance? m.same none key with
  | some id =>
    rw [hid, Option.isNone_some] at hnew
    rw [hnew, if_neg Bool.false_ne_true]
    refine htrees id key none t ?_
    rw [Knows, keysAfter_append_singleton hkey]
    exact ht.of_known (by rw [hid]; rfl)
  | none =>
    rw [hid, Option.isNone_none] at hnew
    rw [hnew, if_pos rfl]
    have hread := ends_newInstance hkey ht (by rw [hid]; rfl) fun id u hu =>
      htrees id key (some id) u hu
    simp only [Memory.remember] at hread
    exact hread

theorem ends_advance {set : ResultSet} (hcancel : set.cancelAt = none) (index : Nat)
    (hs : s.cancelled = false) : Ends (advance set index) s none fun _ t => t = s :=
  ⟨_, _, advance_yields hcancel index hs, rfl⟩

theorem ends_readRows {set : ResultSet} (hcancel : set.cancelAt = none) {before : List Row}
    {cells : List (List Value)} (index : Nat)
    (h : m.Knows (before.flatMap (m.rowRequests set.columns)) s) :
    Ends (m.readRows set index cells) s (m.firstFault? set.columns before (rowsFrom index cells))
      fun _ _ => True := by
  induction cells generalizing index before s with
  | nil =>
    simp only [readRows]
    exact (ends_advance hcancel index h.running).then_bind fun _ _ _ => .pure trivial
  | cons first rest ih =>
    have hsplit : rowsFrom index (first :: rest) = ⟨index, first⟩ :: rowsFrom (index + 1) rest := rfl
    rw [hsplit, firstFault?]
    simp only [readRows]
    refine (ends_advance hcancel index h.running).then_bind fun _ t ht => ?_
    subst ht
    refine (ends_readRow h).bind fun _ new u hu => ?_
    exact (ih (index + 1) hu).bind_pure fun _ _ _ => trivial

theorem index_of_rowsFrom {index : Nat} {cells : List (List Value)} {before after : List Row} {row : Row}
    (h : rowsFrom index cells = before ++ row :: after) : row.index = index + before.length := by
  have hget : (rowsFrom index cells)[before.length]? = some row := by simp [h]
  rw [rowsFrom, List.getElem?_map, List.getElem?_zipIdx] at hget
  obtain ⟨c, hc, rfl⟩ := Option.map_eq_some_iff.mp hget
  obtain ⟨_, -, rfl⟩ := Option.map_eq_some_iff.mp hc
  rfl

-- A materializer that remembers nothing fails exactly if a row has a fault:
-- with the first fault of the first such row, which names its place. Without
-- one it answers.
theorem read_stops_at_first_fault {set : ResultSet} (hcancel : set.cancelAt = none)
    (hfresh : s.memory = {}) (hrunning : s.cancelled = false) :
    (∀ e, (∃ t, Fails (m.read set) s e t) ↔ ∃ before row after,
      rowsFrom 0 set.rows = before ++ row :: after ∧ row.index = before.length ∧
      m.Faultless set.columns [] before ∧ m.rowFault? set.columns before row = some e) ∧
    ((∃ ids t, Yields (m.read set) s ids t) ↔ m.Faultless set.columns [] (rowsFrom 0 set.rows)) := by
  have hknows : m.Knows (([] : List Row).flatMap (m.rowRequests set.columns)) s := by
    refine ⟨fun site key => ?_, ?_, hrunning⟩
    · rw [hfresh]
      cases site <;> rfl
    · rw [hfresh]
      rfl
  have hends : Ends (m.read set) s (m.firstFault? set.columns [] (rowsFrom 0 set.rows)) fun _ _ => True :=
    ends_readRows hcancel 0 hknows
  constructor
  · intro e
    rw [hends.fails_iff, firstFault?_eq_some_iff]
    constructor
    · rintro ⟨before, row, after, hsplit, hbefore, hrow⟩
      have hindex := index_of_rowsFrom hsplit
      rw [Nat.zero_add] at hindex
      exact ⟨before, row, after, hsplit, hindex, hbefore, hrow⟩
    · rintro ⟨before, row, after, hsplit, -, hbefore, hrow⟩
      exact ⟨before, row, after, hsplit, hbefore, hrow⟩
  · rw [hends.yields_iff, firstFault?_eq_none_iff]

-- An author in three rows, with the company. The second row has a text for a
-- number, but no row needs more than the first one of a known author; the
-- third row has one in the key of the company.
def employersMaterializer : Materializer where
  root := Catalogue.authorEntity
  converter := {}
  trees := [.node ⟨1, none, "Company", ⟨"Company", Catalogue.company, .reference "company_id"⟩,
    Catalogue.authorEntity, Catalogue.companyEntity⟩ []]
  same := Value.sameKey HashFunctions.plain

def employersSet : ResultSet where
  columns := [⟨"id", []⟩, ⟨"name", []⟩, ⟨"company_id", []⟩, ⟨"t1_id", []⟩, ⟨"t1_name", []⟩]
  rows :=
    [[.int 1, .string "Ann", .int 7, .int 7, .string "Acme"],
      [.int 1, .string "Ann", .string "seven", .int 7, .string "Acme"],
      [.int 1, .string "Ann", .int 7, .string "eight", .string "Other"]]

theorem read_stops_at_first_fault_employers :
    ∃ cause t, Fails (employersMaterializer.read employersSet) {} (.mapping .field "id" "Id" 2 cause) t := by
  obtain ⟨cause, hfault⟩ : ∃ cause, employersMaterializer.rowFault? employersSet.columns
      ((rowsFrom 0 employersSet.rows).take 2) ⟨2, [.int 1, .string "Ann", .int 7, .string "eight",
        .string "Other"]⟩ = some (.mapping .field "id" "Id" 2 cause) := ⟨_, rfl⟩
  have hbefore : employersMaterializer.Faultless employersSet.columns []
      ((rowsFrom 0 employersSet.rows).take 2) :=
    firstFault?_eq_none_iff.mp rfl
  exact ⟨cause, ((read_stops_at_first_fault rfl rfl rfl).1 _).mpr
    ⟨_, _, [], rfl, rfl, hbefore, hfault⟩⟩

end Materializer

end EntitySql
