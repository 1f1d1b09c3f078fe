import EntitySql.Proofs.Settings.Pairs
import EntitySql.Proofs.Text.Numeral
import EntitySql.Proofs.Text.Order
import EntitySql.Settings

-- The settings of a connection string survive being written as a connection
-- string again, whatever aliases, quotes and other keys it was given in. The
-- additional properties stand in the order of their keys, and no key stands
-- twice: set again in that order they give the same list.

namespace EntitySql

namespace ConnectionSettings

abbrev Property := Text × Text

def Ascending (properties : List Property) : Prop :=
  properties.Pairwise fun p q => Text.order p.1 q.1 = .lt

variable {key value : Text} {properties : List Property} {p : Property}

theorem mem_insertProperty (h : p ∈ insertProperty key value properties) :
    p = (key, value) ∨ p ∈ properties := by
  induction properties with
  | nil => exact .inl (List.mem_singleton.mp h)
  | cons first rest ih =>
    rw [insertProperty] at h
    split at h
    · exact List.mem_cons.mp h
    · exact (List.mem_cons.mp h).imp_right (List.mem_cons_of_mem first)
    · rcases List.mem_cons.mp h with rfl | h
      · exact .inr (List.mem_cons_self ..)
      · exact (ih h).imp_right (List.mem_cons_of_mem first)

theorem Ascending.insertProperty (h : Ascending properties) (key value : Text) :
    Ascending (insertProperty key value properties) := by
  induction properties with
  | nil => exact List.pairwise_singleton ..
  | cons first rest ih =>
    obtain ⟨hfirst, hrest⟩ := List.pairwise_cons.mp h
    rw [ConnectionSettings.insertProperty]
    split
    · next hlt =>
      refine List.pairwise_cons.mpr ⟨?_, h⟩
      exact List.forall_mem_cons.mpr ⟨hlt, fun q hq => Text.order_trans hlt (hfirst q hq)⟩
    · next heq =>
      rw [Text.eq_of_order heq]
      exact List.pairwise_cons.mpr ⟨hfirst, hrest⟩
    · next hgt =>
      refine List.pairwise_cons.mpr ⟨fun q hq => ?_, ih hrest⟩
      rcases mem_insertProperty hq with rfl | hq
      · exact Text.order_gt_iff.mp hgt
      · exact hfirst q hq

-- The greatest key of all comes last.
theorem insertProperty_of_forall_lt (h : ∀ p ∈ properties, Text.order p.1 key = .lt) :
    insertProperty key value properties = properties ++ [(key, value)] := by
  induction properties with
  | nil => rfl
  | cons first rest ih =>
    have hgt := Text.order_gt_iff.mpr (h first (List.mem_cons_self ..))
    rw [insertProperty, hgt, List.cons_append, ← ih fun q hq => h q (List.mem_cons_of_mem first hq)]

end ConnectionSettings

end EntitySql

namespace EntitySql.ConnectionString

open ConnectionSettings (Ascending insertProperty)

-- The names of every setting. All other keys are additional properties.
def aliases : List (List Text) :=
  [["host", "server"], ["port"], ["username", "user id", "userid", "user"], ["password", "pwd"],
    ["database", "db"], ["timeout", "connection timeout"], ["commandtimeout", "command timeout"],
    ["minpoolsize", "minimum pool size"], ["maxpoolsize", "maximum pool size"], ["pooling"],
    ["sslmode", "ssl mode"]]

def isKnown (key : Text) : Bool := aliases.any fun names => hasName names key

-- What holds of all settings that have been read from pairs.
structure WasRead (c : ConnectionSettings) : Prop where
  port : ∀ n ∈ c.port, Text.inWord 32 n = true
  connectionTimeout : ∀ n ∈ c.connectionTimeout, Text.inWord 32 n = true
  commandTimeout : ∀ n ∈ c.commandTimeout, Text.inWord 32 n = true
  minPoolSize : ∀ n ∈ c.minPoolSize, Text.inWord 32 n = true
  maxPoolSize : ∀ n ∈ c.maxPoolSize, Text.inWord 32 n = true
  ascending : Ascending c.additional
  keys : ∀ p ∈ c.additional, IsKey p.1 ∧ isKnown p.1 = false

variable {c d : ConnectionSettings} {pair : Text × Text} {key value : Text}

theorem inWord_of_readInteger {n : Int} (h : readInteger key value = .ok n) :
    ∀ k ∈ some n, Text.inWord 32 k = true := by
  rintro k ⟨⟩
  unfold readInteger at h
  split at h
  · next k hk =>
    cases h
    exact (Option.filter_eq_some_iff.mp hk).2
  · cases h

theorem setPair_of_not_isKnown (h : isKnown key = false) :
    setPair c (key, value) = .ok (c.setProperty key value) := by
  simp only [isKnown, aliases, List.any_cons, List.any_nil, Bool.or_eq_false_iff] at h
  simp only [setPair, h, Bool.false_eq_true, if_false]
  rfl

namespace WasRead

theorem empty : WasRead {} := by
  constructor <;> simp [Ascending]

theorem setPair (h : WasRead c) (hkey : IsKey pair.1) (hset : setPair c pair = .ok d) : WasRead d := by
  obtain ⟨key, value⟩ := pair
  unfold ConnectionString.setPair at hset
  dsimp only at hset
  rcases ite_eq_iff.mp hset with ⟨-, hset⟩ | ⟨hhost, hset⟩
  · cases hset
    exact { h with }
  rcases ite_eq_iff.mp hset with ⟨-, hset⟩ | ⟨hport, hset⟩
  · obtain ⟨n, hn, hset⟩ := Result.bind_eq_ok.mp hset
    cases hset
    exact { h with port := inWord_of_readInteger hn }
  rcases ite_eq_iff.mp hset with ⟨-, hset⟩ | ⟨husername, hset⟩
  · cases hset
    exact { h with }
  rcases ite_eq_iff.mp hset with ⟨-, hset⟩ | ⟨hpassword, hset⟩
  · cases hset
    exact { h with }
  rcases ite_eq_iff.mp hset with ⟨-, hset⟩ | ⟨hdatabase, hset⟩
  · cases hset
    exact { h with }
  rcases ite_eq_iff.mp hset with ⟨-, hset⟩ | ⟨htimeout, hset⟩
  · obtain ⟨n, hn, hset⟩ := Result.bind_eq_ok.mp hset
    cases hset
    exact { h with connectionTimeout := inWord_of_readInteger hn }
  rcases ite_eq_iff.mp hset with ⟨-, hset⟩ | ⟨hcommand, hset⟩
  · obtain ⟨n, hn, hset⟩ := Result.bind_eq_ok.mp hset
    cases hset
    exact { h with commandTimeout := inWord_of_readInteger hn }
  rcases ite_eq_iff.mp hset with ⟨-, hset⟩ | ⟨hlow, hset⟩
  · obtain ⟨n, hn, hset⟩ := Result.bind_eq_ok.mp hset
    cases hset
    exact { h with minPoolSize := inWord_of_readInteger hn }
  rcases ite_eq_iff.mp hset with ⟨-, hset⟩ | ⟨hhigh, hset⟩
  · obtain ⟨n, hn, hset⟩ := Result.bind_eq_ok.mp hset
    cases hset
    exact { h with maxPoolSize := inWord_of_readInteger hn }
  rcases ite_eq_iff.mp hset with ⟨-, hset⟩ | ⟨hpooling, hset⟩
  · obtain ⟨_, -, hset⟩ := Result.bind_eq_ok.mp hset
    cases hset
    exact { h with }
  rcases ite_eq_iff.mp hset with ⟨-, hset⟩ | ⟨hssl, hset⟩
  · obtain ⟨_, -, hset⟩ := Result.bind_eq_ok.mp hset
    cases hset
    exact { h with }
  cases hset
  have hother : isKnown key = false := by
    simp [isKnown, aliases, hhost, hport, husername, hpassword, hdatabase, htimeout, hcommand, hlow, hhigh,
      hpooling, hssl]
  refine { h with ascending := h.ascending.insertProperty key value, keys := fun p hp => ?_ }
  rcases ConnectionSettings.mem_insertProperty hp with rfl | hp
  · exact ⟨hkey, hother⟩
  · exact h.keys p hp

theorem foldlM_setPair {found : List (Text × Text)} (h : WasRead c) (hkeys : ∀ pair ∈ found, IsKey pair.1)
    (hfold : found.foldlM ConnectionString.setPair c = .ok d) : WasRead d := by
  induction found generalizing c with
  | nil =>
    cases hfold
    exact h
  | cons pair found ih =>
    rw [List.foldlM_cons] at hfold
    obtain ⟨next, hnext, hfold⟩ := Result.bind_eq_ok.mp hfold
    exact ih (h.setPair (hkeys pair (List.mem_cons_self ..)) hnext)
      (fun other hother => hkeys other (List.mem_cons_of_mem pair hother)) hfold

end WasRead

-- Written settings are read back.

theorem readInteger_ofInt (key : Text) {n : Int} (h : Text.inWord 32 n = true) :
    readInteger key (Text.ofInt n) = .ok n := by
  rw [readInteger, Text.toIntWithin?_ofInt h]

theorem foldlM_append {e : ConnectionSettings} {before after : List (Text × Text)}
    (h : before.foldlM setPair c = .ok d) (h' : after.foldlM setPair d = .ok e) :
    (before ++ after).foldlM setPair c = .ok e := by
  rw [List.foldlM_append, h]
  exact h'

theorem foldlM_optional {α : Type} (key : String) (toText : α → Text)
    (set : Option α → ConnectionSettings) (o : Option α)
    (h : ∀ a ∈ o, setPair (set none) (Text.ofString key, toText a) = .ok (set (some a))) :
    (optional key toText o).foldlM setPair (set none) = .ok (set o) := by
  cases o with
  | none => rfl
  | some a =>
    rw [optional, List.foldlM_cons, h a rfl]
    rfl

theorem foldlM_integer (key : String) (set : Option Int → ConnectionSettings) {o : Option Int}
    (ho : ∀ n ∈ o, Text.inWord 32 n = true)
    (h : ∀ value, setPair (set none) (Text.ofString key, value) =
      (do return set (some (← readInteger (Text.ofString key) value)))) :
    (optional key Text.ofInt o).foldlM setPair (set none) = .ok (set o) := by
  refine foldlM_optional key Text.ofInt set o fun n hn => ?_
  rw [h, readInteger_ofInt _ (ho n hn)]
  rfl

-- What is left of a text that counts only if it is not blank.
def kept (value : Text) : Text := if (trimmed value).isEmpty then [] else value

theorem foldlM_unlessBlank (key : String) (set : Text → ConnectionSettings) (value : Text)
    (h : ∀ value, setPair (set []) (Text.ofString key, value) = .ok (set value)) :
    (unlessBlank key value).foldlM setPair (set []) = .ok (set (kept value)) := by
  rw [unlessBlank, kept]
  cases (trimmed value).isEmpty with
  | true => rfl
  | false =>
    rw [if_neg Bool.false_ne_true, if_neg Bool.false_ne_true, entry, List.foldlM_cons, h]
    rfl

-- Properties that are read in their order are appended.
theorem foldlM_additional (c : ConnectionSettings) (properties : List (Text × Text))
    (hascending : Ascending (c.additional ++ properties)) (hother : ∀ p ∈ properties, isKnown p.1 = false) :
    properties.foldlM setPair c = .ok { c with additional := c.additional ++ properties } := by
  induction properties generalizing c with
  | nil => rw [List.append_nil]; rfl
  | cons p rest ih =>
    have hlast : insertProperty p.1 p.2 c.additional = c.additional ++ [p] := by
      refine ConnectionSettings.insertProperty_of_forall_lt fun q hq => ?_
      exact (List.pairwise_append.mp hascending).2.2 q hq p (List.mem_cons_self ..)
    have hset : setPair c p = .ok { c with additional := c.additional ++ [p] } := by
      rw [← hlast]
      exact setPair_of_not_isKnown (hother p (List.mem_cons_self ..))
    rw [List.foldlM_cons, hset]
    refine (ih { c with additional := c.additional ++ [p] } ?_
      fun q hq => hother q (List.mem_cons_of_mem p hq)).trans ?_
    · rwa [List.append_assoc]
    · rw [List.append_assoc]
      rfl

-- A blank user name or password is as good as none.
def withoutBlanks (c : ConnectionSettings) : ConnectionSettings :=
  { c with username := kept c.username, password := kept c.password }

-- One setting after the other, in the order in which they are written.
theorem foldlM_pairsOf (h : WasRead c) : (pairsOf c).foldlM setPair {} = .ok (withoutBlanks c) := by
  let login : ConnectionSettings :=
    { hostname := c.hostname, port := c.port, username := kept c.username, password := kept c.password,
      database := c.database }
  let limited : ConnectionSettings :=
    { login with
      connectionTimeout := c.connectionTimeout, commandTimeout := c.commandTimeout,
      minPoolSize := c.minPoolSize, maxPoolSize := c.maxPoolSize }
  have hhost : [entry "Host" c.hostname].foldlM setPair {} = .ok { hostname := c.hostname } := rfl
  have hport := foldlM_integer "Port" (fun o => { hostname := c.hostname, port := o }) h.port fun _ => rfl
  have husername := foldlM_unlessBlank "Username"
    (fun t => { hostname := c.hostname, port := c.port, username := t }) c.username fun _ => rfl
  have hpassword := foldlM_unlessBlank "Password" (fun t => { login with password := t, database := [] })
    c.password fun _ => rfl
  have hdatabase : [entry "Database" c.database].foldlM setPair { login with database := [] } = .ok login :=
    rfl
  have htimeout := foldlM_integer "Timeout" (fun o => { login with connectionTimeout := o })
    h.connectionTimeout fun _ => rfl
  have hcommand := foldlM_integer "Command Timeout"
    (fun o => { limited with commandTimeout := o, minPoolSize := none, maxPoolSize := none })
    h.commandTimeout fun _ => rfl
  have hlow := foldlM_integer "Minimum Pool Size"
    (fun o => { limited with minPoolSize := o, maxPoolSize := none }) h.minPoolSize fun _ => rfl
  have hhigh := foldlM_integer "Maximum Pool Size" (fun o => { limited with maxPoolSize := o })
    h.maxPoolSize fun _ => rfl
  have hpooling := foldlM_optional "Pooling" booleanText (fun o => { limited with pooling := o }) c.pooling
    fun b _ => by cases b <;> rfl
  have hssl := foldlM_optional "SSL Mode" SslMode.name
    (fun o => { limited with pooling := c.pooling, sslMode := o }) c.sslMode
    fun mode _ => by cases mode <;> rfl
  have hadditional := foldlM_additional { limited with pooling := c.pooling, sslMode := c.sslMode }
    c.additional h.ascending fun p hp => (h.keys p hp).2
  have hlogin := foldlM_append (foldlM_append (foldlM_append (foldlM_append hhost hport) husername) hpassword)
    hdatabase
  have hlimited := foldlM_append (foldlM_append (foldlM_append (foldlM_append hlogin htimeout) hcommand) hlow)
    hhigh
  exact foldlM_append (foldlM_append (foldlM_append hlimited hpooling) hssl) hadditional

-- The names that settings are written under.
def writtenNames : List Text :=
  ["Host", "Port", "Username", "Password", "Database", "Timeout", "Command Timeout", "Minimum Pool Size",
    "Maximum Pool Size", "Pooling", "SSL Mode"]

theorem isKey_of_mem_writtenNames {name : Text} (h : name ∈ writtenNames) : IsKey name := by
  have hall : ∀ name ∈ writtenNames, trimmed name = name ∧ name ≠ [] ∧
      ∀ c ∈ name, c ≠ Byte.semicolon ∧ c ≠ Byte.equals := by decide +kernel
  obtain ⟨htrimmed, hnonempty, hbytes⟩ := hall name h
  exact ⟨htrimmed, hnonempty, hbytes⟩

theorem fst_of_mem_optional {α : Type} {key : String} {toText : α → Text} {o : Option α}
    (h : pair ∈ optional key toText o) : pair.1 = Text.ofString key := by
  cases o with
  | none => cases h
  | some a => rw [List.mem_singleton.mp h]

theorem fst_of_mem_unlessBlank {key : String} (h : pair ∈ unlessBlank key value) :
    pair.1 = Text.ofString key := by
  unfold unlessBlank at h
  split at h
  · cases h
  · rw [List.mem_singleton.mp h, entry]

theorem isKey_of_mem_pairsOf (h : WasRead c) (hpair : pair ∈ pairsOf c) : IsKey pair.1 := by
  have hwritten (key : String) (hkey : Text.ofString key ∈ writtenNames)
      (hfst : pair.1 = Text.ofString key) : IsKey pair.1 := by
    rw [hfst]
    exact isKey_of_mem_writtenNames hkey
  simp only [pairsOf, List.mem_append, List.mem_singleton] at hpair
  rcases hpair with ((((((((((hhost | hport) | husername) | hpassword) | hdatabase) | htimeout) | hcommand) |
    hlow) | hhigh) | hpooling) | hssl) | hadditional
  · exact hwritten "Host" (by decide) (by rw [hhost, entry])
  · exact hwritten "Port" (by decide) (fst_of_mem_optional hport)
  · exact hwritten "Username" (by decide) (fst_of_mem_unlessBlank husername)
  · exact hwritten "Password" (by decide) (fst_of_mem_unlessBlank hpassword)
  · exact hwritten "Database" (by decide) (by rw [hdatabase, entry])
  · exact hwritten "Timeout" (by decide) (fst_of_mem_optional htimeout)
  · exact hwritten "Command Timeout" (by decide) (fst_of_mem_optional hcommand)
  · exact hwritten "Minimum Pool Size" (by decide) (fst_of_mem_optional hlow)
  · exact hwritten "Maximum Pool Size" (by decide) (fst_of_mem_optional hhigh)
  · exact hwritten "Pooling" (by decide) (fst_of_mem_optional hpooling)
  · exact hwritten "SSL Mode" (by decide) (fst_of_mem_optional hssl)
  · exact (h.keys pair hadditional).1

-- Connection strings as a whole.

theorem not_blank_join (c : ConnectionSettings) : (trimmed (join (pairsOf c))).isEmpty = false := by
  obtain ⟨rest, hrest⟩ : ∃ rest, pairsOf c = entry "Host" c.hostname :: rest := ⟨_, rfl⟩
  obtain ⟨initial, more, hinitial, hkept⟩ : ∃ initial more, Text.ofString "Host" = initial :: more ∧
      isBlank initial = false := ⟨_, _, rfl, rfl⟩
  have hmem : initial ∈ join (pairsOf c) := by
    rw [hrest, join, List.map_cons, Text.join_cons, pairText, entry, hinitial]
    exact List.mem_append_left _ (List.mem_append_left _ (List.mem_cons_self ..))
  exact List.isEmpty_eq_false_iff.mpr (Text.trimBy_ne_nil hmem hkept)

theorem wasRead_of_parse {t : Text} {s : Settings} (h : parse t = .ok s) :
    WasRead s.connection ∧ s.validate = .ok () ∧ s = { connection := s.connection } := by
  unfold parse at h
  split at h
  · cases h
  · obtain ⟨found, hfound, h⟩ := Result.bind_eq_ok.mp h
    obtain ⟨connection, hconnection, h⟩ := Result.bind_eq_ok.mp h
    obtain ⟨⟨⟩, hvalid, h⟩ := Result.bind_eq_ok.mp h
    cases h
    exact ⟨WasRead.empty.foldlM_setPair (isKey_of_pairs hfound) hconnection, hvalid, rfl⟩

-- What has been parsed can be written, if it has a host and a database, and
-- is parsed again to the same settings. Only a user name or a password of
-- blanks is left out.
theorem parse_of_build {t : Text} {s : Settings} (h : parse t = .ok s)
    (hhost : (trimmed s.connection.hostname).isEmpty = false)
    (hdatabase : (trimmed s.connection.database).isEmpty = false) :
    ∃ text, build s = .ok text ∧
      parse text = .ok { s with connection := withoutBlanks s.connection } := by
  obtain ⟨hread, hvalid, hdefault⟩ := wasRead_of_parse h
  refine ⟨join (pairsOf s.connection), ?_, ?_⟩
  · rw [build, hhost, hdatabase]
    rfl
  · have hpairs : pairs (join (pairsOf s.connection)) = .ok (pairsOf s.connection) :=
      pairs_join fun pair hpair => isKey_of_mem_pairsOf hread hpair
    -- Neither the port nor the sizes of the pool have changed.
    have hvalid' : Settings.validate { connection := withoutBlanks s.connection } = .ok () := by
      rw [hdefault] at hvalid
      exact hvalid
    rw [parse, not_blank_join, if_neg Bool.false_ne_true, hpairs]
    simp only [bind, Except.bind, foldlM_pairsOf hread, hvalid']
    rw [hdefault]
    rfl

-- Aliases in any case, quotes within quotes, and properties out of order.
def quotedSettings : Text :=
  " SERVER = \"db;1\" ;; User Id=\"a\"\"b\";pwd=x y ;DB=d;" ++
    "Timeout= +007;sslmode=verify_full;Zone=\" \";App Name=it's"

def rewrittenSettings : Text :=
  "Host=\"db;1\";Username=\"a\"\"b\";Password=x y;Database=d;" ++
    "Timeout=7;SSL Mode=VerifyFull;App Name=\"it's\";Zone=\" \""

theorem parse_of_build_quotedSettings : ∃ s, parse quotedSettings = .ok s ∧
    (trimmed s.connection.hostname).isEmpty = false ∧ (trimmed s.connection.database).isEmpty = false ∧
    withoutBlanks s.connection = s.connection ∧ build s = .ok rewrittenSettings ∧
    parse rewrittenSettings = .ok s := by
  obtain ⟨s, hs, hhost, hdatabase, hkept, hbuilt⟩ : ∃ s, parse quotedSettings = .ok s ∧
      (trimmed s.connection.hostname).isEmpty = false ∧
      (trimmed s.connection.database).isEmpty = false ∧ withoutBlanks s.connection = s.connection ∧
      build s = .ok rewrittenSettings := ⟨_, rfl, rfl, rfl, rfl, rfl⟩
  obtain ⟨text, htext, hparsed⟩ := parse_of_build hs hhost hdatabase
  obtain rfl : text = rewrittenSettings := Except.ok.inj (htext.symm.trans hbuilt)
  rw [hkept] at hparsed
  exact ⟨s, hs, hhost, hdatabase, hkept, hbuilt, hparsed⟩

-- A password of blanks is lost.
def blankPassword : Text := "Host=h;Database=d;Password=\"  \""

theorem blankPassword_lost : ∃ s text s', parse blankPassword = .ok s ∧
    (trimmed s.connection.hostname).isEmpty = false ∧ (trimmed s.connection.database).isEmpty = false ∧
    build s = .ok text ∧ parse text = .ok s' ∧ s'.connection ≠ s.connection :=
  ⟨_, _, _, rfl, rfl, rfl, rfl, rfl, by decide⟩

end EntitySql.ConnectionString
