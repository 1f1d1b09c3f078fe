import EntitySql.Proofs.Settings.Pairs

-- Connection strings read with a cursor: from where a pair begins, the next equals
-- sign and the next semicolon are searched for. The splitter, which goes byte by
-- byte, finds the same pairs and the same fault.

namespace EntitySql.ConnectionString

variable {key text value t : Text} {stop : UInt8}

-- The text in front of the next byte of a kind, and what is left behind it.

def upTo (stop : UInt8) (t : Text) : Text := t.takeWhile (· ≠ stop)

def past (stop : UInt8) (t : Text) : Text := (t.dropWhile (· ≠ stop)).tail

@[simp] theorem upTo_nil : upTo stop [] = [] := rfl

@[simp] theorem past_nil : past stop [] = [] := rfl

@[simp] theorem upTo_cons_self : upTo stop (stop :: t) = [] := by simp [upTo]

@[simp] theorem past_cons_self : past stop (stop :: t) = t := by simp [past]

theorem upTo_cons {c : UInt8} (h : c ≠ stop) : upTo stop (c :: t) = c :: upTo stop t := by
  simp [upTo, h]

theorem past_cons {c : UInt8} (h : c ≠ stop) : past stop (c :: t) = past stop t := by
  simp [past, h]

theorem length_past_le (stop : UInt8) (t : Text) : (past stop t).length ≤ t.length := by
  rw [past, List.length_tail]
  have := (List.dropWhile_sublist (l := t) (· ≠ stop)).length_le
  omega

theorem length_past_lt (stop : UInt8) (h : t ≠ []) : (past stop t).length < t.length := by
  rw [past, List.length_tail]
  have hle := (List.dropWhile_sublist (l := t) (· ≠ stop)).length_le
  have hpos := List.length_pos_iff.mpr h
  omega

def isGap (c : UInt8) : Bool := c == Byte.space || c == Byte.tab

-- The content up to the closing quote, in which a quote stands twice, and what is
-- left behind that.
def unquote : Text → Option (Text × Text)
  | [] => none
  | [c] => if c = Byte.doubleQuote then some ([], []) else none
  | c :: d :: rest =>
    if c ≠ Byte.doubleQuote then (unquote (d :: rest)).map fun p => (c :: p.1, p.2)
    else if d = Byte.doubleQuote then (unquote rest).map fun p => (c :: p.1, p.2)
    else some ([], d :: rest)

theorem length_of_unquote {content rest : Text} (h : unquote t = some (content, rest)) :
    rest.length < t.length := by
  have hlonger {n : Nat} {found : Option (Text × Text)} {c : UInt8} {content : Text}
      (ih : ∀ {content}, found = some (content, rest) → rest.length < n)
      (h : found.map (fun p => (c :: p.1, p.2)) = some (content, rest)) : rest.length < n := by
    obtain ⟨⟨inner, _⟩, hfound, h⟩ := Option.map_eq_some_iff.mp h
    cases h
    exact ih hfound
  induction t using unquote.induct generalizing content with
  | case1 => cases h
  | case2 =>
    cases h
    simp
  | case3 c hc => simp [unquote, hc] at h
  | case4 c d more hc ih =>
    rw [unquote, if_pos hc] at h
    have := hlonger ih h
    simp only [List.length_cons] at this ⊢
    omega
  | case5 c more hc ih =>
    rw [unquote, if_neg hc, if_pos rfl] at h
    have := hlonger ih h
    simp only [List.length_cons] at this ⊢
    omega
  | case6 c d more hc hd =>
    rw [unquote, if_neg hc, if_neg hd] at h
    cases h
    simp

-- Where the value of the next pair begins.
def valueOf (t : Text) : Text := (past Byte.equals t).dropWhile isGap

theorem length_valueOf_lt (h : t ≠ []) : (valueOf t).length < t.length :=
  Nat.lt_of_le_of_lt (List.dropWhile_sublist isGap).length_le (length_past_lt Byte.equals h)

-- The pairs of a text, one round for each segment. Every round leaves less of it.
def searched (t : Text) : Result (List (Text × Text)) :=
  if _ : t = [] then .ok []
  else if Byte.equals ∉ upTo Byte.semicolon t then do
    endSegment (upTo Byte.semicolon t)
    searched (past Byte.semicolon t)
  else do
    let key ← endKey (upTo Byte.equals t)
    if (valueOf t).head? = some Byte.doubleQuote then
      match _ : unquote (valueOf t).tail with
      | none => fail (.unterminatedQuote key)
      | some (content, rest) => do
        endQuoted key (upTo Byte.semicolon rest)
        let others ← searched (past Byte.semicolon rest)
        return (key, content) :: others
    else do
      let others ← searched (past Byte.semicolon (valueOf t))
      return (key, trimmed (upTo Byte.semicolon (valueOf t))) :: others
termination_by t.length
decreasing_by
  · exact length_past_lt Byte.semicolon ‹_›
  · have hrest := length_of_unquote ‹_›
    have htail := (valueOf t).length_tail
    have hvalue := length_valueOf_lt ‹t ≠ []›
    have hpast := length_past_le Byte.semicolon rest
    omega
  · exact Nat.lt_of_le_of_lt (length_past_le ..) (length_valueOf_lt ‹_›)

-- The splitter from each of its positions on, up to the end of the segment.

theorem split_semicolon (hs : Byte.equals ∉ upTo Byte.semicolon t) :
    split (.key text) t = (do
      endSegment (text ++ upTo Byte.semicolon t)
      split (.key []) (past Byte.semicolon t)) := by
  induction t generalizing text with
  | nil =>
    rw [upTo_nil, past_nil, List.append_nil]
    rfl
  | cons c rest ih =>
    by_cases hc : c = Byte.semicolon
    · subst hc
      rw [split, if_pos rfl, upTo_cons_self, past_cons_self, List.append_nil]
    · rw [upTo_cons hc, List.mem_cons, not_or] at hs
      rw [split, if_neg hc, if_neg (Ne.symm hs.1), ih hs.2, upTo_cons hc, past_cons hc,
        List.append_assoc]
      rfl

theorem split_equals (hs : Byte.equals ∈ upTo Byte.semicolon t) :
    split (.key text) t = (do
      let key ← endKey (text ++ upTo Byte.equals t)
      split (.gap key) (past Byte.equals t)) := by
  induction t generalizing text with
  | nil => simp at hs
  | cons c rest ih =>
    have hsemicolon : c ≠ Byte.semicolon := by
      rintro rfl
      simp at hs
    rw [split, if_neg hsemicolon]
    by_cases hc : c = Byte.equals
    · subst hc
      rw [if_pos rfl, upTo_cons_self, past_cons_self, List.append_nil]
    · rw [upTo_cons hsemicolon, List.mem_cons] at hs
      rw [if_neg hc, ih (hs.resolve_left (Ne.symm hc)), upTo_cons hc, past_cons hc,
        List.append_assoc]
      rfl

theorem split_gap_dropWhile (key t : Text) :
    split (.gap key) t = split (.gap key) (t.dropWhile isGap) := by
  induction t with
  | nil => rfl
  | cons c rest ih =>
    cases hc : isGap c with
    | true =>
      have hspace : c = Byte.space ∨ c = Byte.tab := by simpa [isGap] using hc
      rw [split, if_pos hspace, ih, List.dropWhile_cons_of_pos hc]
    | false => rw [List.dropWhile_cons_of_neg (by simp [hc])]

-- A position that gathers the text up to the next semicolon, and makes a pair of it.
theorem split_of_gathers (position : Text → Position) (close : Text → Result (Text × Text))
    (hend : ∀ text, split (position text) [] = (do return [← close text]))
    (hnext : ∀ text c rest, split (position text) (c :: rest) =
      if c = Byte.semicolon then do
        let pair ← close text
        let others ← split (.key []) rest
        return pair :: others
      else split (position (text ++ [c])) rest) (text t : Text) :
    split (position text) t = (do
      let pair ← close (text ++ upTo Byte.semicolon t)
      let others ← split (.key []) (past Byte.semicolon t)
      return pair :: others) := by
  induction t generalizing text with
  | nil =>
    rw [hend, upTo_nil, List.append_nil]
    rfl
  | cons c rest ih =>
    by_cases hc : c = Byte.semicolon
    · subst hc
      rw [hnext, if_pos rfl, upTo_cons_self, past_cons_self, List.append_nil]
    · rw [hnext, if_neg hc, ih, upTo_cons hc, past_cons hc, List.append_assoc]
      rfl

theorem split_bare_eq (key text t : Text) :
    split (.bare key text) t = (do
      let others ← split (.key []) (past Byte.semicolon t)
      return (key, trimmed (text ++ upTo Byte.semicolon t)) :: others) :=
  split_of_gathers (.bare key) (fun text => .ok (key, trimmed text)) (fun _ => rfl)
    (fun _ _ _ => by rw [split]; rfl) text t

theorem split_behind_eq (key value text t : Text) :
    split (.behind key value text) t = (do
      endQuoted key (text ++ upTo Byte.semicolon t)
      let others ← split (.key []) (past Byte.semicolon t)
      return (key, value) :: others) := by
  have hgathers := split_of_gathers (.behind key value)
    (fun text => do
      endQuoted key text
      return (key, value))
    (fun text => by simp [split]) (fun text c rest => by simp [split]) text t
  simpa using hgathers

-- A quote that no other follows closes the value.
theorem split_onQuote_eq (key text : Text) (h : t.head? ≠ some Byte.doubleQuote) :
    split (.onQuote key text) t = (do
      endQuoted key (upTo Byte.semicolon t)
      let others ← split (.key []) (past Byte.semicolon t)
      return (key, text) :: others) := by
  cases t with
  | nil => rfl
  | cons c rest =>
    have hquote : c ≠ Byte.doubleQuote := by
      rintro rfl
      exact h rfl
    rw [split, if_neg hquote]
    by_cases hc : c = Byte.semicolon
    · subst hc
      rw [if_pos rfl, upTo_cons_self, past_cons_self]
      rfl
    · rw [if_neg hc, split_behind_eq, upTo_cons hc, past_cons hc]
      rfl

theorem split_quoted_eq (key text t : Text) :
    split (.quoted key text) t = match unquote t with
      | none => fail (.unterminatedQuote key)
      | some (content, rest) => do
        endQuoted key (upTo Byte.semicolon rest)
        let others ← split (.key []) (past Byte.semicolon rest)
        return (key, text ++ content) :: others := by
  induction t using unquote.induct generalizing text with
  | case1 => rfl
  | case2 =>
    rw [split, if_pos rfl, split_onQuote_eq key text (by simp)]
    simp [unquote]
  | case3 c hc =>
    rw [split, if_neg hc]
    simp [unquote, hc, split]
  | case4 c d rest hc ih =>
    rw [split, if_neg hc, ih, unquote, if_pos hc]
    cases unquote (d :: rest) <;> simp
  | case5 c rest hc ih =>
    obtain rfl : c = Byte.doubleQuote := by simpa using hc
    rw [split, if_pos rfl, split, if_pos rfl, ih, unquote, if_neg hc, if_pos rfl]
    cases unquote rest <;> simp
  | case6 c d rest hc hd =>
    obtain rfl : c = Byte.doubleQuote := by simpa using hc
    rw [split, if_pos rfl, split_onQuote_eq key text (by simpa using hd), unquote, if_neg hc,
      if_neg hd]
    simp

theorem split_gap_eq (key : Text) (h : ∀ c ∈ value.head?, isGap c = false) :
    split (.gap key) value =
      if value.head? = some Byte.doubleQuote then split (.quoted key []) value.tail
      else do
        let others ← split (.key []) (past Byte.semicolon value)
        return (key, trimmed (upTo Byte.semicolon value)) :: others := by
  cases value with
  | nil => rfl
  | cons c rest =>
    have hspace : ¬(c = Byte.space ∨ c = Byte.tab) := by simpa [isGap] using h c rfl
    rw [split, if_neg hspace]
    by_cases hquote : c = Byte.doubleQuote
    · subst hquote
      rfl
    · have hhead : (c :: rest).head? ≠ some Byte.doubleQuote := by simpa using hquote
      rw [if_neg hquote, if_neg hhead]
      by_cases hc : c = Byte.semicolon
      · subst hc
        rw [if_pos rfl, upTo_cons_self, past_cons_self]
        rfl
      · rw [if_neg hc, split_bare_eq, upTo_cons hc, past_cons hc]
        rfl

theorem split_eq_searched (t : Text) : split (.key []) t = searched t := by
  induction t using searched.induct with
  | case1 =>
    rw [searched, dif_pos rfl]
    rfl
  | case2 t ht hs ih =>
    rw [split_semicolon hs, searched, dif_neg ht, if_pos hs, ih]
    rfl
  | case3 t ht hs ihquoted ihbare =>
    rw [split_equals (not_not.mp hs), searched, dif_neg ht, if_neg hs]
    refine bind_congr fun key => ?_
    have hvalue : ∀ c ∈ (valueOf t).head?, isGap c = false := by
      intro c hc
      have hstop := List.head?_dropWhile_not isGap (past Byte.equals t)
      rw [← valueOf, hc] at hstop
      simpa using hstop
    rw [split_gap_dropWhile, ← valueOf, split_gap_eq key hvalue, ihbare]
    split
    · rw [split_quoted_eq]
      split
      · next hnone =>
        split
        · rfl
        · next hsome =>
          rw [hnone] at hsome
          cases hsome
      · next content rest hsome =>
        rw [ihquoted content rest hsome]
        split
        · next hnone =>
          rw [hnone] at hsome
          cases hsome
        · next hsome' =>
          rw [hsome'] at hsome
          cases hsome
          rfl
    · rfl

-- A result, or a fault of the settings.
inductive Answered {α : Type} : Result α → Prop
  | ok (a : α) : Answered (.ok a)
  | fault (fault : ConfigurationFault) : Answered (.error (.configuration fault))

namespace Answered

theorem bind {α β : Type} {x : Result α} {f : α → Result β} (hx : Answered x)
    (hf : ∀ a, Answered (f a)) : Answered (x >>= f) := by
  cases hx with
  | ok a => exact hf a
  | fault fault => exact .fault fault

theorem endSegment (text : Text) : Answered (endSegment text) := by
  unfold ConnectionString.endSegment
  split
  · exact .ok ()
  · exact .fault _

theorem endKey (text : Text) : Answered (endKey text) := by
  unfold ConnectionString.endKey
  split
  · exact .fault _
  · exact .ok _

theorem endQuoted (key text : Text) : Answered (endQuoted key text) := by
  unfold ConnectionString.endQuoted
  split
  · exact .ok ()
  · exact .fault _

theorem searched (t : Text) : Answered (searched t) := by
  induction t using searched.induct with
  | case1 =>
    rw [ConnectionString.searched, dif_pos rfl]
    exact .ok []
  | case2 t ht hs ih =>
    rw [ConnectionString.searched, dif_neg ht, if_pos hs]
    exact (endSegment _).bind fun _ => ih
  | case3 t ht hs ihquoted ihbare =>
    rw [ConnectionString.searched, dif_neg ht, if_neg hs]
    refine (endKey _).bind fun key => ?_
    split
    · split
      · exact .fault _
      · next content rest hsome =>
        exact (endQuoted _ _).bind fun _ => (ihquoted content rest hsome).bind fun _ => .ok _
    · exact ihbare.bind fun _ => .ok _

end Answered

-- A key that stands in a connection string as it is.
structure Joinable (key : Text) : Prop where
  nonempty : key ≠ []
  equals : Byte.equals ∉ key
  semicolon : Byte.semicolon ∉ key
  first : ∀ c ∈ key.head?, isBlank c = false
  last : ∀ c ∈ key.getLast?, isBlank c = false

theorem Joinable.isKey (h : Joinable key) : IsKey key := by
  refine ⟨Text.trimBy_eq_self h.first (by simpa using h.last), h.nonempty, fun c hc => ⟨?_, ?_⟩⟩
  · rintro rfl
    exact h.semicolon hc
  · rintro rfl
    exact h.equals hc

-- Splitting undoes joining, whatever the values are. On every text it finds what the
-- search with a cursor finds, which comes to its end with pairs or with a fault of
-- the settings.
theorem pairs_inverts_join :
    (∀ list : List (Text × Text), (∀ pair ∈ list, Joinable pair.1) → pairs (join list) = .ok list) ∧
      ∀ t, pairs t = searched t ∧ ((∃ found, pairs t = .ok found) ∨
        ∃ fault, pairs t = .error (.configuration fault)) := by
  refine ⟨fun list hkeys => pairs_join fun pair hpair => (hkeys pair hpair).isKey, fun t => ?_⟩
  have hsearched : pairs t = searched t := split_eq_searched t
  refine ⟨hsearched, ?_⟩
  have hanswered := Answered.searched t
  rw [← hsearched] at hanswered
  cases hpairs : pairs t with
  | ok found => exact .inl ⟨found, rfl⟩
  | error e =>
    rw [hpairs] at hanswered
    cases hanswered with
    | fault fault => exact .inr ⟨fault, rfl⟩

-- Values of quotes, of separators, and of white space that is no blank of a
-- connection string; and a pair that looks like another one's end.
def trickyPairs : List (Text × Text) :=
  [("Password", "p;w\"d\"\""), ("a b", "\x0b"), ("User", ""), ("\"k\"", " =x; y='1' ")]

theorem pairs_inverts_join_trickyPairs :
    (∀ pair ∈ trickyPairs, Joinable pair.1) ∧ pairs (join trickyPairs) = .ok trickyPairs := by
  have hedges : ∀ pair ∈ trickyPairs,
      pair.1 ≠ [] ∧ Byte.equals ∉ pair.1 ∧ Byte.semicolon ∉ pair.1 ∧
        (∀ c ∈ pair.1.head?, isBlank c = false) ∧ ∀ c ∈ pair.1.getLast?, isBlank c = false := by
    decide +kernel
  have hkeys : ∀ pair ∈ trickyPairs, Joinable pair.1 := by
    intro pair hpair
    obtain ⟨hnonempty, hequals, hsemicolon, hfirst, hlast⟩ := hedges pair hpair
    exact ⟨hnonempty, hequals, hsemicolon, hfirst, hlast⟩
  exact ⟨hkeys, pairs_inverts_join.1 trickyPairs hkeys⟩

end EntitySql.ConnectionString
