import EntitySql.Proofs.Run
import EntitySql.Proofs.Text.Join
import EntitySql.Proofs.Text.Span
import EntitySql.Settings.ConnectionString

-- Connection strings as texts of pairs: what has been joined is split into the
-- same pairs, whatever the values are, and every key that is ever found can
-- be joined again.

namespace EntitySql.ConnectionString

-- The keys that can stand in a connection string.
structure IsKey (key : Text) : Prop where
  trimmed : trimmed key = key
  nonempty : key ≠ []
  bytes : ∀ c ∈ key, c ≠ Byte.semicolon ∧ c ≠ Byte.equals

variable {key text value s rest : Text} {others : List (Text × Text)}

theorem isSpace_of_isBlank {c : UInt8} (h : isBlank c = true) : Byte.isSpace c = true := by
  simp only [isBlank, Bool.or_eq_true, beq_iff_eq] at h
  rcases h with ((rfl | rfl) | rfl) | rfl <;> decide

-- Splitting, one part of a pair after the other.

theorem split_key (hs : ∀ c ∈ s, c ≠ Byte.semicolon ∧ c ≠ Byte.equals) :
    split (.key text) (s ++ Byte.equals :: rest) =
      (endKey (text ++ s) >>= fun key => split (.gap key) rest) := by
  induction s generalizing text with
  | nil =>
    rw [List.nil_append, List.append_nil, split, if_neg (by decide), if_pos rfl]
  | cons c s ih =>
    obtain ⟨hsemicolon, hequals⟩ := hs c (List.mem_cons_self ..)
    rw [List.cons_append, split, if_neg hsemicolon, if_neg hequals,
      ih fun d hd => hs d (List.mem_cons_of_mem c hd), List.append_assoc]
    rfl

-- The rest of a text behind a pair, with the pairs that stand there.
inductive Continues : Text → List (Text × Text) → Prop where
  | done : Continues [] []
  | more {rest : Text} {others : List (Text × Text)} (h : split (.key []) rest = .ok others) :
    Continues (Byte.semicolon :: rest) others

theorem split_bare (hs : ∀ c ∈ s, c ≠ Byte.semicolon) (hrest : Continues rest others) :
    split (.bare key text) (s ++ rest) = .ok ((key, trimmed (text ++ s)) :: others) := by
  induction s generalizing text with
  | nil =>
    rw [List.nil_append, List.append_nil]
    cases hrest with
    | done => rfl
    | more h =>
      rw [split, if_pos rfl, h]
      rfl
  | cons c s ih =>
    rw [List.cons_append, split, if_neg (hs c (List.mem_cons_self ..)),
      ih fun d hd => hs d (List.mem_cons_of_mem c hd), List.append_assoc]
    rfl

theorem split_onQuote (hrest : Continues rest others) :
    split (.onQuote key text) rest = .ok ((key, text) :: others) := by
  cases hrest with
  | done => rfl
  | more h =>
    rw [split, if_neg (by decide), if_pos rfl, h]
    rfl

theorem split_quoted (hrest : Continues rest others) :
    split (.quoted key text) (value.flatMap quoteByte ++ Byte.doubleQuote :: rest) =
      .ok ((key, text ++ value) :: others) := by
  induction value generalizing text with
  | nil =>
    rw [List.flatMap_nil, List.nil_append, List.append_nil, split, if_pos rfl, split_onQuote hrest]
  | cons c value ih =>
    have hnext : split (.quoted key (text ++ [c])) (value.flatMap quoteByte ++ Byte.doubleQuote :: rest) =
        .ok ((key, text ++ [c] ++ value) :: others) := ih
    rw [List.append_assoc] at hnext
    rw [List.flatMap_cons, quoteByte]
    by_cases hc : c = Byte.doubleQuote
    · subst hc
      -- A quote within the value stands twice, and the scanner takes it for the
      -- last one until it meets the second.
      rw [if_pos rfl, List.append_assoc, List.cons_append, List.cons_append, List.nil_append, split,
        if_pos rfl, split, if_pos rfl]
      exact hnext
    · rw [if_neg hc, List.append_assoc, List.singleton_append, split, if_neg hc]
      exact hnext

theorem not_isSpecial_of_needsQuotes (h : needsQuotes value = false) {c : UInt8} (hc : c ∈ value) :
    isSpecial c = false := by
  rw [needsQuotes, Bool.or_eq_false_iff, Bool.or_eq_false_iff] at h
  exact Bool.eq_false_iff.mpr (List.any_eq_false.mp h.1.1 c hc)

theorem not_isSpace_of_startsBlank (h : startsBlank value = false) {c : UInt8}
    (hc : value.head? = some c) : Byte.isSpace c = false := by
  rw [startsBlank, hc] at h
  exact h

-- A value without quotes is left alone by trimming.
theorem trimmed_of_needsQuotes (h : needsQuotes value = false) : trimmed value = value := by
  rw [needsQuotes, Bool.or_eq_false_iff, Bool.or_eq_false_iff] at h
  have hkept : ∀ t : Text, startsBlank t = false → ∀ c ∈ t.head?, isBlank c = false := by
    intro t ht c hc
    rw [← Bool.not_eq_true]
    intro hblank
    have hspace := isSpace_of_isBlank hblank
    rw [not_isSpace_of_startsBlank ht hc] at hspace
    cases hspace
  exact Text.trimBy_eq_self (hkept value h.1.2) (hkept value.reverse h.2)

theorem split_gap (hrest : Continues rest others) :
    split (.gap key) (quoteValue value ++ rest) = .ok ((key, value) :: others) := by
  rw [quoteValue]
  cases hquotes : needsQuotes value with
  | true =>
    rw [if_pos rfl, List.cons_append, List.cons_append, split, if_neg (by decide), if_pos rfl,
      List.append_assoc]
    exact split_quoted hrest
  | false =>
    rw [if_neg Bool.false_ne_true]
    cases hvalue : value with
    | nil =>
      rw [List.nil_append]
      cases hrest with
      | done => rfl
      | more h =>
        rw [split, if_neg (by decide), if_neg (by decide), if_pos rfl, h]
        rfl
    | cons c text =>
      have hplain : ∀ d ∈ value, isSpecial d = false := fun d hd => not_isSpecial_of_needsQuotes hquotes hd
      have hdiffer : ∀ d ∈ value, d ≠ Byte.semicolon ∧ d ≠ Byte.doubleQuote := by
        intro d hd
        have hd := hplain d hd
        constructor <;> rintro rfl <;> cases hd
      have hspace : Byte.isSpace c = false := by
        rw [needsQuotes, Bool.or_eq_false_iff, Bool.or_eq_false_iff] at hquotes
        exact not_isSpace_of_startsBlank hquotes.1.2 (by rw [hvalue]; rfl)
      have hnogap : ¬(c = Byte.space ∨ c = Byte.tab) := by
        rintro (rfl | rfl) <;> cases hspace
      rw [hvalue] at hdiffer
      obtain ⟨hsemicolon, hquote⟩ := hdiffer c (List.mem_cons_self ..)
      have hrest' : ∀ d ∈ text, d ≠ Byte.semicolon := fun d hd => (hdiffer d (List.mem_cons_of_mem c hd)).1
      rw [List.cons_append, split, if_neg hnogap, if_neg hquote, if_neg hsemicolon, split_bare hrest' hrest,
        List.singleton_append, ← hvalue, trimmed_of_needsQuotes hquotes]

theorem split_pairText {pair : Text × Text} (hkey : IsKey pair.1) (hrest : Continues rest others) :
    split (.key []) (pairText pair ++ rest) = .ok (pair :: others) := by
  have hend : endKey pair.1 = .ok pair.1 := by
    rw [endKey, hkey.trimmed, if_neg (by simpa using hkey.nonempty)]
  rw [pairText, List.append_assoc, List.cons_append, split_key hkey.bytes, List.nil_append, hend]
  exact split_gap hrest

-- Splitting undoes joining.
theorem pairs_join {list : List (Text × Text)} (hkeys : ∀ pair ∈ list, IsKey pair.1) :
    pairs (join list) = .ok list := by
  induction list with
  | nil => rfl
  | cons pair list ih =>
    have hpair := hkeys pair (List.mem_cons_self ..)
    have hlist := ih fun other hother => hkeys other (List.mem_cons_of_mem pair hother)
    cases list with
    | nil =>
      have hlast := split_pairText hpair .done
      rw [List.append_nil] at hlast
      exact hlast
    | cons next list =>
      have hjoin : join (pair :: next :: list) = pairText pair ++ Byte.semicolon :: join (next :: list) := by
        simp [join, Text.join]
      rw [pairs, hjoin]
      exact split_pairText hpair (.more hlist)

-- Keys that are found.

namespace Position

-- What can be said of the key of a pair before and behind its end.
def Keyed : Position → Prop
  | .key text => ∀ c ∈ text, c ≠ Byte.semicolon ∧ c ≠ Byte.equals
  | .gap key => IsKey key
  | .bare key _ => IsKey key
  | .quoted key _ => IsKey key
  | .onQuote key _ => IsKey key
  | .behind key _ _ => IsKey key

end Position

theorem isKey_of_endKey (htext : ∀ c ∈ text, c ≠ Byte.semicolon ∧ c ≠ Byte.equals)
    (h : endKey text = .ok key) : IsKey key := by
  rw [endKey] at h
  split at h
  · cases h
  · next hne =>
    cases h
    refine ⟨Text.trimBy_trimBy _ _, by simpa using hne, fun c hc => ?_⟩
    exact htext c (Text.mem_of_mem_trimBy hc)

theorem isKey_of_split_nil {p : Position} {found : List (Text × Text)} (hp : p.Keyed)
    (h : split p [] = .ok found) : ∀ pair ∈ found, IsKey pair.1 := by
  have hone : ∀ {key value : Text}, IsKey key → ∀ pair ∈ [(key, value)], IsKey pair.1 :=
    fun hkey => List.forall_mem_singleton.mpr hkey
  cases p with
  | key text =>
    obtain ⟨_, -, h⟩ := Result.bind_eq_ok.mp h
    cases h
    exact List.forall_mem_nil _
  | quoted key text => cases h
  | behind key value text =>
    obtain ⟨_, -, h⟩ := Result.bind_eq_ok.mp h
    cases h
    exact hone hp
  | gap key =>
    cases h
    exact hone hp
  | bare key text =>
    cases h
    exact hone hp
  | onQuote key text =>
    cases h
    exact hone hp

theorem isKey_of_split {p : Position} {t : Text} {found : List (Text × Text)} (hp : p.Keyed)
    (h : split p t = .ok found) : ∀ pair ∈ found, IsKey pair.1 := by
  induction t generalizing p found with
  | nil => exact isKey_of_split_nil hp h
  | cons c t ih =>
    have hstart : (Position.key []).Keyed := by simp [Position.Keyed]
    -- A semicolon ends the pair, and the next key begins.
    have hpair : ∀ {key value : Text}, IsKey key →
        (do let others ← split (.key []) t; return (key, value) :: others) = Except.ok found →
        ∀ pair ∈ found, IsKey pair.1 := by
      intro key value hkey h
      obtain ⟨others, hothers, h⟩ := Result.bind_eq_ok.mp h
      cases h
      exact List.forall_mem_cons.mpr ⟨hkey, ih hstart hothers⟩
    cases p with
    | key text =>
      rw [split] at h
      split at h
      · obtain ⟨_, -, h⟩ := Result.bind_eq_ok.mp h
        exact ih hstart h
      · next hsemicolon =>
        split at h
        · obtain ⟨key, hkey, h⟩ := Result.bind_eq_ok.mp h
          have hfound : (Position.gap key).Keyed := isKey_of_endKey hp hkey
          exact ih hfound h
        · next hequals =>
          have hlonger : (Position.key (text ++ [c])).Keyed := by
            intro d hd
            rcases List.mem_append.mp hd with hd | hd
            · exact hp d hd
            · rw [List.mem_singleton.mp hd]
              exact ⟨hsemicolon, hequals⟩
          exact ih hlonger h
    | gap key =>
      rw [split] at h
      split at h
      · exact ih (p := .gap key) hp h
      split at h
      · exact ih (p := .quoted key []) hp h
      split at h
      · exact hpair hp h
      · exact ih (p := .bare key [c]) hp h
    | bare key text =>
      rw [split] at h
      split at h
      · exact hpair hp h
      · exact ih (p := .bare key (text ++ [c])) hp h
    | quoted key text =>
      rw [split] at h
      split at h
      · exact ih (p := .onQuote key text) hp h
      · exact ih (p := .quoted key (text ++ [c])) hp h
    | onQuote key text =>
      rw [split] at h
      split at h
      · exact ih (p := .quoted key (text ++ [c])) hp h
      split at h
      · exact hpair hp h
      · exact ih (p := .behind key text [c]) hp h
    | behind key value text =>
      rw [split] at h
      split at h
      · obtain ⟨_, -, h⟩ := Result.bind_eq_ok.mp h
        exact hpair hp h
      · exact ih (p := .behind key value (text ++ [c])) hp h

theorem isKey_of_pairs {t : Text} {found : List (Text × Text)} (h : pairs t = .ok found) :
    ∀ pair ∈ found, IsKey pair.1 :=
  isKey_of_split (p := .key []) (by simp [Position.Keyed]) h

end EntitySql.ConnectionString
