import EntitySql.Proofs.Conversion.ArrayGrammar

-- The reader of array literals takes exactly the written forms of arrays. On the
-- way down it hands its rest from one element to the next, so every statement
-- speaks of what is taken in front of any rest.

namespace EntitySql.Conversion.ArrayLiteral

-- White space.

theorem IsBlank.append {s t : Text} (hs : IsBlank s) (ht : IsBlank t) : IsBlank (s ++ t) := by
  intro c hc
  rcases List.mem_append.mp hc with hc | hc
  · exact hs c hc
  · exact ht c hc

theorem skipSpace_append {blank : Text} (h : IsBlank blank) (t : Text) :
    skipSpace (blank ++ t) = skipSpace t := List.dropWhile_append_of_pos h

theorem skipSpace_cons {c : UInt8} (h : Byte.isSpace c = false) (t : Text) :
    skipSpace (c :: t) = c :: t := List.dropWhile_cons_of_neg (by simp [h])

theorem skipSpace_append_cons {blank : Text} (h : IsBlank blank) {c : UInt8}
    (hc : Byte.isSpace c = false) (t : Text) : skipSpace (blank ++ c :: t) = c :: t := by
  rw [skipSpace_append h, skipSpace_cons hc]

theorem exists_blank (t : Text) : ∃ blank, IsBlank blank ∧ t = blank ++ skipSpace t :=
  ⟨t.takeWhile Byte.isSpace, List.all_eq_true.mp List.all_takeWhile,
    List.takeWhile_append_dropWhile.symm⟩

theorem isBlank_of_skipSpace {t : Text} (h : skipSpace t = []) : IsBlank t := by
  obtain ⟨blank, hblank, ht⟩ := exists_blank t
  rw [h, List.append_nil] at ht
  rwa [ht]

theorem not_isSpace_of_skipSpace {t rest : Text} {c : UInt8} (h : skipSpace t = c :: rest) :
    Byte.isSpace c = false := by
  have hhead := List.head?_dropWhile_not Byte.isSpace t
  rw [show t.dropWhile Byte.isSpace = c :: rest from h] at hhead
  exact hhead

-- Leaves.

theorem takeQuoted?_append {s t : Text} (h : Quoted s t) (rest : Text) :
    takeQuoted? (t ++ Byte.doubleQuote :: rest) = some (s, rest) := by
  induction h with
  | nil =>
    rw [List.nil_append, takeQuoted?.eq_def]
    exact if_pos rfl
  | plain hquote hbackslash _ ih =>
    rw [List.cons_append, takeQuoted?.eq_def]
    dsimp only
    rw [if_neg hquote, if_neg hbackslash, ih]
    rfl
  | escaped c _ ih =>
    rw [List.cons_append, List.cons_append, takeQuoted?.eq_def]
    dsimp only
    rw [if_neg (by decide), if_pos rfl, ih]
    rfl

theorem quoted_of_takeQuoted? {t s rest : Text} (h : takeQuoted? t = some (s, rest)) :
    ∃ spelled, t = spelled ++ Byte.doubleQuote :: rest ∧ Quoted s spelled := by
  fun_induction takeQuoted? t generalizing s with
  | case1 => cases h
  | case2 more =>
    obtain ⟨rfl, rfl⟩ := Prod.mk.inj (Option.some.inj h)
    exact ⟨[], rfl, .nil⟩
  | case3 => cases h
  | case4 escaped more _ ih =>
    obtain ⟨⟨s, rest⟩, htake, heq⟩ := Option.map_eq_some_iff.mp h
    obtain ⟨rfl, rfl⟩ := Prod.mk.inj heq
    obtain ⟨spelled, rfl, hquoted⟩ := ih htake
    exact ⟨Byte.backslash :: escaped :: spelled, rfl, .escaped escaped hquoted⟩
  | case5 c more hquote hbackslash ih =>
    obtain ⟨⟨s, rest⟩, htake, heq⟩ := Option.map_eq_some_iff.mp h
    obtain ⟨rfl, rfl⟩ := Prod.mk.inj heq
    obtain ⟨spelled, rfl, hquoted⟩ := ih htake
    exact ⟨c :: spelled, rfl, .plain hquote hbackslash hquoted⟩

-- What stands behind an element: a comma or a closing brace.
def Stops (rest : Text) : Prop := ∃ c ∈ rest.head?, endsBare c = true

theorem endsBare_of_isSpace {c : UInt8} (h : Byte.isSpace c = true) : endsBare c = false := by
  rw [← Bool.not_eq_true]
  intro hends
  rw [endsBare, Bool.or_eq_true, beq_iff_eq, beq_iff_eq] at hends
  rcases hends with rfl | rfl <;> exact absurd h (by decide)

theorem takeBare?_append {w after rest : Text} (h : IsWord w) (hafter : IsBlank after)
    (hrest : Stops rest) : takeBare? (w ++ (after ++ rest)) = some (w, rest) := by
  have hinside : ∀ c ∈ w ++ after, (!endsBare c) = true := by
    intro c hc
    rcases List.mem_append.mp hc with hc | hc
    · rw [h.inside c hc]
      rfl
    · rw [endsBare_of_isSpace (hafter c hc)]
      rfl
  have hstop : ∀ c ∈ rest.head?, (!endsBare c) = false := by
    obtain ⟨c, hc, hends⟩ := hrest
    intro d hd
    obtain rfl := Option.some.inj (hc.symm.trans hd)
    rw [hends]
    rfl
  have hreverse : ∀ c ∈ after.reverse, Byte.isSpace c = true :=
    fun c hc => hafter c (List.mem_reverse.mp hc)
  rw [takeBare?, ← List.append_assoc, Text.takeWhile_append_of_stop hinside hstop,
    Text.dropWhile_append_of_stop hinside hstop, List.reverse_append,
    Text.dropWhile_append_of_stop hreverse h.last, List.reverse_reverse,
    List.isEmpty_eq_false_iff.mpr h.ne_nil]
  rfl

theorem word_of_takeBare? {t w rest : Text} (h : takeBare? t = some (w, rest)) :
    w ≠ [] ∧ (∀ c ∈ w, endsBare c = false) ∧ (∀ c ∈ w.reverse.head?, Byte.isSpace c = false) ∧
      ∃ after, IsBlank after ∧ t = w ++ (after ++ rest) := by
  obtain ⟨inside, hinside⟩ : ∃ inside, inside = t.takeWhile fun c => !endsBare c := ⟨_, rfl⟩
  rw [takeBare?, ← hinside] at h
  split at h
  · cases h
  · next hne =>
    obtain ⟨hw, hrest⟩ := Prod.mk.inj (Option.some.inj h)
    rw [hw] at hne
    have hlast : ∀ c ∈ w.reverse.head?, Byte.isSpace c = false := by
      rw [← hw, List.reverse_reverse]
      intro c hc
      have hhead := List.head?_dropWhile_not Byte.isSpace inside.reverse
      rw [hc] at hhead
      exact hhead
    obtain ⟨after, hafter⟩ : ∃ after, after = (inside.reverse.takeWhile Byte.isSpace).reverse :=
      ⟨_, rfl⟩
    have hblank : IsBlank after := by
      intro c hc
      rw [hafter, List.mem_reverse] at hc
      exact List.all_eq_true.mp List.all_takeWhile c hc
    have hcut : inside = w ++ after := by
      rw [← hw, hafter, ← List.reverse_append, List.takeWhile_append_dropWhile,
        List.reverse_reverse]
    have hends : ∀ c ∈ inside, endsBare c = false := by
      intro c hc
      rw [hinside] at hc
      exact Bool.not_eq_true' _ ▸ List.all_eq_true.mp List.all_takeWhile c hc
    have ht : t = inside ++ rest := by
      rw [hinside, ← hrest]
      exact List.takeWhile_append_dropWhile.symm
    refine ⟨fun hnil => hne (by rw [hnil]; rfl), fun c hc => hends c ?_, hlast, after, hblank, ?_⟩
    · rw [hcut]
      exact List.mem_append_left _ hc
    · rw [ht, hcut, List.append_assoc]

-- An element is an array, a quoted text or a word, by its first byte.

section First

variable {fuel : Nat} {t rest : Text}

theorem takeElement?_of_array (h : skipSpace t = Byte.openBrace :: rest) :
    takeElement? (fuel + 1) t =
      (takeArray? fuel (Byte.openBrace :: rest)).map fun r => (.array r.1, r.2) := by
  rw [takeElement?, h]
  rfl

theorem takeElement?_of_quoted (h : skipSpace t = Byte.doubleQuote :: rest) :
    takeElement? (fuel + 1) t = (takeQuoted? rest).map fun r => (.string r.1, r.2) := by
  rw [takeElement?, h]
  rfl

theorem takeElement?_of_word {c : UInt8} (h : skipSpace t = c :: rest) (hbrace : c ≠ Byte.openBrace)
    (hquote : c ≠ Byte.doubleQuote) :
    takeElement? (fuel + 1) t = (takeBare? (c :: rest)).map fun r => (bareValue r.1, r.2) := by
  rw [takeElement?, h]
  split
  · next heq => cases heq
  · next heq => exact absurd (List.cons.inj heq).1 hbrace
  · next heq => exact absurd (List.cons.inj heq).1 hquote
  · rfl

theorem takeElement?_eq_some {v : Value} (h : takeElement? (fuel + 1) t = some (v, rest)) :
    (∃ items more, skipSpace t = Byte.openBrace :: more ∧ v = .array items ∧
      takeArray? fuel (skipSpace t) = some (items, rest)) ∨
    (∃ s more, skipSpace t = Byte.doubleQuote :: more ∧ v = .string s ∧
      takeQuoted? more = some (s, rest)) ∨
    ∃ w c more, skipSpace t = c :: more ∧ c ≠ Byte.openBrace ∧ c ≠ Byte.doubleQuote ∧
      v = bareValue w ∧ takeBare? (skipSpace t) = some (w, rest) := by
  cases hskip : skipSpace t with
  | nil =>
    rw [takeElement?, hskip] at h
    cases h
  | cons c more =>
    by_cases hbrace : c = Byte.openBrace
    · subst hbrace
      rw [takeElement?_of_array hskip] at h
      obtain ⟨⟨items, rest⟩, htake, heq⟩ := Option.map_eq_some_iff.mp h
      obtain ⟨rfl, rfl⟩ := Prod.mk.inj heq
      exact .inl ⟨items, more, rfl, rfl, htake⟩
    by_cases hquote : c = Byte.doubleQuote
    · subst hquote
      rw [takeElement?_of_quoted hskip] at h
      obtain ⟨⟨s, rest⟩, htake, heq⟩ := Option.map_eq_some_iff.mp h
      obtain ⟨rfl, rfl⟩ := Prod.mk.inj heq
      exact .inr (.inl ⟨s, more, rfl, rfl, htake⟩)
    · rw [takeElement?_of_word hskip hbrace hquote] at h
      obtain ⟨⟨w, rest⟩, htake, heq⟩ := Option.map_eq_some_iff.mp h
      obtain ⟨rfl, rfl⟩ := Prod.mk.inj heq
      exact .inr (.inr ⟨w, c, more, rfl, hbrace, hquote, rfl, htake⟩)

end First

-- An array is empty or has elements behind its brace.

section Brace

variable {fuel : Nat} {t more : Text}

theorem takeArray?_of_empty {rest : Text} (h : skipSpace t = Byte.openBrace :: more)
    (hclose : skipSpace more = Byte.closeBrace :: rest) :
    takeArray? (fuel + 1) t = some ([], rest) := by
  rw [takeArray?]
  split
  · next heq =>
    obtain rfl := (List.cons.inj (h.symm.trans heq)).2
    split
    · next heq => rw [(List.cons.inj (hclose.symm.trans heq)).2]
    · next hne => exact absurd hclose (hne rest)
  · next hne => exact absurd h (hne more)

theorem takeArray?_of_elements (h : skipSpace t = Byte.openBrace :: more)
    (hclose : (skipSpace more).head? ≠ some Byte.closeBrace) :
    takeArray? (fuel + 1) t = takeElements? fuel more := by
  rw [takeArray?]
  split
  · next heq =>
    obtain rfl := (List.cons.inj (h.symm.trans heq)).2
    split
    · next heq =>
      rw [heq] at hclose
      exact absurd rfl hclose
    · rfl
  · next hne => exact absurd h (hne more)

theorem takeArray?_eq_some {items : List Value} {rest : Text}
    (h : takeArray? (fuel + 1) t = some (items, rest)) :
    ∃ more, skipSpace t = Byte.openBrace :: more ∧
      (items = [] ∧ skipSpace more = Byte.closeBrace :: rest ∨
        takeElements? fuel more = some (items, rest)) := by
  rw [takeArray?] at h
  split at h
  · next more hskip =>
    refine ⟨more, hskip, ?_⟩
    split at h
    · next hclose =>
      obtain ⟨rfl, rfl⟩ := Prod.mk.inj (Option.some.inj h)
      exact .inl ⟨rfl, hclose⟩
    · exact .inr h
  · cases h

end Brace

-- Behind an element stands a comma with further elements, or the closing brace.

section Comma

variable {fuel : Nat} {v : Value} {t more next rest : Text}

theorem takeElements?_of_last (h : takeElement? fuel t = some (v, more))
    (hclose : skipSpace more = Byte.closeBrace :: rest) :
    takeElements? (fuel + 1) t = some ([v], rest) := by
  rw [takeElements?, h, Option.bind_eq_bind, Option.bind_some]
  dsimp only
  split
  · next heq => cases hclose.symm.trans heq
  · next heq =>
    rw [(List.cons.inj (hclose.symm.trans heq)).2]
    rfl
  · next hne => exact absurd hclose (hne rest)

theorem takeElements?_of_more {items : List Value} (h : takeElement? fuel t = some (v, more))
    (hcomma : skipSpace more = Byte.comma :: next)
    (hnext : takeElements? fuel next = some (items, rest)) :
    takeElements? (fuel + 1) t = some (v :: items, rest) := by
  rw [takeElements?, h, Option.bind_eq_bind, Option.bind_some]
  dsimp only
  split
  · next heq =>
    rw [← (List.cons.inj (hcomma.symm.trans heq)).2, hnext]
    rfl
  · next heq => cases hcomma.symm.trans heq
  · next hne _ => exact absurd hcomma (hne next)

theorem takeElements?_eq_some {items : List Value}
    (h : takeElements? (fuel + 1) t = some (items, rest)) :
    ∃ v more, takeElement? fuel t = some (v, more) ∧
      (items = [v] ∧ skipSpace more = Byte.closeBrace :: rest ∨
        ∃ others next, items = v :: others ∧ skipSpace more = Byte.comma :: next ∧
          takeElements? fuel next = some (others, rest)) := by
  rw [takeElements?, Option.bind_eq_bind, Option.bind_eq_some_iff] at h
  obtain ⟨⟨v, more⟩, helement, h⟩ := h
  refine ⟨v, more, helement, ?_⟩
  simp only [Option.bind_eq_bind] at h
  split at h
  · next next hcomma =>
    obtain ⟨⟨others, rest'⟩, hnext, heq⟩ := Option.bind_eq_some_iff.mp h
    obtain ⟨rfl, rfl⟩ := Prod.mk.inj (Option.some.inj heq)
    exact .inr ⟨others, next, rfl, hcomma, hnext⟩
  · next hclose =>
    obtain ⟨rfl, rfl⟩ := Prod.mk.inj (Option.some.inj h)
    exact .inl ⟨rfl, hclose⟩
  · cases h

end Comma

-- What is written is read.

theorem Stops.skipSpace {rest : Text} (h : Stops rest) : skipSpace rest = rest := by
  obtain ⟨c, hc, hends⟩ := h
  cases rest with
  | nil => cases hc
  | cons d rest =>
    obtain rfl := Option.some.inj hc
    refine skipSpace_cons ?_ rest
    rw [← Bool.not_eq_true]
    intro hspace
    rw [endsBare_of_isSpace hspace] at hends
    cases hends

theorem Element.head {v : Value} {t : Text} (h : Element AcceptedLeaf v t) :
    ∃ c more, t = c :: more ∧ Byte.isSpace c = false ∧ c ≠ Byte.closeBrace := by
  cases h with
  | leaf h =>
    cases h with
    | quoted => exact ⟨_, _, rfl, by decide, by decide⟩
    | word h =>
      obtain ⟨c, more, rfl⟩ := List.exists_cons_of_ne_nil h.ne_nil
      refine ⟨c, more, rfl, (h.head c rfl).1, ?_⟩
      rintro rfl
      exact absurd (h.inside Byte.closeBrace (List.mem_cons_self ..)) (by decide)
  | empty => exact ⟨_, _, rfl, by decide, by decide⟩
  | array => exact ⟨_, _, rfl, by decide, by decide⟩

theorem Elements.head {items : List Value} {t : Text} (h : Elements AcceptedLeaf items t)
    (rest : Text) : (skipSpace (t ++ rest)).head? ≠ some Byte.closeBrace := by
  have hfirst {v : Value} {before first : Text} (hbefore : IsBlank before)
      (h : Element AcceptedLeaf v first) (behind : Text) :
      (skipSpace (before ++ (first ++ behind))).head? ≠ some Byte.closeBrace := by
    obtain ⟨c, more, rfl, hspace, hclose⟩ := h.head
    rw [List.cons_append, skipSpace_append_cons hbefore hspace]
    simpa using hclose
  cases h with
  | last hbefore h hafter =>
    rw [List.append_assoc, List.append_assoc]
    exact hfirst hbefore h _
  | more hbefore h hafter hrest =>
    rw [List.append_assoc, List.append_assoc]
    exact hfirst hbefore h _

theorem takeLeaf {v : Value} {t before after rest : Text} (h : AcceptedLeaf v t)
    (hbefore : IsBlank before) (hafter : IsBlank after) (hrest : Stops rest) (fuel : Nat) :
    ∃ more, takeElement? (fuel + 1) (before ++ (t ++ (after ++ rest))) = some (v, more) ∧
      skipSpace more = rest := by
  cases h with
  | quoted h =>
    next s t =>
    refine ⟨after ++ rest, ?_, by rw [skipSpace_append hafter, hrest.skipSpace]⟩
    have hskip : skipSpace (before ++ (Byte.doubleQuote :: (t ++ [Byte.doubleQuote]) ++
        (after ++ rest))) = Byte.doubleQuote :: (t ++ Byte.doubleQuote :: (after ++ rest)) := by
      rw [List.cons_append, skipSpace_append_cons hbefore (by decide), List.append_assoc]
      rfl
    rw [takeElement?_of_quoted hskip, takeQuoted?_append h]
    rfl
  | word h =>
    refine ⟨rest, ?_, hrest.skipSpace⟩
    have htake := takeBare?_append h hafter hrest
    obtain ⟨c, more, rfl⟩ := List.exists_cons_of_ne_nil h.ne_nil
    obtain ⟨hspace, hbrace, hquote⟩ := h.head c rfl
    have hskip := skipSpace_append_cons hbefore hspace (more ++ (after ++ rest))
    rw [List.cons_append, takeElement?_of_word hskip hbrace hquote, ← List.cons_append, htake]
    rfl

section Arrays

variable {before : Text} (hbefore : IsBlank before) (fuel : Nat) (rest : Text)

include hbefore

theorem takeArray?_append_empty {blank : Text} (hblank : IsBlank blank) :
    takeArray? (fuel + 1) (before ++ (Byte.openBrace :: (blank ++ [Byte.closeBrace]) ++ rest)) =
      some ([], rest) := by
  have hskip : skipSpace (before ++ (Byte.openBrace :: (blank ++ [Byte.closeBrace]) ++ rest)) =
      Byte.openBrace :: (blank ++ Byte.closeBrace :: rest) := by
    rw [List.cons_append, skipSpace_append_cons hbefore (by decide), List.append_assoc]
    rfl
  exact takeArray?_of_empty hskip (skipSpace_append_cons hblank (by decide) rest)

theorem takeArray?_append {items : List Value} {t : Text} (h : Elements AcceptedLeaf items t)
    (htake : takeElements? fuel (t ++ rest) = some (items, rest)) :
    takeArray? (fuel + 1) (before ++ (Byte.openBrace :: t ++ rest)) = some (items, rest) := by
  have hskip := skipSpace_append_cons hbefore (by decide : Byte.isSpace Byte.openBrace = false)
    (t ++ rest)
  rw [List.cons_append, takeArray?_of_elements hskip (h.head rest), htake]

end Arrays

-- By induction on the written form. Each byte allows for three calls, since an
-- element, the array in it and the elements of that array may begin at once.

mutual

theorem Element.take {v : Value} {t : Text} (h : Element AcceptedLeaf v t)
    {before after rest : Text} (hbefore : IsBlank before) (hafter : IsBlank after)
    (hrest : Stops rest) {fuel : Nat} (hfuel : 3 * t.length + 1 ≤ fuel) :
    ∃ more, takeElement? fuel (before ++ (t ++ (after ++ rest))) = some (v, more) ∧
      skipSpace more = rest := by
  obtain ⟨fuel, rfl⟩ := Nat.exists_eq_add_one_of_ne_zero (by omega : fuel ≠ 0)
  have hend : skipSpace (after ++ rest) = rest := by
    rw [skipSpace_append hafter, hrest.skipSpace]
  have harray {items : List Value} {t : Text}
      (htake : takeArray? fuel ([] ++ (Byte.openBrace :: t ++ (after ++ rest))) =
        some (items, after ++ rest)) :
      ∃ more, takeElement? (fuel + 1) (before ++ (Byte.openBrace :: t ++ (after ++ rest))) =
        some (.array items, more) ∧ skipSpace more = rest := by
    refine ⟨after ++ rest, ?_, hend⟩
    have hskip := skipSpace_append_cons hbefore (by decide : Byte.isSpace Byte.openBrace = false)
      (t ++ (after ++ rest))
    rw [List.nil_append, List.cons_append] at htake
    rw [List.cons_append, takeElement?_of_array hskip, htake]
    rfl
  cases h with
  | leaf h => exact takeLeaf h hbefore hafter hrest fuel
  | empty hblank =>
    rw [List.length_cons, List.length_append, List.length_singleton] at hfuel
    obtain ⟨fuel, rfl⟩ := Nat.exists_eq_add_one_of_ne_zero (by omega : fuel ≠ 0)
    exact harray (takeArray?_append_empty isBlank_nil fuel (after ++ rest) hblank)
  | array h =>
    rw [List.length_cons] at hfuel
    obtain ⟨fuel, rfl⟩ := Nat.exists_eq_add_one_of_ne_zero (by omega : fuel ≠ 0)
    have htake := h.take (after ++ rest) (by omega : _ ≤ fuel)
    exact harray (takeArray?_append isBlank_nil fuel (after ++ rest) h htake)

theorem Elements.take {items : List Value} {t : Text} (h : Elements AcceptedLeaf items t)
    (rest : Text) {fuel : Nat} (hfuel : 3 * t.length + 2 ≤ fuel) :
    takeElements? fuel (t ++ rest) = some (items, rest) := by
  obtain ⟨fuel, rfl⟩ := Nat.exists_eq_add_one_of_ne_zero (by omega : fuel ≠ 0)
  cases h with
  | last hbefore h hafter =>
    simp only [List.length_append, List.length_cons, List.length_nil] at hfuel
    obtain ⟨more, htake, hmore⟩ := h.take hbefore hafter
      (⟨Byte.closeBrace, rfl, rfl⟩ : Stops (Byte.closeBrace :: rest)) (by omega : _ ≤ fuel)
    rw [List.append_assoc, List.append_assoc, List.append_assoc]
    exact takeElements?_of_last htake hmore
  | more hbefore h hafter hnext =>
    next next =>
    simp only [List.length_append, List.length_cons] at hfuel
    obtain ⟨more, htake, hmore⟩ := h.take hbefore hafter
      (⟨Byte.comma, rfl, rfl⟩ : Stops (Byte.comma :: (next ++ rest))) (by omega : _ ≤ fuel)
    rw [List.append_assoc, List.append_assoc, List.append_assoc]
    exact takeElements?_of_more htake hmore (hnext.take rest (by omega))

end

-- What is read is written. By induction on the fuel, along the calls.

mutual

theorem exists_array_of_take : (fuel : Nat) → {t rest : Text} → {items : List Value} →
    takeArray? fuel t = some (items, rest) →
    ∃ before body, t = before ++ (body ++ rest) ∧ IsBlank before ∧
      Element AcceptedLeaf (.array items) body
  | 0, _, _, _, h => by cases h
  | fuel + 1, t, rest, items, h => by
    obtain ⟨before, hbefore, ht⟩ := exists_blank t
    obtain ⟨more, hskip, ⟨rfl, hclose⟩ | htake⟩ := takeArray?_eq_some h
    · obtain ⟨blank, hblank, hmore⟩ := exists_blank more
      refine ⟨before, _, ?_, hbefore, .empty hblank⟩
      rw [ht, hskip, hmore, hclose]
      simp
    · obtain ⟨body, rfl, hbody⟩ := exists_elements_of_take fuel htake
      refine ⟨before, _, ?_, hbefore, .array hbody⟩
      rw [ht, hskip]
      rfl

theorem exists_element_of_take : (fuel : Nat) → {t rest : Text} → {v : Value} →
    takeElement? fuel t = some (v, rest) →
    ∃ before body after, t = before ++ (body ++ (after ++ rest)) ∧ IsBlank before ∧
      IsBlank after ∧ Element AcceptedLeaf v body
  | 0, _, _, _, h => by cases h
  | fuel + 1, t, rest, v, h => by
    obtain ⟨before, hbefore, ht⟩ := exists_blank t
    rcases takeElement?_eq_some h with ⟨items, more, -, rfl, htake⟩ |
      ⟨s, more, hskip, rfl, htake⟩ | ⟨w, c, more, hskip, hbrace, hquote, rfl, htake⟩
    · obtain ⟨blank, body, hskip, hblank, hbody⟩ := exists_array_of_take fuel htake
      refine ⟨before ++ blank, body, [], ?_, hbefore.append hblank, isBlank_nil, hbody⟩
      rw [ht, hskip]
      simp
    · obtain ⟨spelled, rfl, hquoted⟩ := quoted_of_takeQuoted? htake
      refine ⟨before, _, [], ?_, hbefore, isBlank_nil, .leaf (.quoted hquoted)⟩
      rw [ht, hskip]
      simp
    · obtain ⟨hne, hinside, hlast, after, hafter, hword⟩ := word_of_takeBare? htake
      have hhead : w.head? = some c := by
        obtain ⟨d, rest, rfl⟩ := List.exists_cons_of_ne_nil hne
        rw [hskip] at hword
        rw [(List.cons.inj hword).1]
        rfl
      have hfirst : ∀ d ∈ w.head?, Byte.isSpace d = false ∧ d ≠ Byte.openBrace ∧
          d ≠ Byte.doubleQuote := by
        rw [hhead]
        rintro d hd
        obtain rfl := Option.some.inj hd
        exact ⟨not_isSpace_of_skipSpace hskip, hbrace, hquote⟩
      refine ⟨before, w, after, ?_, hbefore, hafter, .leaf (.word ⟨hne, hinside, hfirst, hlast⟩)⟩
      rw [← hword]
      exact ht

theorem exists_elements_of_take : (fuel : Nat) → {t rest : Text} → {items : List Value} →
    takeElements? fuel t = some (items, rest) →
    ∃ body, t = body ++ rest ∧ Elements AcceptedLeaf items body
  | 0, _, _, _, h => by cases h
  | fuel + 1, t, rest, items, h => by
    obtain ⟨v, more, helement, hbehind⟩ := takeElements?_eq_some h
    obtain ⟨before, body, after, rfl, hbefore, hafter, hbody⟩ :=
      exists_element_of_take fuel helement
    obtain ⟨blank, hblank, hmore⟩ := exists_blank more
    rcases hbehind with ⟨rfl, hclose⟩ | ⟨others, next, rfl, hcomma, hnext⟩
    · refine ⟨_, ?_, .last hbefore hbody (hafter.append hblank)⟩
      rw [hmore, hclose]
      simp
    · obtain ⟨bodies, rfl, hbodies⟩ := exists_elements_of_take fuel hnext
      refine ⟨_, ?_, .more hbefore hbody (hafter.append hblank) hbodies⟩
      rw [hmore, hcomma]
      simp

end

-- The reader as a whole.

theorem AcceptedLeaf.ne_array {v : Value} {t : Text} (h : AcceptedLeaf v t) (items : List Value) :
    v ≠ .array items := by
  cases h with
  | quoted => exact fun heq => by cases heq
  | word =>
    unfold bareValue
    split <;> exact fun heq => by cases heq

theorem Element.takeArray {items : List Value} {t : Text}
    (h : Element AcceptedLeaf (.array items) t) {before : Text} (hbefore : IsBlank before)
    (rest : Text) {fuel : Nat} (hfuel : 3 * t.length ≤ fuel) :
    takeArray? fuel (before ++ (t ++ rest)) = some (items, rest) := by
  generalize hv : Value.array items = v at h
  cases h with
  | leaf h => exact absurd hv.symm (h.ne_array items)
  | empty hblank =>
    obtain rfl := Value.array.inj hv
    rw [List.length_cons] at hfuel
    obtain ⟨fuel, rfl⟩ := Nat.exists_eq_add_one_of_ne_zero (by omega : fuel ≠ 0)
    exact takeArray?_append_empty hbefore fuel rest hblank
  | array h =>
    obtain rfl := Value.array.inj hv
    rw [List.length_cons] at hfuel
    obtain ⟨fuel, rfl⟩ := Nat.exists_eq_add_one_of_ne_zero (by omega : fuel ≠ 0)
    exact takeArray?_append hbefore fuel rest h (h.take rest (by omega))

theorem read?_eq_some_iff {t : Text} {items : List Value} :
    read? t = some items ↔ Spells AcceptedLeaf items t := by
  rw [read?, Option.bind_eq_bind, Option.bind_eq_some_iff]
  constructor
  · rintro ⟨⟨others, after⟩, htake, h⟩
    obtain ⟨before, body, ht, hbefore, hbody⟩ := exists_array_of_take _ htake
    dsimp only at h
    split at h
    · next hafter =>
      obtain rfl := Option.some.inj h
      exact ⟨before, body, after, ht, hbefore, isBlank_of_skipSpace (List.isEmpty_iff.mp hafter),
        hbody⟩
    · cases h
  · rintro ⟨before, body, after, rfl, hbefore, hafter, hbody⟩
    refine ⟨(items, after), hbody.takeArray hbefore after ?_, ?_⟩
    · simp only [List.length_append]
      omega
    · have hskip := skipSpace_append hafter []
      rw [List.append_nil] at hskip
      exact if_pos (by rw [hskip]; rfl)

theorem ofText_eq_ok_iff {t : Text} {items : List Value} :
    ofText t = .ok items ↔ Spells AcceptedLeaf items t := by
  rw [← read?_eq_some_iff, ofText]
  cases read? t <;> simp

theorem ofText_eq_error {t : Text} (h : ∀ items, ¬Spells AcceptedLeaf items t) :
    ofText t = .error (.conversion (.invalidArrayLiteral t)) := by
  rw [ofText]
  cases hread : read? t with
  | none => rfl
  | some items => exact absurd (read?_eq_some_iff.mp hread) (h items)

-- Nested arrays of nulls and texts can be written in the standard form, and read
-- back from it whatever the white space. A text is read from its first byte to
-- its last, or else refused with an error that names it.
theorem ofText_reads :
    (∀ items, arePlain items = true → (∃ t, Spells StandardLeaf items t) ∧
      ∀ t, Spells StandardLeaf items t → ofText t = .ok items) ∧
    ∀ t, (∃ items, ofText t = .ok items ∧ Spells AcceptedLeaf items t) ∨
      ofText t = .error (.conversion (.invalidArrayLiteral t)) ∧
        ∀ items, ¬Spells AcceptedLeaf items t := by
  constructor
  · intro items hplain
    obtain ⟨body, hbody⟩ := exists_standard (.array items) hplain
    refine ⟨⟨body, [], body, [], by simp, isBlank_nil, isBlank_nil, hbody⟩, ?_⟩
    rintro t ⟨before, body, after, rfl, hbefore, hafter, hbody⟩
    exact ofText_eq_ok_iff.mpr
      ⟨before, body, after, rfl, hbefore, hafter, hbody.mono AcceptedLeaf.of_standard⟩
  · intro t
    by_cases hspells : ∃ items, Spells AcceptedLeaf items t
    · obtain ⟨items, hitems⟩ := hspells
      exact .inl ⟨items, ofText_eq_ok_iff.mpr hitems, hitems⟩
    · rw [not_exists] at hspells
      exact .inr ⟨ofText_eq_error hspells, hspells⟩

-- A quoted null is a text; braces, commas, quotes and backslashes inside quotes
-- are content; and white space stands around everything.
theorem ofText_reads_nested :
    arePlain [.string "null", .null, .array [], .array [.string "a\"b\\,\x7d", .string ""]] = true ∧
      ofText " \x7b \"null\" , NULL,\x7b \x7d,\x7b\"a\\\"b\\\\,\x7d\" ,\"\"\x7d\x7d " =
        .ok [.string "null", .null, .array [], .array [.string "a\"b\\,\x7d", .string ""]] := by
  have hplain : arePlain
      [.string "null", .null, .array [], .array [.string "a\"b\\,\x7d", .string ""]] = true := by
    decide
  have hspace : IsBlank (" " : Text) := by decide
  have hstring (s : Text) : Element StandardLeaf (.string s)
      (Byte.doubleQuote :: (escape s ++ [Byte.doubleQuote])) := .leaf (.string s)
  have hinner := Elements.more isBlank_nil (hstring "a\"b\\,\x7d") hspace
    (.last isBlank_nil (hstring "") isBlank_nil)
  have hbody := Element.array (.more hspace (hstring "null") hspace
    (.more hspace (.leaf .null) isBlank_nil (.more isBlank_nil (.empty hspace) isBlank_nil
      (.last isBlank_nil (.array hinner) isBlank_nil))))
  exact ⟨hplain, (ofText_reads.1 _ hplain).2 _ ⟨_, _, _, by decide, hspace, hspace, hbody⟩⟩

end EntitySql.Conversion.ArrayLiteral
