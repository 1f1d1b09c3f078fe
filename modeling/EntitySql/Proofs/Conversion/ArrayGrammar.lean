import EntitySql.Conversion.ArrayLiteral
import EntitySql.Proofs.Text.Span

-- The written forms of nested arrays. Braces, commas and white space are the
-- same in all of them; what the elements that are no arrays look like is left
-- open, so that the forms that are written and those that are read differ in
-- their leaves only.

namespace EntitySql.Conversion.ArrayLiteral

def IsBlank (t : Text) : Prop := ∀ c ∈ t, Byte.isSpace c = true

instance (t : Text) : Decidable (IsBlank t) :=
  decidable_of_iff (t.all Byte.isSpace = true) List.all_eq_true

section Grammar

variable (leaf : Value → Text → Prop)

mutual

-- A leaf, or an array between its braces.
inductive Element : Value → Text → Prop
  | leaf {v : Value} {t : Text} (h : leaf v t) : Element v t
  | empty {blank : Text} (h : IsBlank blank) :
    Element (.array []) (Byte.openBrace :: (blank ++ [Byte.closeBrace]))
  | array {items : List Value} {t : Text} (h : Elements items t) :
    Element (.array items) (Byte.openBrace :: t)

-- One element or more with commas in between and the closing brace behind, and
-- any white space around each.
inductive Elements : List Value → Text → Prop
  | last {v : Value} {before t after : Text} (hbefore : IsBlank before) (h : Element v t)
    (hafter : IsBlank after) : Elements [v] (before ++ (t ++ (after ++ [Byte.closeBrace])))
  | more {v : Value} {items : List Value} {before t after rest : Text} (hbefore : IsBlank before)
    (h : Element v t) (hafter : IsBlank after) (hrest : Elements items rest) :
    Elements (v :: items) (before ++ (t ++ (after ++ Byte.comma :: rest)))

end

-- A whole literal, with white space at both ends.
def Spells (items : List Value) (t : Text) : Prop :=
  ∃ before body after, t = before ++ (body ++ after) ∧ IsBlank before ∧ IsBlank after ∧
    Element leaf (.array items) body

end Grammar

mutual

theorem Element.mono {leaf leaf' : Value → Text → Prop} (hle : ∀ {v t}, leaf v t → leaf' v t)
    {v : Value} {t : Text} (h : Element leaf v t) : Element leaf' v t := by
  cases h with
  | leaf h => exact .leaf (hle h)
  | empty h => exact .empty h
  | array h => exact .array (h.mono hle)

theorem Elements.mono {leaf leaf' : Value → Text → Prop} (hle : ∀ {v t}, leaf v t → leaf' v t)
    {items : List Value} {t : Text} (h : Elements leaf items t) : Elements leaf' items t := by
  cases h with
  | last hbefore h hafter => exact .last hbefore (h.mono hle) hafter
  | more hbefore h hafter hrest => exact .more hbefore (h.mono hle) hafter (hrest.mono hle)

end

-- The standard leaves: a bare NULL, and texts in quotes with a backslash before
-- each quote and backslash.

def escape (t : Text) : Text :=
  t.flatMap fun c =>
    if c = Byte.doubleQuote ∨ c = Byte.backslash then [Byte.backslash, c] else [c]

inductive StandardLeaf : Value → Text → Prop
  | null : StandardLeaf .null "NULL"
  | string (s : Text) :
    StandardLeaf (.string s) (Byte.doubleQuote :: (escape s ++ [Byte.doubleQuote]))

-- The leaves that are read: a backslash in quotes may stand before any byte, and
-- whatever does not begin like another element is a word.

inductive Quoted : Text → Text → Prop
  | nil : Quoted [] []
  | plain {c : UInt8} {s t : Text} (hquote : c ≠ Byte.doubleQuote) (hbackslash : c ≠ Byte.backslash)
    (h : Quoted s t) : Quoted (c :: s) (c :: t)
  | escaped {s t : Text} (c : UInt8) (h : Quoted s t) : Quoted (c :: s) (Byte.backslash :: c :: t)

structure IsWord (w : Text) : Prop where
  ne_nil : w ≠ []
  inside : ∀ c ∈ w, endsBare c = false
  head : ∀ c ∈ w.head?, Byte.isSpace c = false ∧ c ≠ Byte.openBrace ∧ c ≠ Byte.doubleQuote
  last : ∀ c ∈ w.reverse.head?, Byte.isSpace c = false

inductive AcceptedLeaf : Value → Text → Prop
  | quoted {s t : Text} (h : Quoted s t) :
    AcceptedLeaf (.string s) (Byte.doubleQuote :: (t ++ [Byte.doubleQuote]))
  | word {w : Text} (h : IsWord w) : AcceptedLeaf (bareValue w) w

theorem quoted_escape (s : Text) : Quoted s (escape s) := by
  induction s with
  | nil => exact .nil
  | cons c s ih =>
    have hcons : escape (c :: s) =
        (if c = Byte.doubleQuote ∨ c = Byte.backslash then [Byte.backslash, c] else [c]) ++
          escape s := rfl
    rw [hcons]
    split
    · exact .escaped c ih
    · next hplain =>
      rw [not_or] at hplain
      exact .plain hplain.1 hplain.2 ih

theorem AcceptedLeaf.of_standard {v : Value} {t : Text} (h : StandardLeaf v t) :
    AcceptedLeaf v t := by
  cases h with
  | null =>
    have hvalue : bareValue (Text.ofString "NULL") = .null := if_pos (by decide)
    rw [← hvalue]
    exact .word ⟨by decide, by decide +kernel, by decide +kernel, by decide +kernel⟩
  | string s => exact .quoted (quoted_escape s)

-- Nested arrays of nulls and texts, all of which have a standard form.

mutual

def isPlain : Value → Bool
  | .null => true
  | .string _ => true
  | .array items => arePlain items
  | _ => false

def arePlain : List Value → Bool
  | [] => true
  | v :: rest => isPlain v && arePlain rest

end

theorem isBlank_nil : IsBlank [] := by simp [IsBlank]

mutual

theorem exists_standard : (v : Value) → isPlain v = true → ∃ t, Element StandardLeaf v t
  | .null, _ => ⟨_, .leaf .null⟩
  | .string s, _ => ⟨_, .leaf (.string s)⟩
  | .array items, h => by
    rcases exists_standards items h with rfl | ⟨t, ht⟩
    · exact ⟨_, .empty isBlank_nil⟩
    · exact ⟨_, .array ht⟩

theorem exists_standards : (items : List Value) → arePlain items = true →
    items = [] ∨ ∃ t, Elements StandardLeaf items t
  | [], _ => .inl rfl
  | v :: items, h => by
    obtain ⟨hv, hitems⟩ := Bool.and_eq_true_iff.mp h
    obtain ⟨t, ht⟩ := exists_standard v hv
    rcases exists_standards items hitems with rfl | ⟨rest, hrest⟩
    · exact .inr ⟨_, .last isBlank_nil ht isBlank_nil⟩
    · exact .inr ⟨_, .more isBlank_nil ht isBlank_nil hrest⟩

end

end EntitySql.Conversion.ArrayLiteral
