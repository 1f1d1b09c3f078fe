import EntitySql.Inet
import EntitySql.Proofs.Binary64.Decimal
import EntitySql.Proofs.Text.Join
import EntitySql.Timestamp
import EntitySql.Uuid

-- The bytes that numbers, identifiers, times and addresses are written in:
-- letters, digits and a few signs, none of which is a quote or an at sign.

namespace EntitySql

-- A property of every byte is decided byte by byte.
theorem forall_byte {p : UInt8 → Prop} (h : ∀ n < 256, p (UInt8.ofNat n)) (c : UInt8) : p c := by
  have hc := h c.toNat c.toNat_lt
  rwa [UInt8.ofNat_toNat] at hc

def Byte.isPlain (c : UInt8) : Bool :=
  Byte.isAlphanumeric c || c == Byte.space || c == Byte.plus || c == Byte.minus || c == Byte.dot ||
    c == Byte.slash || c == Byte.colon

namespace Text

def Plain (t : Text) : Prop := ∀ c ∈ t, Byte.isPlain c = true

instance (t : Text) : Decidable (Plain t) :=
  decidable_of_iff (t.all Byte.isPlain = true) List.all_eq_true

namespace Plain

theorem nil : Plain [] := by simp [Plain]

theorem append {s t : Text} (hs : Plain s) (ht : Plain t) : Plain (s ++ t) := by
  intro c hc
  rcases List.mem_append.mp hc with hc | hc
  · exact hs c hc
  · exact ht c hc

theorem cons {c : UInt8} {t : Text} (hc : Byte.isPlain c = true) (ht : Plain t) :
    Plain (c :: t) := List.forall_mem_cons.mpr ⟨hc, ht⟩

theorem not_mem {t : Text} (h : Plain t) {c : UInt8} (hc : Byte.isPlain c = false) : c ∉ t := by
  intro hmem
  rw [h c hmem] at hc
  cases hc

theorem join {separator : Text} {parts : List Text} (hseparator : Plain separator)
    (h : ∀ p ∈ parts, Plain p) : Plain (join separator parts) := by
  intro c hc
  rcases mem_join hc with hc | ⟨p, hp, hc⟩
  · exact hseparator c hc
  · exact h p hp c hc

theorem of_numeral {t : Text} (h : Binary64.Numeral t) : Plain t := by
  intro c hc
  have hnumeral := h c hc
  simp only [Binary64.isNumeral, Bool.or_eq_true, beq_iff_eq] at hnumeral
  rcases hnumeral with (((hdigit | rfl) | rfl) | rfl) | rfl
  · simp [Byte.isPlain, Byte.isAlphanumeric, hdigit]
  all_goals rfl

theorem seventeenDigits (x : Float) : Plain (Binary64.seventeenDigits x) := by
  have hword : Plain (Text.ofString "inf") := by decide
  unfold Binary64.seventeenDigits
  split
  · exact show Plain (Text.ofString "nan") by decide
  · next negative _ => exact (of_numeral (.signText negative)).append hword
  · next negative m e _ =>
    have hdigits := (Binary64.Numeral.significand 17 (Binary64.magnitude m e).1
      (Binary64.magnitude m e).2).dropTrailingZeros
    refine (of_numeral (.signText negative)).append (of_numeral ?_)
    split
    · exact show Binary64.Numeral (Text.ofString "0") by decide +kernel
    · dsimp only
      split
      · exact hdigits.pointed.append (.exponentText _)
      · exact hdigits.positional _

theorem digit {n : Nat} (h : n < 16) : Byte.isPlain (Byte.digit n) = true := by
  have hall : ∀ n < 16, Byte.isPlain (Byte.digit n) = true := by decide
  exact hall n h

theorem hexBytes (bytes : List UInt8) : Plain (hexBytes bytes) := by
  intro c hc
  obtain ⟨b, -, hb⟩ := List.mem_flatMap.mp hc
  have hlt : b.toNat < 256 := b.toNat_lt
  simp only [hexByte, List.mem_cons, List.not_mem_nil, or_false] at hb
  rcases hb with rfl | rfl
  · exact digit (by omega)
  · exact digit (by omega)

theorem hexGroup (g : UInt16) : Plain (hexGroup g.toNat) := by
  have hlt : g.toNat < 65536 := g.toNat_lt
  unfold Text.hexGroup
  split
  · exact cons (digit (by omega)) nil
  · split
    · exact cons (digit (by omega)) (cons (digit (by omega)) nil)
    · split
      · exact cons (digit (by omega)) (cons (digit (by omega)) (cons (digit (by omega)) nil))
      · exact cons (digit (by omega))
          (cons (digit (by omega)) (cons (digit (by omega)) (cons (digit (by omega)) nil)))

theorem ofIntPadded (width : Nat) (n : Int) : Plain (ofIntPadded width n) := by
  cases n with
  | ofNat n => exact of_numeral (.ofNatPadded width n)
  | negSucc n => exact of_numeral (.cons rfl (.ofNatPadded _ _))

theorem uuid (u : Uuid) : Plain u.text := by
  refine join (by decide) fun p hp => ?_
  simp only [List.mem_cons, List.not_mem_nil, or_false] at hp
  rcases hp with rfl | rfl | rfl | rfl | rfl <;> exact hexBytes _

theorem timestamp (t : Timestamp) : Plain t.text := by
  have hminus : Plain (Text.ofString "-") := by decide
  have hcolon : Plain (Text.ofString ":") := by decide
  have hspace : Plain (Text.ofString " ") := by decide
  have hdot : Plain (Text.ofString ".") := by decide
  have hsign : Plain (if t.offsetMinutes < 0 then [Byte.minus] else [Byte.plus]) := by
    split <;> decide
  have hpadded (width n : Nat) : Plain (ofNatPadded width n) := of_numeral (.ofNatPadded width n)
  have hzone : Plain (if t.zoned then
      (if t.offsetMinutes < 0 then [Byte.minus] else [Byte.plus]) ++
        ofNatPadded 2 (t.offsetMinutes.natAbs / 60) ++ ":" ++
        ofNatPadded 2 (t.offsetMinutes.natAbs % 60)
      else []) := by
    split
    · exact ((hsign.append (hpadded _ _)).append hcolon).append (hpadded _ _)
    · exact nil
  have hdate := (((ofIntPadded 4 t.civil.year).append hminus).append
    (ofIntPadded 2 t.civil.month)).append hminus |>.append (ofIntPadded 2 t.civil.day)
  have htime := ((((hdate.append hspace).append (ofIntPadded 2 t.civil.hour)).append hcolon).append
    (ofIntPadded 2 t.civil.minute)).append hcolon |>.append (ofIntPadded 2 t.civil.second)
  exact ((htime.append hdot).append (ofIntPadded 6 t.civil.microsecond)).append hzone

theorem groupsText (groups : List UInt16) : Plain (Inet.groupsText groups) := by
  refine join (by decide) fun p hp => ?_
  obtain ⟨g, -, rfl⟩ := List.mem_map.mp hp
  exact hexGroup g

theorem host (h : Host) : Plain (match h with
    | .v4 a => Inet.v4Text a
    | .v6 a => Inet.v6Text a) := by
  cases h with
  | v4 a =>
    refine join (by decide) fun p hp => ?_
    obtain ⟨b, -, rfl⟩ := List.mem_map.mp hp
    exact of_numeral (.ofNat b.toNat)
  | v6 a =>
    have hcolons : Plain (Text.ofString "::") := by decide
    show Plain (Inet.v6Text a)
    unfold Inet.v6Text
    dsimp only
    split
    · exact groupsText _
    · exact ((groupsText _).append hcolons).append (groupsText _)

theorem inet (a : Inet) : Plain a.text := by
  have hslash : Plain (Text.ofString "/") := by decide
  unfold Inet.text
  cases a.maskLength with
  | none => exact host a.host
  | some n => exact ((host a.host).append hslash).append (of_numeral (.ofNat n))

end Plain

theorem quote_not_mem_hexBody (bytes : List UInt8) :
    Byte.quote ∉ ("\\x" : Text) ++ hexBytes bytes := by
  intro hmem
  rcases List.mem_append.mp hmem with hmem | hmem
  · exact absurd hmem (by decide)
  · exact (Plain.hexBytes bytes).not_mem rfl hmem

end Text

end EntitySql
