import EntitySql.Proofs.Sql.Columns
import EntitySql.Proofs.Sql.Literals
import EntitySql.Proofs.Sql.Quotation

-- The outline of SQL text: its words, what stands in quotes, and parentheses.
-- Blanks separate, and every other byte is a sign of its own. Comments and
-- dollar quotes are refused.

namespace EntitySql.Sql

-- What stands in quotes is one token of the scanner.
inductive Lexeme where
  | word (t : Text)
  | quoted (t : Token)
  | sign (c : UInt8)
  | opening
  | closing
  deriving DecidableEq

namespace Outline

-- Between two lexemes, in a word, behind a sign that may begin a comment, or in
-- quotes, where the scanner goes on.
inductive Mode where
  | between
  | word (t : Text)
  | sign (c : UInt8)
  | quoted (m : Scanner.Mode)
  | refused
  deriving DecidableEq

def Mode.finish : Mode → Option (List Lexeme)
  | .between => some []
  | .word t => some [.word t]
  | .sign c => some [.sign c]
  | .quoted (.nameQuote t) => some [.quoted (.name t)]
  | .quoted (.stringQuote _ t) => some [.quoted (.string t)]
  | _ => none

def start (c : UInt8) : List Lexeme × Mode :=
  if Byte.isSpace c then ([], .between)
  else if c = Byte.quote then ([], .quoted (.string false [c]))
  else if c = Byte.doubleQuote then ([], .quoted (.name []))
  else if c = Byte.openParenthesis then ([.opening], .between)
  else if c = Byte.closeParenthesis then ([.closing], .between)
  else if c = Byte.minus || c = Byte.slash then ([], .sign c)
  else if c = Quotation.dollar then ([], .refused)
  else if Quotation.isWordByte c then ([], .word [c])
  else ([.sign c], .between)

def opensComment (a b : UInt8) : Bool :=
  (a == Byte.minus && b == Byte.minus) || (a == Byte.slash && b == Byte.star)

-- The byte behind a complete lexeme.
def next (l : Lexeme) (c : UInt8) : List Lexeme × Mode := (l :: (start c).1, (start c).2)

def step : Mode → UInt8 → List Lexeme × Mode
  | .between, c => start c
  | .word t, c =>
    if Quotation.isWordByte c then ([], .word (t ++ [c]))
    else if c = Byte.quote && Text.sameFolded t "E" then ([], .quoted (.string true (t ++ [c])))
    else next (.word t) c
  | .sign s, c => if opensComment s c then ([], .refused) else next (.sign s) c
  | .quoted m, c =>
    match Scanner.step m c with
    | ([], m') => ([], .quoted m')
    | (t :: _, _) => next (.quoted t) c
  | .refused, _ => ([], .refused)

end Outline

def outline : Machine UInt8 Lexeme Outline.Mode := ⟨Outline.step, Outline.Mode.finish⟩

def lexemes? (t : Text) : Option (List Lexeme) := outline.read? .between t

namespace Outline

-- The bytes at which every lexeme ends and the next one begins.
def delimiters : Text :=
  [Byte.space, Byte.openParenthesis, Byte.closeParenthesis, Byte.comma, Byte.openBracket,
    Byte.closeBracket, Byte.dot, Byte.colon]

theorem finishes_delimiter {c : UInt8} (h : c ∈ delimiters) : outline.Finishes c .between := by
  simp only [delimiters, List.mem_cons, List.not_mem_nil, or_false] at h
  intro m out hfinish
  rcases h with rfl | rfl | rfl | rfl | rfl | rfl | rfl | rfl
  all_goals
    cases m with
    | quoted m => cases m <;> cases hfinish <;> rfl
    | word t => cases hfinish; rfl
    | sign s =>
      cases hfinish
      have hcomment (b : UInt8) (hminus : b ≠ Byte.minus) (hstar : b ≠ Byte.star) :
          step (.sign s) b = next (.sign s) b := by
        simp [step, opensComment, hminus, hstar]
      exact hcomment _ (by decide) (by decide)
    | _ => cases hfinish <;> rfl

-- In quotes the outline follows the scanner.
theorem feed_quoted {m m' : Scanner.Mode} {t : Text} (h : scanner.feed m t = ([], m')) :
    outline.feed (.quoted m) t = ([], .quoted m') := by
  induction t generalizing m with
  | nil =>
    cases h
    rfl
  | cons c rest ih =>
    rw [Machine.feed, Prod.mk.injEq, List.append_eq_nil_iff] at h
    obtain ⟨⟨hfirst, hmore⟩, hmode⟩ := h
    have hrest := ih (m := (scanner.step m c).2) (Prod.ext hmore hmode)
    have hstep : outline.step (.quoted m) c = ([], .quoted (scanner.step m c).2) := by
      have hscan : Scanner.step m c = ([], (scanner.step m c).2) := Prod.ext hfirst rfl
      simp [outline, step, hscan]
    simp [Machine.feed, hstep, hrest]

-- Texts beside each other.

-- A lexeme in front of the text ends where the text begins.
def Opens (t : Text) : Prop := t.head?.any delimiters.elem = true

instance (t : Text) : Decidable (Opens t) := inferInstanceAs (Decidable (_ = _))

variable {a b t : Text} {ls more : List Lexeme}

theorem Opens.exists_cons (h : Opens t) : ∃ c rest, t = c :: rest ∧ c ∈ delimiters := by
  cases t with
  | nil => cases h
  | cons c rest => exact ⟨c, rest, rfl, List.elem_iff.mp h⟩

theorem Opens.append (h : Opens a) (b : Text) : Opens (a ++ b) := by
  obtain ⟨c, rest, rfl, hc⟩ := h.exists_cons
  exact List.elem_iff.mpr hc

theorem lexemes?_append (ha : lexemes? a = some ls) (hb : Opens b) :
    lexemes? (a ++ b) = (lexemes? b).map (ls ++ ·) := by
  obtain ⟨c, rest, rfl, hc⟩ := hb.exists_cons
  exact Machine.read?_append_of_finishes ha (finishes_delimiter hc)

theorem feed_append (ha : lexemes? a = some ls) (hb : Opens b) :
    outline.feed .between (a ++ b) =
      (ls ++ (outline.feed .between b).1, (outline.feed .between b).2) := by
  obtain ⟨c, rest, rfl, hc⟩ := hb.exists_cons
  obtain ⟨last, hlast, rfl⟩ := Option.map_eq_some_iff.mp ha
  exact Machine.feed_append_of_finishes hlast (finishes_delimiter hc)

theorem lexemes?_of_feed (ha : outline.feed .between a = (ls, .between)) :
    lexemes? (a ++ b) = (lexemes? b).map (ls ++ ·) :=
  Machine.read?_append_of_feed ha

-- The depth of parentheses behind a lexeme. Outside of parentheses, no word may
-- stand that is banned.
def depth? (banned : List Text) (depth : Nat) : Lexeme → Option Nat
  | .opening => some (depth + 1)
  | .closing => if depth = 0 then none else some (depth - 1)
  | .word w => if depth = 0 && banned.elem w.upper then none else some depth
  | _ => some depth

def depthBehind? (banned : List Text) (depth : Nat) (lexemes : List Lexeme) : Option Nat :=
  lexemes.foldlM (depth? banned) depth

variable {banned banned' : List Text} {i j k : Nat}

theorem depthBehind?_append (ha : depthBehind? banned i ls = some j)
    (hb : depthBehind? banned j more = some k) : depthBehind? banned i (ls ++ more) = some k := by
  rw [depthBehind?, List.foldlM_append]
  exact Option.bind_eq_some_iff.mpr ⟨j, ha, hb⟩

-- What one lexeme preserves, a list of them does.
theorem depthBehind?_of_depth? {f : Nat → Nat}
    (hstep : ∀ i j l, depth? banned i l = some j → depth? banned' (f i) l = some (f j))
    (h : depthBehind? banned i ls = some j) : depthBehind? banned' (f i) ls = some (f j) := by
  induction ls generalizing i with
  | nil =>
    cases h
    rfl
  | cons l ls ih =>
    obtain ⟨d, hl, hls⟩ := Option.bind_eq_some_iff.mp h
    exact Option.bind_eq_some_iff.mpr ⟨f d, hstep i d l hl, ih hls⟩

theorem depth?_add (d : Nat) (i j : Nat) (l : Lexeme) (h : depth? banned i l = some j) :
    depth? banned (i + d) l = some (j + d) := by
  cases l with
  | closing =>
    simp only [depth?, Option.ite_none_left_eq_some, Option.some.injEq] at h ⊢
    omega
  | word w =>
    simp only [depth?, Option.ite_none_left_eq_some, Option.some.injEq, Bool.and_eq_true,
      decide_eq_true_eq] at h ⊢
    obtain ⟨hbanned, rfl⟩ := h
    exact ⟨fun hword => hbanned ⟨by omega, hword.2⟩, rfl⟩
  | _ =>
    simp only [depth?, Option.some.injEq] at h ⊢
    omega

theorem depth?_of_subset (hsubset : banned' ⊆ banned) (i j : Nat) (l : Lexeme)
    (h : depth? banned i l = some j) : depth? banned' i l = some j := by
  cases l with
  | word w =>
    simp only [depth?, Option.ite_none_left_eq_some, Bool.and_eq_true, decide_eq_true_eq,
      List.elem_iff] at h ⊢
    exact ⟨fun hword => h.1 ⟨hword.1, hsubset hword.2⟩, h.2⟩
  | _ => exact h

-- Between parentheses, no word is banned.
theorem depth?_succ (i j : Nat) (l : Lexeme) (h : depth? [] i l = some j) :
    depth? banned (i + 1) l = some (j + 1) := by
  cases l with
  | closing =>
    simp only [depth?, Option.ite_none_left_eq_some, Option.some.injEq] at h ⊢
    omega
  | _ => simpa [depth?] using h

-- Texts that lead from one depth to another, with no lexeme left open or perhaps
-- with one that ends there.

def Leads (banned : List Text) (t : Text) (i j : Nat) : Prop :=
  ∃ ls, outline.feed .between t = (ls, .between) ∧ depthBehind? banned i ls = some j

def Ends (banned : List Text) (t : Text) (i j : Nat) : Prop :=
  ∃ ls, lexemes? t = some ls ∧ depthBehind? banned i ls = some j

-- A complete text with all of its parentheses.
def Fits (banned : List Text) (t : Text) : Prop := Ends banned t 0 0

instance (banned : List Text) (t : Text) (i j : Nat) : Decidable (Leads banned t i j) :=
  decidable_of_iff ((outline.feed .between t).2 = .between ∧
      depthBehind? banned i (outline.feed .between t).1 = some j)
    ⟨fun h => ⟨_, Prod.ext rfl h.1, h.2⟩, fun ⟨ls, hfeed, hdepth⟩ => by
      rw [hfeed]
      exact ⟨rfl, hdepth⟩⟩

instance (banned : List Text) (t : Text) (i j : Nat) : Decidable (Ends banned t i j) :=
  decidable_of_iff ((lexemes? t).bind (depthBehind? banned i) = some j) Option.bind_eq_some_iff

instance (banned : List Text) (t : Text) : Decidable (Fits banned t) :=
  inferInstanceAs (Decidable (Ends _ _ _ _))

theorem Ends.add (h : Ends banned t i j) (d : Nat) : Ends banned t (i + d) (j + d) := by
  obtain ⟨ls, hls, hdepth⟩ := h
  exact ⟨ls, hls, depthBehind?_of_depth? (f := (· + d)) (depth?_add d) hdepth⟩

theorem Ends.of_subset (h : Ends banned t i j) (hsubset : banned' ⊆ banned) :
    Ends banned' t i j := by
  obtain ⟨ls, hls, hdepth⟩ := h
  exact ⟨ls, hls, depthBehind?_of_depth? (f := id) (depth?_of_subset hsubset) hdepth⟩

theorem Ends.succ (h : Ends [] t i j) : Ends banned t (i + 1) (j + 1) := by
  obtain ⟨ls, hls, hdepth⟩ := h
  exact ⟨ls, hls, depthBehind?_of_depth? (f := (· + 1)) depth?_succ hdepth⟩

theorem Fits.of_subset (h : Fits banned t) (hsubset : banned' ⊆ banned) : Fits banned' t :=
  Ends.of_subset h hsubset

-- The text at a depth, and between parentheses.
theorem Fits.at (h : Fits banned t) (d : Nat) : Ends banned t d d := by
  simpa using Ends.add h d

theorem Fits.inside (h : Fits [] t) (d : Nat) : Ends banned t (d + 1) (d + 1) := (h.at d).succ

theorem Leads.ends (h : Leads banned t i j) : Ends banned t i j := by
  obtain ⟨ls, hfeed, hdepth⟩ := h
  have hnil : lexemes? [] = some [] := rfl
  have hls := lexemes?_of_feed (b := []) hfeed
  exact ⟨ls, by simpa [hnil] using hls, hdepth⟩

theorem Leads.fits (h : Leads banned t 0 0) : Fits banned t := h.ends

theorem Leads.nil : Leads banned [] i i := ⟨[], rfl, rfl⟩

theorem Leads.of_subset (h : Leads banned t i j) (hsubset : banned' ⊆ banned) :
    Leads banned' t i j := by
  obtain ⟨ls, hfeed, hdepth⟩ := h
  exact ⟨ls, hfeed, depthBehind?_of_depth? (f := id) (depth?_of_subset hsubset) hdepth⟩

theorem Leads.ending (ha : Leads banned a i j) (hb : Ends banned b j k) :
    Ends banned (a ++ b) i k := by
  obtain ⟨ls, hfeed, hdepth⟩ := ha
  obtain ⟨more, hmore, hbehind⟩ := hb
  exact ⟨ls ++ more, by rw [lexemes?_of_feed hfeed, hmore]; rfl, depthBehind?_append hdepth hbehind⟩

theorem Ends.append (ha : Ends banned a i j) (hopens : Opens b) (hb : Ends banned b j k) :
    Ends banned (a ++ b) i k := by
  obtain ⟨ls, hls, hdepth⟩ := ha
  obtain ⟨more, hmore, hbehind⟩ := hb
  exact ⟨ls ++ more, by rw [lexemes?_append hls hopens, hmore]; rfl,
    depthBehind?_append hdepth hbehind⟩

-- A text of the first kind behind one of the second.
def Continues (banned : List Text) (w : Text) (i j : Nat) : Prop := Opens w ∧ Leads banned w i j

instance (banned : List Text) (w : Text) (i j : Nat) : Decidable (Continues banned w i j) :=
  inferInstanceAs (Decidable (_ ∧ _))

theorem Continues.of_subset (h : Continues banned t i j) (hsubset : banned' ⊆ banned) :
    Continues banned' t i j :=
  ⟨h.1, h.2.of_subset hsubset⟩

theorem Ends.word (ha : Ends banned a i j) (hw : Continues banned b j k) :
    Leads banned (a ++ b) i k := by
  obtain ⟨ls, hls, hdepth⟩ := ha
  obtain ⟨hopens, more, hmore, hbehind⟩ := hw
  exact ⟨ls ++ more, by rw [feed_append hls hopens, hmore], depthBehind?_append hdepth hbehind⟩

theorem Leads.operand (ha : Leads banned a i j) (hb : Fits banned b) : Ends banned (a ++ b) i j :=
  ha.ending (hb.at j)

theorem Leads.inner (ha : Leads banned a i (j + 1)) (hb : Fits [] b) :
    Ends banned (a ++ b) i (j + 1) :=
  ha.ending (hb.inside j)

theorem fits_join {separator : Text} {parts : List Text}
    (hseparator : Continues banned separator 0 0) (h : ∀ p ∈ parts, Fits banned p) :
    Fits banned (Text.join separator parts) := by
  induction parts with
  | nil => exact Leads.nil.ends
  | cons p rest ih =>
    have hp := h p (by simp)
    have hrest := ih fun q hq => h q (List.mem_cons_of_mem p hq)
    cases rest with
    | nil => exact hp
    | cons q rest => exact (Ends.word hp hseparator).ending hrest

end Outline

end EntitySql.Sql
