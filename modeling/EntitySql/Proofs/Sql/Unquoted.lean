import EntitySql.Proofs.Sql.Outline
import Mathlib.Data.List.Chain

-- The bytes of SQL text that stand outside of quotes. Of what stands in quotes
-- the first quote is left, so that the bytes on its two sides do not meet.

namespace EntitySql.Sql

namespace Unquoted

-- Between words, in a word, or in quotes, where the scanner goes on.
inductive Mode where
  | between
  | word (t : Text)
  | quoted (m : Scanner.Mode)
  deriving DecidableEq

def Mode.finish : Mode → Option Text
  | .between => some []
  | .word _ => some []
  | .quoted (.nameQuote _) => some []
  | .quoted (.stringQuote _ _) => some []
  | .quoted _ => none

def start (c : UInt8) : Text × Mode :=
  if c = Byte.quote then ([c], .quoted (.string false [c]))
  else if c = Byte.doubleQuote then ([c], .quoted (.name []))
  else if Quotation.isWordByte c then ([c], .word [c])
  else ([c], .between)

def step : Mode → UInt8 → Text × Mode
  | .between, c => start c
  | .word t, c =>
    if Quotation.isWordByte c then ([c], .word (t ++ [c]))
    else if c = Byte.quote && Text.sameFolded t "E" then ([c], .quoted (.string true (t ++ [c])))
    else start c
  | .quoted m, c =>
    match Scanner.step m c with
    | ([], m') => ([], .quoted m')
    | (_ :: _, _) => start c

end Unquoted

def unquoted : Machine UInt8 UInt8 Unquoted.Mode := ⟨Unquoted.step, Unquoted.Mode.finish⟩

-- None where quotes are left open.
def unquoted? (t : Text) : Option Text := unquoted.read? .between t

namespace Unquoted

open Outline (delimiters opensComment)

theorem fst_start (c : UInt8) : (start c).1 = [c] := by
  unfold start
  split
  · rfl
  · split
    · rfl
    · split <;> rfl

theorem finishes_delimiter {c : UInt8} (h : c ∈ delimiters) : unquoted.Finishes c .between := by
  simp only [delimiters, List.mem_cons, List.not_mem_nil, or_false] at h
  intro m out hfinish
  rcases h with rfl | rfl | rfl | rfl | rfl | rfl | rfl | rfl
  all_goals
    cases m with
    | quoted m => cases m <;> cases hfinish <;> rfl
    | _ => cases hfinish; rfl

variable {a b t u v : Text}

theorem unquoted?_append (ha : unquoted? a = some u) (hb : Outline.Opens b) :
    unquoted? (a ++ b) = (unquoted? b).map (u ++ ·) := by
  obtain ⟨c, rest, rfl, hc⟩ := hb.exists_cons
  exact Machine.read?_append_of_finishes ha (finishes_delimiter hc)

theorem unquoted?_of_feed (ha : unquoted.feed .between a = (u, .between)) :
    unquoted? (a ++ b) = (unquoted? b).map (u ++ ·) :=
  Machine.read?_append_of_feed ha

theorem head?_unquoted? (h : unquoted? t = some u) : u.head? = t.head? := by
  cases t with
  | nil =>
    cases h
    rfl
  | cons c rest =>
    obtain ⟨last, -, rfl⟩ := Option.map_eq_some_iff.mp h
    have hstart : (unquoted.step .between c).1 = [c] := fst_start c
    rw [Machine.feed, hstart]
    rfl

-- Two bytes beside each other.

def Apart (x y : UInt8) (t : Text) : Prop := t.IsChain fun a b => ¬(a = x ∧ b = y)

theorem apart_append {x y : UInt8} : Apart x y (a ++ b) ↔
    Apart x y a ∧ Apart x y b ∧ ∀ c ∈ a.getLast?, ∀ d ∈ b.head?, ¬(c = x ∧ d = y) :=
  List.isChain_append

theorem occurs_pair_eq_false {x y : UInt8} : Text.occurs [x, y] t = false ↔ Apart x y t := by
  rw [Apart]
  induction t with
  | nil => simp [Text.occurs]
  | cons c rest ih =>
    rw [Text.occurs, Bool.or_eq_false_iff, ih, List.isChain_cons]
    refine and_congr_left fun _ => ?_
    cases rest with
    | nil => simp [List.isPrefixOf]
    | cons d rest =>
      simp [List.isPrefixOf, @eq_comm _ x, @eq_comm _ y]

-- What the outline reads without refusal opens no comment.

def Uncommented (t : Text) : Prop := t.IsChain fun a b => opensComment a b = false

theorem Uncommented.apart_minus (h : Uncommented t) : Apart Byte.minus Byte.minus t :=
  h.imp fun a b hab ⟨ha, hb⟩ => by simp [opensComment, ha, hb] at hab

theorem Uncommented.apart_slash (h : Uncommented t) : Apart Byte.slash Byte.star t :=
  h.imp fun a b hab ⟨ha, hb⟩ => by simp [opensComment, ha, hb] at hab

-- A byte that may begin a comment.
def mark (c : UInt8) : Text := if c = Byte.minus || c = Byte.slash then [c] else []

-- Such a byte at the end of a text.
def lastMark (t : Text) : Text := (t.getLast?.map mark).getD []

theorem mark_eq (c : UInt8) : mark c = [c] ∨ mark c = [] ∧ ∀ d, opensComment c d = false := by
  unfold mark
  split
  · exact .inl rfl
  · next h =>
    simp only [Bool.or_eq_true, decide_eq_true_eq, not_or] at h
    exact .inr ⟨rfl, fun d => by simp [opensComment, h.1, h.2]⟩

theorem mark_of_isWordByte {c : UInt8} (h : Quotation.isWordByte c = true) : mark c = [] := by
  have hall : ∀ c : UInt8, Quotation.isWordByte c = true → mark c = [] :=
    forall_byte (by decide +kernel)
  exact hall c h

theorem lastMark_cons (a : Text) (c : UInt8) (b : Text) :
    lastMark (a ++ c :: b) = lastMark (mark c ++ b) := by
  cases b with
  | nil => rcases mark_eq c with h | ⟨h, -⟩ <;> simp [lastMark, h]
  | cons d b =>
    have hlast (front : Text) : (front ++ d :: b).getLast? = (d :: b).getLast? :=
      List.getLast?_append_of_ne_nil front (List.cons_ne_nil d b)
    rw [lastMark, lastMark, hlast, List.append_cons, hlast]

theorem lastMark_mark (c : UInt8) : lastMark (mark c) = mark c := by
  rcases mark_eq c with h | ⟨h, -⟩
  · rw [h]
    exact h
  · rw [h]
    rfl

theorem ne_of_lastMark (h : lastMark t = []) {c : UInt8} (hc : c ∈ t.getLast?) :
    c ≠ Byte.minus ∧ c ≠ Byte.slash := by
  rw [lastMark, Option.mem_def.mp hc, Option.map_some, Option.getD_some] at h
  constructor
  all_goals
    rintro rfl
    exact absurd h (by decide)

theorem uncommented_cons {a : Text} {c : UInt8} {b : Text} (ha : Uncommented (a ++ [c]))
    (hb : Uncommented (mark c ++ b)) : Uncommented (a ++ c :: b) := by
  have hc : Uncommented (c :: b) := by
    rcases mark_eq c with h | ⟨h, hnone⟩
    · rwa [h] at hb
    · rw [h] at hb
      exact List.isChain_cons.mpr ⟨fun d _ => hnone d, hb⟩
  obtain ⟨hstart, -, hseam⟩ := List.isChain_append.mp ha
  exact List.isChain_append.mpr ⟨hstart, hc, hseam⟩

-- The mode here of a mode there, and the byte that is kept back there.

def view : Outline.Mode → Mode
  | .word t => .word t
  | .quoted m => .quoted m
  | _ => .between

def pending : Outline.Mode → Text
  | .sign c => [c]
  | _ => []

theorem view_start {c : UInt8} (h : (Outline.start c).2 ≠ .refused) :
    start c = ([c], view (Outline.start c).2) ∧ pending (Outline.start c).2 = mark c := by
  have hall : ∀ c : UInt8, (Outline.start c).2 ≠ .refused →
      start c = ([c], view (Outline.start c).2) ∧ pending (Outline.start c).2 = mark c :=
    forall_byte (by decide +kernel)
  exact hall c h

-- One byte is shown, or stands in quotes.
def Advances (m m' : Outline.Mode) (c : UInt8) (shown : Text) : Prop :=
  (shown = [c] ∧ Uncommented (pending m ++ [c]) ∧ pending m' = mark c) ∨
    (shown = [] ∧ pending m = [] ∧ pending m' = [])

theorem view_step {m : Outline.Mode} {c : UInt8} (h : (Outline.step m c).2 ≠ .refused) :
    ∃ shown, step (view m) c = (shown, view (Outline.step m c).2) ∧
      Advances m (Outline.step m c).2 c shown := by
  have hstart (hpending : Uncommented (pending m ++ [c])) (hm : (Outline.start c).2 ≠ .refused) :
      start c = ([c], view (Outline.start c).2) ∧ Advances m (Outline.start c).2 c [c] :=
    ⟨(view_start hm).1, .inl ⟨rfl, hpending, (view_start hm).2⟩⟩
  cases m with
  | between => exact ⟨[c], hstart (.singleton c) h⟩
  | refused => exact absurd rfl h
  | sign s =>
    by_cases hcomment : opensComment s c = true
    · simp [Outline.step, hcomment] at h
    · have hsign : Outline.step (.sign s) c = Outline.next (.sign s) c := by
        simp [Outline.step, hcomment]
      rw [hsign] at h ⊢
      have hpair : Uncommented ([s] ++ [c]) :=
        List.isChain_pair.mpr (by simpa using hcomment)
      exact ⟨[c], hstart hpair h⟩
  | word t =>
    by_cases hword : Quotation.isWordByte c = true
    · have hmore : Outline.step (.word t) c = ([], .word (t ++ [c])) := by
        simp [Outline.step, hword]
      rw [hmore]
      exact ⟨[c], by simp [view, step, hword],
        .inl ⟨rfl, .singleton c, (mark_of_isWordByte hword).symm⟩⟩
    · by_cases hquote : (c = Byte.quote && Text.sameFolded t "E") = true
      · have hopens : Outline.step (.word t) c = ([], .quoted (.string true (t ++ [c]))) := by
          rw [Outline.step, if_neg hword, if_pos hquote]
        rw [hopens]
        obtain ⟨rfl, -⟩ : c = Byte.quote ∧ Text.sameFolded t "E" = true := by simpa using hquote
        exact ⟨[Byte.quote], by rw [view, step, if_neg hword, if_pos hquote]; rfl,
          .inl ⟨rfl, .singleton _, rfl⟩⟩
      · have hends : Outline.step (.word t) c = Outline.next (.word t) c := by
          rw [Outline.step, if_neg hword, if_neg hquote]
        have hends' : step (.word t) c = start c := by rw [step, if_neg hword, if_neg hquote]
        rw [hends] at h ⊢
        rw [view, hends']
        exact ⟨[c], hstart (.singleton c) h⟩
  | quoted m =>
    cases hscan : Scanner.step m c with
    | mk tokens m' =>
      cases tokens with
      | nil =>
        have hinside : Outline.step (.quoted m) c = ([], .quoted m') := by
          simp [Outline.step, hscan]
        rw [hinside]
        exact ⟨[], by simp [view, step, hscan], .inr ⟨rfl, rfl, rfl⟩⟩
      | cons token _ =>
        have hends : Outline.step (.quoted m) c = Outline.next (.quoted token) c := by
          simp [Outline.step, hscan]
        have hends' : step (.quoted m) c = start c := by simp [step, hscan]
        rw [hends] at h ⊢
        rw [view, hends']
        exact ⟨[c], hstart (.singleton c) h⟩

theorem feed_refused (t : Text) : (outline.feed .refused t).2 = .refused := by
  induction t with
  | nil => rfl
  | cons c rest ih => exact ih

theorem view_feed {m : Outline.Mode} {t : Text} (hm : lastMark (pending m) = pending m)
    (h : (outline.feed m t).2 ≠ .refused) :
    ∃ shown, unquoted.feed (view m) t = (shown, view (outline.feed m t).2) ∧
      Uncommented (pending m ++ shown) ∧
      pending (outline.feed m t).2 = lastMark (pending m ++ shown) := by
  induction t generalizing m with
  | nil =>
    have hpending : Uncommented (pending m) := by cases m <;> simp [pending, Uncommented]
    exact ⟨[], rfl, by rwa [List.append_nil], by rw [List.append_nil, hm]; rfl⟩
  | cons c rest ih =>
    have hmode : (outline.feed m (c :: rest)).2 = (outline.feed (Outline.step m c).2 rest).2 := rfl
    rw [hmode] at h ⊢
    have hstep : (Outline.step m c).2 ≠ .refused := by
      intro hrefused
      rw [hrefused] at h
      exact h (feed_refused rest)
    obtain ⟨first, hfirst, hadvance⟩ := view_step hstep
    have hmark : lastMark (pending (Outline.step m c).2) = pending (Outline.step m c).2 := by
      rcases hadvance with ⟨-, -, hmark⟩ | ⟨-, -, hnone⟩
      · rw [hmark, lastMark_mark]
      · rw [hnone]
        rfl
    obtain ⟨more, hmore, huncommented, hpending⟩ := ih hmark h
    refine ⟨first ++ more, ?_, ?_⟩
    · have hfirst' : unquoted.step (view m) c = (first, view (Outline.step m c).2) := hfirst
      rw [Machine.feed, hfirst', hmore]
    · rcases hadvance with ⟨rfl, hpair, hmark⟩ | ⟨rfl, hnone, hnone'⟩
      · rw [hmark] at huncommented hpending
        rw [List.singleton_append, lastMark_cons]
        exact ⟨uncommented_cons hpair huncommented, hpending⟩
      · rw [hnone'] at huncommented hpending
        rw [hnone]
        exact ⟨huncommented, hpending⟩

-- Words between which the outline is between two lexemes.
theorem feed_of_leads {banned : List Text} {i j : Nat} (h : Outline.Leads banned t i j) :
    ∃ u, unquoted.feed .between t = (u, .between) ∧ Uncommented u ∧ lastMark u = [] := by
  obtain ⟨ls, hfeed, -⟩ := h
  obtain ⟨u, hu, huncommented, hlast⟩ :=
    view_feed (m := .between) (t := t) rfl (by simp [hfeed])
  rw [hfeed] at hu hlast
  exact ⟨u, hu, huncommented, hlast.symm⟩

theorem unquoted?_of_ends {banned : List Text} {i j : Nat} (h : Outline.Ends banned t i j) :
    ∃ u, unquoted? t = some u ∧ Uncommented u := by
  obtain ⟨ls, hls, -⟩ := h
  obtain ⟨last, hlast, -⟩ := Option.map_eq_some_iff.mp hls
  have hfinish : (view (outline.feed .between t).2).finish = some [] := by
    cases hmode : (outline.feed .between t).2 with
    | quoted m => cases m <;> rw [hmode] at hlast <;> cases hlast <;> rfl
    | refused =>
      rw [hmode] at hlast
      cases hlast
    | _ => rfl
  obtain ⟨u, hu, huncommented, -⟩ := view_feed (m := .between) (t := t) rfl (by
    intro hrefused
    rw [hrefused] at hlast
    cases hlast)
  refine ⟨u, ?_, huncommented⟩
  have hread : unquoted.finish (view (outline.feed .between t).2) = some [] := hfinish
  have hfeed : unquoted.feed .between t = (u, view (outline.feed .between t).2) := hu
  rw [unquoted?, Machine.read?, hfeed, hread]
  simp

-- A text that closes its quotes and opens no comment with a star, and with two
-- signs only if it is not calm.
def Shows (t : Text) (calm : Prop) : Prop :=
  ∃ u, unquoted? t = some u ∧ Apart Byte.slash Byte.star u ∧
    (Apart Byte.minus Byte.minus u ↔ calm)

theorem Shows.congr {calm calm' : Prop} (h : Shows t calm) (hcalm : calm ↔ calm') :
    Shows t calm' := by
  rwa [← propext hcalm]

theorem shows_of_ends {banned : List Text} {i j : Nat} (h : Outline.Ends banned t i j) :
    Shows t True := by
  obtain ⟨u, hu, huncommented⟩ := unquoted?_of_ends h
  exact ⟨u, hu, huncommented.apart_slash, by simp [huncommented.apart_minus]⟩

-- A text behind a word.
theorem Shows.behind {banned : List Text} {i j : Nat} (hw : Outline.Leads banned a i j)
    {calm : Prop} (h : Shows b calm) : Shows (a ++ b) calm := by
  obtain ⟨u, hu, huncommented, hlast⟩ := feed_of_leads hw
  obtain ⟨v, hv, hslash, hminus⟩ := h
  have happart {x y : UInt8} (hu : Apart x y u) (hx : x = Byte.minus ∨ x = Byte.slash) :
      Apart x y (u ++ v) ↔ Apart x y v := by
    rw [apart_append]
    refine ⟨fun h => h.2.1, fun h => ⟨hu, h, fun c hc d _ hcd => ?_⟩⟩
    obtain ⟨hne, hne'⟩ := ne_of_lastMark hlast hc
    rcases hx with rfl | rfl
    · exact hne hcd.1
    · exact hne' hcd.1
  refine ⟨u ++ v, by rw [unquoted?_of_feed hu, hv]; rfl, ?_, ?_⟩
  · exact (happart huncommented.apart_slash (.inr rfl)).mpr hslash
  · rw [happart huncommented.apart_minus (.inl rfl), hminus]

-- Texts beside each other, the second with a delimiter in front.
theorem Shows.append {calm calm' : Prop} (ha : Shows a calm) (hopens : Outline.Opens b)
    (hb : Shows b calm') : Shows (a ++ b) (calm ∧ calm') := by
  obtain ⟨u, hu, hslash, hminus⟩ := ha
  obtain ⟨v, hv, hslash', hminus'⟩ := hb
  have happart {x y : UInt8} (hy : y ∉ delimiters) :
      Apart x y (u ++ v) ↔ Apart x y u ∧ Apart x y v := by
    rw [apart_append]
    refine ⟨fun h => ⟨h.1, h.2.1⟩, fun h => ⟨h.1, h.2, fun c _ d hd hcd => ?_⟩⟩
    obtain ⟨e, rest, rfl, he⟩ := hopens.exists_cons
    rw [head?_unquoted? hv] at hd
    obtain rfl := Option.some.inj hd
    exact hy (hcd.2 ▸ he)
  refine ⟨u ++ v, by rw [unquoted?_append hu hopens, hv]; rfl, ?_, ?_⟩
  · exact (happart (by decide)).mpr ⟨hslash, hslash'⟩
  · rw [happart (by decide), hminus, hminus']

theorem Shows.minus {calm : Prop} (h : Shows t calm) :
    Shows ("-" ++ t) (t.head? ≠ some Byte.minus ∧ calm) := by
  obtain ⟨u, hu, hslash, hminus⟩ := h
  have hsign : unquoted.feed .between "-" = ([Byte.minus], .between) := rfl
  refine ⟨[Byte.minus] ++ u, by rw [unquoted?_of_feed hsign, hu]; rfl, ?_, ?_⟩
  · refine List.isChain_cons.mpr ⟨fun c _ h => ?_, hslash⟩
    exact absurd h.1 (by decide)
  · rw [List.singleton_append, Apart, List.isChain_cons, ← Apart, hminus, head?_unquoted? hu]
    refine and_congr_left fun _ => ?_
    cases t.head? <;> simp

end Unquoted

end EntitySql.Sql
