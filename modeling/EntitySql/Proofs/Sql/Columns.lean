import EntitySql.Proofs.Sql.Operands
import EntitySql.Proofs.Text.Join

-- Quoted names as the scanner reads them: the segments of a dotted name, and
-- of a column behind its alias, are one operand.

namespace EntitySql.Sql

namespace Scanner

def segmentToken (segment : Text) : Token :=
  if segment = [Byte.star] then .sign [Byte.star] else .name segment

-- The scanner waits for a second quote behind a quoted segment, and for a
-- longer sign behind a star.
def segmentMode (segment : Text) : Mode :=
  if segment = [Byte.star] then .sign [Byte.star] else .nameQuote segment

theorem feed_quoteBytes (s t : Text) :
    scanner.feed (.name t) (s.flatMap quoteByte) = ([], .name (t ++ s)) := by
  induction s generalizing t with
  | nil => simp [Machine.feed]
  | cons c rest ih =>
    have hc : scanner.feed (.name t) (quoteByte c) = ([], .name (t ++ [c])) := by
      unfold quoteByte
      by_cases hquote : c = Byte.doubleQuote
      · subst hquote
        simp [Machine.feed, scanner, step]
      · simp [Machine.feed, scanner, step, hquote]
    rw [List.flatMap_cons, Machine.feed_append_of_feed hc (ih _)]
    simp

theorem feed_quotedSegment (segment : Text) :
    scanner.feed .blank (quotedSegment segment) = ([], segmentMode segment) := by
  unfold quotedSegment segmentMode
  by_cases hstar : segment = [Byte.star]
  · rw [if_pos hstar, if_pos hstar, hstar]
    rfl
  · rw [if_neg hstar, if_neg hstar]
    have hopening : scanner.feed .blank [Byte.doubleQuote] = ([], .name []) := rfl
    have hbody := Machine.feed_append_of_feed hopening (feed_quoteBytes segment [])
    exact Machine.feed_append_of_feed hbody rfl

-- A byte that goes on with no token is read as at a start.
theorem feed_of_next {m : Mode} {t : Token} {c : UInt8} {rest : Text}
    (h : scanner.step m c = next t c) :
    scanner.feed m (c :: rest) =
      (t :: (scanner.feed .blank (c :: rest)).1, (scanner.feed .blank (c :: rest)).2) := by
  have hblank : scanner.step .blank c = start c := rfl
  simp [Machine.feed, h, hblank, next]

theorem feed_dot_quotedSegment (segment following : Text) :
    scanner.feed (segmentMode segment) (Byte.dot :: quotedSegment following) =
      ([segmentToken segment, .sign [Byte.dot]], segmentMode following) := by
  have hdot : scanner.feed (segmentMode segment) [Byte.dot] =
      ([segmentToken segment], .sign [Byte.dot]) := by
    unfold segmentMode segmentToken
    by_cases hstar : segment = [Byte.star]
    · rw [if_pos hstar, if_pos hstar]
      rfl
    · rw [if_neg hstar, if_neg hstar]
      rfl
  have hfollowing : scanner.feed (.sign [Byte.dot]) (quotedSegment following) =
      ([.sign [Byte.dot]], segmentMode following) := by
    have hblank := feed_quotedSegment following
    unfold quotedSegment at hblank ⊢
    by_cases hstar : following = [Byte.star]
    · rw [if_pos hstar] at hblank ⊢
      rw [hstar] at hblank ⊢
      rw [feed_of_next (t := .sign [Byte.dot]) rfl, hblank]
    · rw [if_neg hstar] at hblank ⊢
      rw [List.cons_append] at hblank ⊢
      rw [feed_of_next (t := .sign [Byte.dot]) rfl, hblank]
  exact Machine.feed_append_of_feed hdot hfollowing

def dotted (segment : Text) (rest : List Text) : List Token :=
  segmentToken segment :: rest.flatMap fun s => [.sign [Byte.dot], segmentToken s]

theorem read?_segments (segment : Text) (rest : List Text) :
    scanner.read? (segmentMode segment) (rest.flatMap fun s => Byte.dot :: quotedSegment s) =
      some (dotted segment rest) := by
  induction rest generalizing segment with
  | nil =>
    unfold segmentMode dotted segmentToken
    by_cases hstar : segment = [Byte.star]
    · rw [if_pos hstar, if_pos hstar]
      rfl
    · rw [if_neg hstar, if_neg hstar]
      rfl
  | cons following rest ih =>
    rw [List.flatMap_cons,
      Machine.read?_append_of_feed (feed_dot_quotedSegment segment following), ih]
    rfl

theorem isPlain_dotted (segment : Text) (rest : List Text) :
    ∀ t ∈ dotted segment rest, t.isPlain = true := by
  have hsegment (s : Text) : (segmentToken s).isPlain = true := by
    unfold segmentToken
    by_cases hstar : s = [Byte.star]
    · rw [if_pos hstar]
      decide
    · rw [if_neg hstar]
      rfl
  refine List.forall_mem_cons.mpr ⟨hsegment segment, fun t ht => ?_⟩
  obtain ⟨s, -, hs⟩ := List.mem_flatMap.mp ht
  simp only [List.mem_cons, List.not_mem_nil, or_false] at hs
  rcases hs with rfl | rfl
  · decide
  · exact hsegment s

end Scanner

theorem scans_segments {segments : List Text} (h : segments ≠ []) :
    Scans (Text.join [Byte.dot] (segments.map quotedSegment)) := by
  cases segments with
  | nil => exact absurd rfl h
  | cons segment rest =>
    have htokens : tokens? (Text.join [Byte.dot] ((segment :: rest).map quotedSegment)) =
        some (Scanner.dotted segment rest) := by
      rw [tokens?, List.map_cons, Text.join_cons, List.flatMap_map,
        Machine.read?_append_of_feed (Scanner.feed_quotedSegment segment)]
      simpa using Scanner.read?_segments segment rest
    exact .of_isPlain htokens (by simp [Scanner.dotted]) (Scanner.isPlain_dotted segment rest)

theorem scans_columnText (table : Option Text) (name : Text) :
    Scans (Term.columnText table name) := by
  cases table with
  | none => exact scans_segments (Text.split_ne_nil _ _)
  | some aliasName =>
    have hjoin := Text.join_append [Byte.dot]
      (a := (Text.split Byte.dot aliasName).map quotedSegment)
      (b := (Text.split Byte.dot name).map quotedSegment)
      (by simp [Text.split_ne_nil]) (by simp [Text.split_ne_nil])
    have hne : Text.split Byte.dot aliasName ++ Text.split Byte.dot name ≠ [] := by
      simp [Text.split_ne_nil]
    have hscans := scans_segments hne
    rw [List.map_append, hjoin, List.append_assoc] at hscans
    exact hscans

end EntitySql.Sql
