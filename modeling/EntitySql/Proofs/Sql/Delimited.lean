import EntitySql.Proofs.Include.Names
import EntitySql.Proofs.Machine

-- Names between double quotes. A double quote ends the name unless another one
-- stands behind it, and a pair of them is one byte of the name. A quoted name is
-- read back segment by segment, so that no two names are written alike.

namespace EntitySql.Sql.Delimited

-- A byte outside of quotes, or what stands between two of them.
inductive Part where
  | byte (c : UInt8)
  | name (t : Text)
  deriving DecidableEq

def Part.content : Part → Text
  | .byte c => [c]
  | .name t => t

-- Outside of quotes, or inside where the given bytes have been read. A quote
-- inside is the end of the name or the first half of a pair.
inductive Mode where
  | outside
  | inside (t : Text)
  | quote (t : Text)
  deriving DecidableEq

-- A name without its closing quote is refused.
def Mode.finish : Mode → Option (List Part)
  | .outside => some []
  | .inside _ => none
  | .quote t => some [.name t]

def step : Mode → UInt8 → List Part × Mode
  | .outside, c => if c = Byte.doubleQuote then ([], .inside []) else ([.byte c], .outside)
  | .inside t, c => if c = Byte.doubleQuote then ([], .quote t) else ([], .inside (t ++ [c]))
  | .quote t, c =>
    if c = Byte.doubleQuote then ([], .inside (t ++ [c])) else ([.name t, .byte c], .outside)

def reader : Machine UInt8 Part Mode := ⟨step, Mode.finish⟩

def parts? (t : Text) : Option (List Part) := reader.read? .outside t

-- How a segment of a name is read: a star stays bare.
def ofSegment (segment : Text) : Part :=
  if segment = [Byte.star] then .byte Byte.star else .name segment

def ofSegments (segments : List Text) : List Part :=
  (segments.map ofSegment).intersperse (.byte Byte.dot)

theorem content_ofSegment (segment : Text) : (ofSegment segment).content = segment := by
  unfold ofSegment
  by_cases hstar : segment = [Byte.star]
  · rw [if_pos hstar, hstar]
    rfl
  · rw [if_neg hstar]
    rfl

-- The parts without their quotes are the segments with dots between them.
theorem flatMap_content_ofSegments (segments : List Text) :
    (ofSegments segments).flatMap Part.content = Text.join [Byte.dot] segments := by
  unfold ofSegments
  induction segments with
  | nil => rfl
  | cons segment rest ih =>
    cases rest with
    | nil => simp [content_ofSegment, Text.join]
    | cons following rest =>
      simp only [List.map_cons, List.intersperse_cons_cons, List.flatMap_cons] at ih ⊢
      rw [ih, content_ofSegment, Text.join_cons_cons, List.append_assoc]
      rfl

theorem feed_quoteBytes (s t : Text) :
    reader.feed (.inside t) (s.flatMap quoteByte) = ([], .inside (t ++ s)) := by
  induction s generalizing t with
  | nil => simp [Machine.feed]
  | cons c rest ih =>
    have hc : reader.feed (.inside t) (quoteByte c) = ([], .inside (t ++ [c])) := by
      unfold quoteByte
      by_cases hquote : c = Byte.doubleQuote
      · subst hquote
        simp [Machine.feed, reader, step]
      · simp [Machine.feed, reader, step, hquote]
    rw [List.flatMap_cons, Machine.feed_append_of_feed hc (ih _)]
    simp

theorem feed_quoted (segment : Text) :
    reader.feed .outside (Byte.doubleQuote :: segment.flatMap quoteByte ++ [Byte.doubleQuote]) =
      ([], .quote segment) := by
  have hopening : reader.feed .outside [Byte.doubleQuote] = ([], .inside []) := rfl
  have hbody := Machine.feed_append_of_feed hopening (feed_quoteBytes segment [])
  exact Machine.feed_append_of_feed hbody rfl

-- At the end of the text a segment is complete.
theorem parts?_quotedSegment (segment : Text) :
    parts? (quotedSegment segment) = some [ofSegment segment] := by
  unfold quotedSegment ofSegment
  by_cases hstar : segment = [Byte.star]
  · rw [if_pos hstar, if_pos hstar, hstar]
    rfl
  · rw [if_neg hstar, if_neg hstar, parts?, Machine.read?, feed_quoted]
    rfl

-- And so it is in front of a dot, behind which the reader starts anew.
theorem feed_quotedSegment_dot (segment : Text) :
    reader.feed .outside (quotedSegment segment ++ [Byte.dot]) =
      ([ofSegment segment, .byte Byte.dot], .outside) := by
  unfold quotedSegment ofSegment
  by_cases hstar : segment = [Byte.star]
  · rw [if_pos hstar, if_pos hstar, hstar]
    rfl
  · rw [if_neg hstar, if_neg hstar]
    exact Machine.feed_append_of_feed (feed_quoted segment) rfl

theorem parts?_segments {segments : List Text} (h : segments ≠ []) :
    parts? (Text.join [Byte.dot] (segments.map quotedSegment)) = some (ofSegments segments) := by
  induction segments with
  | nil => exact absurd rfl h
  | cons segment rest ih =>
    cases rest with
    | nil => exact parts?_quotedSegment segment
    | cons following rest =>
      have hrest := ih (List.cons_ne_nil following rest)
      rw [parts?] at hrest ⊢
      rw [List.map_cons, List.map_cons, Text.join_cons_cons,
        Machine.read?_append_of_feed (feed_quotedSegment_dot segment), ← List.map_cons, hrest]
      rfl

theorem parts?_quoted (name : Text) :
    parts? (quoted name) = some (ofSegments (Text.split Byte.dot name)) :=
  parts?_segments (Text.split_ne_nil Byte.dot name)

theorem identifier_eq_ok {name sql : Text} : identifier name = .ok sql ↔
    (∀ segment ∈ Text.split Byte.dot name, segment ≠ [] ∧ Byte.nul ∉ segment) ∧
      sql = quoted name := by
  rw [← Include.identifierFault?_eq_none, identifier]
  cases identifierFault? name <;> simp [eq_comm]

-- A name can be quoted exactly if no segment is empty or holds a NUL. The
-- segments are then read back in order, each between quotes of its own or as a
-- bare star, with nothing but the dots between them.
theorem quotes_exactly (name : Text) :
    ((∃ sql, identifier name = .ok sql) ↔ name = [Byte.star] ∨
      ∀ segment ∈ Text.split Byte.dot name, segment ≠ [] ∧ Byte.nul ∉ segment) ∧
    ∀ sql, identifier name = .ok sql →
      parts? sql = some (ofSegments (Text.split Byte.dot name)) ∧
        (ofSegments (Text.split Byte.dot name)).flatMap Part.content = name ∧
        ∀ other, identifier other = .ok sql → other = name := by
  have hcontent (t : Text) : (ofSegments (Text.split Byte.dot t)).flatMap Part.content = t :=
    (flatMap_content_ofSegments _).trans (Text.join_split Byte.dot t)
  refine ⟨⟨?_, ?_⟩, fun sql hsql => ?_⟩
  · rintro ⟨sql, hsql⟩
    exact .inr (identifier_eq_ok.mp hsql).1
  · rintro (rfl | hsegments)
    · exact ⟨[Byte.star], rfl⟩
    · exact ⟨quoted name, identifier_eq_ok.mpr ⟨hsegments, rfl⟩⟩
  · have hparts : parts? sql = some (ofSegments (Text.split Byte.dot name)) := by
      rw [(identifier_eq_ok.mp hsql).2, parts?_quoted]
    refine ⟨hparts, hcontent name, fun other hother => ?_⟩
    rw [(identifier_eq_ok.mp hother).2, parts?_quoted, Option.some_inj] at hparts
    rw [← hcontent other, hparts, hcontent]

-- A segment of two quotes, one that ends in a quote, and a star behind them.
def trickyName : Text := "\"\".a\".*"

theorem quotes_exactly_trickyName :
    identifier trickyName = .ok "\"\"\"\"\"\".\"a\"\"\".*" ∧
      parts? "\"\"\"\"\"\".\"a\"\"\".*" =
        some [.name "\"\"", .byte Byte.dot, .name "a\"", .byte Byte.dot, .byte Byte.star] := by
  have hidentifier : identifier trickyName = .ok "\"\"\"\"\"\".\"a\"\"\".*" := rfl
  exact ⟨hidentifier, ((quotes_exactly trickyName).2 _ hidentifier).1.trans (by decide)⟩

end EntitySql.Sql.Delimited
