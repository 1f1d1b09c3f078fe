import EntitySql.Text

-- Machines that read a list and write a list. A machine keeps what it has
-- not written yet in its mode, and what is left there at the end is written
-- by finishing, which refuses a mode that waits for more.

namespace EntitySql

structure Machine (α β μ : Type) where
  step : μ → α → List β × μ
  finish : μ → Option (List β)

namespace Machine

variable {α β μ : Type} (M : Machine α β μ)

-- What is written while the input is read, and the mode behind it.
def feed (m : μ) : List α → List β × μ
  | [] => ([], m)
  | a :: rest =>
    ((M.step m a).1 ++ (feed (M.step m a).2 rest).1, (feed (M.step m a).2 rest).2)

def read? (m : μ) (input : List α) : Option (List β) :=
  (M.finish (M.feed m input).2).map ((M.feed m input).1 ++ ·)

-- Reading the symbol finishes what the machine has begun, and goes on as if
-- the machine had been in the given mode.
def Finishes (a : α) (m : μ) : Prop :=
  ∀ m' out, M.finish m' = some out → M.step m' a = (out ++ (M.step m a).1, (M.step m a).2)

variable {M} {m m' : μ} {input rest : List α} {out : List β}

theorem feed_append (input rest : List α) :
    M.feed m (input ++ rest) =
      ((M.feed m input).1 ++ (M.feed (M.feed m input).2 rest).1,
        (M.feed (M.feed m input).2 rest).2) := by
  induction input generalizing m with
  | nil => simp [feed]
  | cons a input ih => simp [feed, ih]

theorem read?_append_of_feed (h : M.feed m input = (out, m')) :
    M.read? m (input ++ rest) = (M.read? m' rest).map (out ++ ·) := by
  simp [read?, feed_append, h, Function.comp_def]

theorem feed_append_of_feed (h : M.feed m input = (out, m')) {more : List β} {m'' : μ}
    (hrest : M.feed m' rest = (more, m'')) :
    M.feed m (input ++ rest) = (out ++ more, m'') := by
  simp [feed_append, h, hrest]

-- Behind a complete input, a symbol that finishes is read as at a start.
theorem read?_append_of_finishes {a : α} {start : μ} (h : M.read? m input = some out)
    (hfinish : M.Finishes a start) :
    M.read? m (input ++ a :: rest) = (M.read? start (a :: rest)).map (out ++ ·) := by
  rw [read?, Option.map_eq_some_iff] at h
  obtain ⟨last, hlast, hout⟩ := h
  have hstep := hfinish _ _ hlast
  simp only [read?, feed_append, feed, hstep, Option.map_map, ← hout]
  simp [Function.comp_def]

theorem feed_append_of_finishes {a : α} {start : μ} {last : List β}
    (h : M.finish (M.feed m input).2 = some last) (hfinish : M.Finishes a start) :
    M.feed m (input ++ a :: rest) =
      ((M.feed m input).1 ++ last ++ (M.feed start (a :: rest)).1, (M.feed start (a :: rest)).2) := by
  have hstep := hfinish _ _ h
  simp [feed_append, feed, hstep]

end Machine

end EntitySql
