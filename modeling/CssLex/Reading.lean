import CssLex.Cursor

/-!
# CssLex — readings and their traces

A reader is a function from what is left of a text to a `Reading`: a value, what is left afterwards,
and the trace of what happened on the way, one event per code point taken or error reported. Readers
know neither the place they read at nor the policy for errors: both belong to the cursor, which
plays the trace of a reading (`Cursor.play`). So a reader depends on nothing but the text before it,
and what the strict policy changes is decided in one place, `Cursor.report`.

* `Reading.Splits`: what was taken, followed by what is left, is the text that was read.
* `Cursor.play_nil`, `Cursor.play_take`, `Cursor.play_report_strict`,
  `Cursor.play_report_lenient`: how a cursor follows a trace.
-/

namespace CssLex

/-- One thing that happens while reading. -/
inductive Event where
  /-- The next code point is passed. -/
  | take (c : Char)
  /-- An error is reported at the current place. -/
  | report (kind : ErrorKind)
  deriving DecidableEq, Repr

/-- The code point that an event passes. -/
def Event.char? : Event → Option Char
  | .take c => some c
  | .report _ => none

/-- The error that an event reports. -/
def Event.error? : Event → Option ErrorKind
  | .take _ => none
  | .report kind => some kind

/-- What happens during a reading, in order. -/
abbrev Trace := List Event

namespace Trace

/-- The trace that passes a text and reports nothing. -/
def taking (text : List Char) : Trace :=
  text.map Event.take

/-- The text that a trace passes. -/
def taken (t : Trace) : List Char :=
  t.filterMap Event.char?

/-- The errors that a trace reports. -/
def reported (t : Trace) : List ErrorKind :=
  t.filterMap Event.error?

@[simp] theorem taken_nil : taken [] = [] := rfl

@[simp] theorem taken_take (c : Char) (t : Trace) : taken (.take c :: t) = c :: taken t := rfl

@[simp] theorem taken_report (kind : ErrorKind) (t : Trace) :
    taken (.report kind :: t) = taken t := rfl

@[simp] theorem taken_append (t u : Trace) : taken (t ++ u) = taken t ++ taken u := by
  simp [taken]

@[simp] theorem taken_taking (s : List Char) : taken (taking s) = s := by
  induction s with
  | nil => rfl
  | cons c s ih => exact congrArg (c :: ·) ih

/-- A run of a class and what follows it are the text. -/
theorem taken_takeWhile_append (p : Char → Bool) (s : List Char) :
    taken (taking (s.takeWhile p)) ++ s.dropWhile p = s := by
  rw [taken_taking, List.takeWhile_append_dropWhile]

@[simp] theorem reported_nil : reported [] = [] := rfl

@[simp] theorem reported_take (c : Char) (t : Trace) : reported (.take c :: t) = reported t := rfl

@[simp] theorem reported_report (kind : ErrorKind) (t : Trace) :
    reported (.report kind :: t) = kind :: reported t := rfl

@[simp] theorem reported_append (t u : Trace) :
    reported (t ++ u) = reported t ++ reported u := by
  simp [reported]

@[simp] theorem reported_taking (s : List Char) : reported (taking s) = [] := by
  induction s with
  | nil => rfl
  | cons c s ih => exact ih

/-- A code point is passed before anything is reported. -/
def Moves (t : Trace) : Prop :=
  ∃ c u, t = .take c :: u

/-- What moves still moves when more follows. -/
theorem Moves.append {t : Trace} (h : Moves t) (u : Trace) : Moves (t ++ u) := by
  obtain ⟨c, v, rfl⟩ := h
  exact ⟨c, v ++ u, rfl⟩

/-- To pass a text that is not empty is to move. -/
theorem moves_taking {s : List Char} (h : s ≠ []) : Moves (taking s) := by
  cases s with
  | nil => exact absurd rfl h
  | cons c s => exact ⟨c, taking s, rfl⟩

end Trace

/-! ## Readings

Readers are put together from smaller ones by `map` and `after`, and each of them is shown to take the front
of its text along the same lines. -/

/-- What a reader makes of a text. -/
structure Reading (α : Type) where
  value : α
  /-- What is left of the text. -/
  rest : List Char
  /-- What happened on the way. -/
  trace : Trace
  deriving DecidableEq, Repr

namespace Reading

variable {α β : Type}

/-- The same reading of another value. -/
def map (f : α → β) (r : Reading α) : Reading β :=
  ⟨f r.value, r.rest, r.trace⟩

/-- The reading that has the events of `t` before those of `r`. -/
def after (t : Trace) (r : Reading α) : Reading α :=
  ⟨r.value, r.rest, t ++ r.trace⟩

/-- The reading takes its part from the front of `s` and leaves the other. -/
def Splits (r : Reading α) (s : List Char) : Prop :=
  Trace.taken r.trace ++ r.rest = s

@[simp] theorem value_map (f : α → β) (r : Reading α) : (r.map f).value = f r.value := rfl

@[simp] theorem rest_map (f : α → β) (r : Reading α) : (r.map f).rest = r.rest := rfl

@[simp] theorem trace_map (f : α → β) (r : Reading α) : (r.map f).trace = r.trace := rfl

@[simp] theorem value_after (t : Trace) (r : Reading α) : (r.after t).value = r.value := rfl

@[simp] theorem rest_after (t : Trace) (r : Reading α) : (r.after t).rest = r.rest := rfl

@[simp] theorem trace_after (t : Trace) (r : Reading α) : (r.after t).trace = t ++ r.trace := rfl

/-- A reading leaves no more than it was given. -/
theorem Splits.length_le {r : Reading α} {s : List Char} (h : r.Splits s) :
    r.rest.length ≤ s.length := by
  have := congrArg List.length h
  simp only [List.length_append] at this
  omega

/-- Another value takes the same code points. -/
theorem Splits.map {r : Reading α} {s : List Char} {f : α → β} (h : r.Splits s) :
    (r.map f).Splits s := h

/-- A reading of what a trace leaves, with the trace before it, is a reading of the whole. -/
theorem Splits.after {r : Reading α} {t : Trace} {u s : List Char} (h : r.Splits u)
    (ht : Trace.taken t ++ u = s) : (r.after t).Splits s := by
  rw [Splits, trace_after, rest_after, Trace.taken_append, List.append_assoc, h, ht]

end Reading

/-! ## Playing a trace

A cursor follows a trace event by event. Under the lenient policy it follows all of it; under the strict
policy the first report is the answer, and the cursor stays where it was reported. -/

namespace Cursor

variable {α : Type}

/-- Follows a trace, passing a code point for each that was taken and reporting each error. It stops
where a report becomes the answer, which is the first one under the strict policy. -/
def play (c : Cursor) : Trace → Except ParseError Unit × Cursor
  | [] => (.ok (), c)
  | .take _ :: t => (c.advance 1).play t
  | .report kind :: t =>
    match c.report kind with
    | .ok c => c.play t
    | .error e => (.error e, c)

/-- Reads with `read` from where the cursor stands. The value is the answer unless an error is. -/
def run (c : Cursor) (read : List Char → Reading α) : Except ParseError α × Cursor :=
  let reading := read c.rest
  let played := c.play reading.trace
  (played.1.map fun _ => reading.value, played.2)

@[simp] theorem play_nil (c : Cursor) : c.play [] = (.ok (), c) := rfl

@[simp] theorem play_take (c : Cursor) (x : Char) (t : Trace) :
    c.play (.take x :: t) = (c.advance 1).play t := rfl

/-- Under the strict policy a report is the answer, and the cursor stays where it is. -/
theorem play_report_strict {c : Cursor} (h : c.policy = .strict) (kind : ErrorKind) (t : Trace) :
    c.play (.report kind :: t) = (.error (c.errorHere kind), c) := by
  simp [play, report, h]

/-- Under the lenient policy a report is recorded, and the trace goes on. -/
theorem play_report_lenient {c : Cursor} (h : c.policy = .lenient) (kind : ErrorKind)
    (t : Trace) :
    c.play (.report kind :: t) =
      { c with errors := c.errors.push (c.errorHere kind) }.play t := by
  simp [play, report, h]

/-- A trace only ever moves the cursor forward. -/
theorem length_rest_play_le (c : Cursor) (t : Trace) :
    (c.play t).2.rest.length ≤ c.rest.length := by
  fun_induction play c t with
  | case1 => exact Nat.le_refl _
  | case2 c x t ih => simp only [rest_advance, List.length_drop] at ih; omega
  -- a report that is not the answer changes nothing but the record
  | case3 c kind t c' hc ih =>
    refine Nat.le_trans ih (Nat.le_of_eq ?_)
    rw [eq_of_report_eq_ok hc]
  | case4 => exact Nat.le_refl _

/-- A trace that passes a code point first moves every cursor that is not at the end, whatever it
reports later. -/
theorem length_rest_play_lt {c : Cursor} {t : Trace} (ht : t.Moves) (hc : c.rest ≠ []) :
    (c.play t).2.rest.length < c.rest.length := by
  obtain ⟨x, u, rfl⟩ := ht
  have hle := length_rest_play_le (c.advance 1) u
  have hpos := List.length_pos_iff.2 hc
  simp only [rest_advance, List.length_drop] at hle
  rw [play_take]
  omega

end Cursor

end CssLex
