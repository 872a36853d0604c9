import CssLex.Proofs.Lexing
import Mathlib.Data.List.DropRight

/-!
# CssLex — the account of a cursor

Whatever is done with a cursor, what it says of itself is true of the text it was made over: its position is
the number of code points it has passed, its line and column are those of the place behind them, and what it
has recorded stays where it is.

* `Operation`: what can be done with a cursor, reading a token among it.
* `Cursor.precedes_perform`: every operation moves the cursor forward and records errors, and does nothing
  else, so all that has to be known of an operation is how far it moves.
* `Cursor.gatherWhile`, `Cursor.skipWhile`: loops that ask of the end of the text, too, whether to go on;
  they come out where `Cursor.takeWhile` does (`Cursor.gatherWhile_eq`, `Cursor.skipWhile_eq`).
* `account_kept`: the account behind any sequence of operations.
-/

namespace CssLex

/-! ## Lines and columns

The place behind a text is computed code point by code point. What it says of the text can be said without
that: lines count newlines, and the column is the length of what stands behind the last of them. -/

/-- Every newline of a text begins a line. -/
theorem Location.line_through (l : Location) (w : List Char) :
    (l.through w).line = l.line + w.count '\n' := by
  -- from the front, for any place to start at
  induction w generalizing l with
  | nil => rfl
  | cons c w ih =>
    rw [through_cons, ih]
    by_cases hc : c = '\n'
    · rw [hc, List.count_cons_self, after, if_pos rfl]
      exact Nat.add_right_comm _ _ _
    · simp [after, hc]

/-- The column counts what stands behind the last newline. -/
theorem Location.column_through_start (w : List Char) :
    (start.through w).column = (w.rtakeWhile (· != '\n')).length := by
  -- a text changes at its end, so the induction goes from there
  induction w using List.reverseRecOn with
  | nil => rfl
  | append_singleton w c ih =>
    rw [through_append, through_cons, through_nil]
    by_cases hc : c = '\n'
    · rw [List.rtakeWhile_concat_neg _ _ _ (by simp [hc])]
      simp [after, hc]
    · rw [List.rtakeWhile_concat_pos _ _ _ (by simp [hc])]
      simp [after, hc, ih]

/-! ## Loops over a class

A class that a loop goes by can hold of the end of the text. The end cannot be passed, so the loop is over
there all the same. -/

namespace Cursor

theorem rest_ne_nil_of_atEnd {c : Cursor} (h : c.atEnd = false) : c.rest ≠ [] := by
  simpa [atEnd] using h

/-- Each turn of a loop passes one, so the loops come to an end. -/
theorem length_rest_next_lt {c : Cursor} (h : c.atEnd = false) :
    c.next.2.rest.length < c.rest.length := by
  have hpos := List.length_pos_iff.2 (rest_ne_nil_of_atEnd h)
  show (c.rest.drop 1).length < c.rest.length
  rw [List.length_drop]
  omega

/-- Passes what comes next for as long as it is accepted, and puts it behind `dest`. -/
def gatherWhile (c : Cursor) (accepts : Option Char → Bool) (dest : List Char) :
    List Char × Cursor :=
  if _h : c.atEnd = false ∧ accepts (c.peek? 0) = true then
    gatherWhile c.next.2 accepts (dest ++ c.next.1.toList)
  else (dest, c)
termination_by c.rest.length
decreasing_by exact length_rest_next_lt _h.1

/-- Passes what comes next for as long as it is accepted. -/
def skipWhile (c : Cursor) (accepts : Option Char → Bool) : Cursor :=
  if _h : c.atEnd = false ∧ accepts (c.peek? 0) = true then skipWhile c.next.2 accepts
  else c
termination_by c.rest.length
decreasing_by exact length_rest_next_lt _h.1

/-- A run is taken one code point after another. -/
theorem takeWhile_of_peek? {c : Cursor} {p : Char → Bool} {x : Char} (hx : c.peek? 0 = some x)
    (hp : p x = true) :
    c.takeWhile p = (x :: (c.next.2.takeWhile p).1, (c.next.2.takeWhile p).2) := by
  obtain ⟨s, hs⟩ : ∃ s, c.rest = x :: s := by
    cases hrest : c.rest with
    | nil => simp [peek?, hrest] at hx
    | cons d s => exact ⟨s, by simpa [peek?, hrest] using hx⟩
  have hnext : c.next.2.rest = s := by
    show c.rest.drop 1 = s
    rw [hs]
    rfl
  have htake : c.rest.takeWhile p = x :: s.takeWhile p := by
    rw [hs, List.takeWhile_cons, if_pos hp]
  simp only [takeWhile, hnext, htake, List.length_cons, Nat.add_comm _ 1, advance_add]
  rfl

/-- Where nothing comes next that is accepted, no run is taken. -/
theorem takeWhile_of_not_accepted {c : Cursor} {accepts : Option Char → Bool}
    (h : ¬ (c.atEnd = false ∧ accepts (c.peek? 0) = true)) :
    c.takeWhile (fun x => accepts (some x)) = ([], c) := by
  have hnone : c.rest.takeWhile (fun x => accepts (some x)) = [] := by
    cases hrest : c.rest with
    | nil => rfl
    | cons x s =>
      have hx : accepts (some x) = false := by simpa [atEnd, peek?, hrest] using h
      rw [List.takeWhile_cons, if_neg (by simp [hx])]
  simp [takeWhile, hnone]

theorem exists_peek?_of_atEnd {c : Cursor} (h : c.atEnd = false) : ∃ x, c.peek? 0 = some x := by
  cases hrest : c.rest with
  | nil => exact absurd hrest (rest_ne_nil_of_atEnd h)
  | cons x s => exact ⟨x, by simp [peek?, hrest]⟩

/-- A loop that gathers takes the longest run. -/
theorem gatherWhile_eq (c : Cursor) (accepts : Option Char → Bool) (dest : List Char) :
    c.gatherWhile accepts dest =
      (dest ++ (c.takeWhile fun x => accepts (some x)).1,
        (c.takeWhile fun x => accepts (some x)).2) := by
  fun_induction gatherWhile c accepts dest with
  -- one turn of the loop is one code point of the run
  | case1 c dest h ih =>
    obtain ⟨x, hx⟩ := exists_peek?_of_atEnd h.1
    have hp : accepts (some x) = true := hx ▸ h.2
    have hnext : c.next.1 = some x := hx
    rw [ih, takeWhile_of_peek? hx hp, hnext]
    simp
  -- the loop is over, at the end of the text or at what is not accepted, and so is the run
  | case2 c dest h =>
    rw [takeWhile_of_not_accepted h, List.append_nil]

/-- A loop that skips comes out behind the longest run. -/
theorem skipWhile_eq (c : Cursor) (accepts : Option Char → Bool) :
    c.skipWhile accepts = c.dropWhile fun x => accepts (some x) := by
  fun_induction skipWhile c accepts with
  | case1 c h ih =>
    obtain ⟨x, hx⟩ := exists_peek?_of_atEnd h.1
    have hp : accepts (some x) = true := hx ▸ h.2
    rw [ih, dropWhile, dropWhile, takeWhile_of_peek? hx hp]
  | case2 c h => rw [dropWhile, takeWhile_of_not_accepted h]

end Cursor

/-- The longest part at the front of a text that has nothing in it but what `p` holds of. -/
structure IsLongestRun (p : Char → Prop) (s run : List Char) : Prop where
  front : run <+: s
  holds : ∀ x ∈ run, p x
  longest : ∀ w, w <+: s → (∀ x ∈ w, p x) → w <+: run

/-- A run that is taken is the longest there is. -/
theorem isLongestRun_takeWhile (p : Char → Bool) (s : List Char) :
    IsLongestRun (fun x => p x = true) s (s.takeWhile p) := by
  refine ⟨List.takeWhile_prefix p, List.all_eq_true.1 List.all_takeWhile, ?_⟩
  rintro w ⟨t, rfl⟩ hw
  rw [List.takeWhile_append_of_pos hw]
  exact List.prefix_append _ _

/-! ## Operations

Seven things can be done with a cursor. Each of them moves it forward by some number of code points and puts
errors behind those recorded (`Precedes`), and this is kept by any number of them one after another. -/

/-- What a cursor can be made over. -/
inductive Input where
  | text (source : String)
  | utf16 (units : List UInt16)

namespace Input

/-- The code points that are read. -/
def codePoints : Input → List Char
  | .text source => normalize source.toList
  | .utf16 units => normalize (Utf16.decode units)

/-- The cursor before the first of them. -/
def cursor (input : Input) (policy : ErrorPolicy) : Cursor :=
  match input with
  | .text source => .ofText source policy
  | .utf16 units => .ofUtf16 units policy

/-- Text and units make the same cursor as soon as their code points are the same. -/
theorem cursor_eq (input : Input) (policy : ErrorPolicy) :
    input.cursor policy = ⟨input.codePoints, 0, .start, policy, #[]⟩ := by
  cases input <;> rfl

end Input

/-- What can be done with a cursor. -/
inductive Operation where
  | peek (n : Nat)
  | next
  | advance (n : Nat)
  | gatherWhile (accepts : Option Char → Bool) (dest : List Char)
  | skipWhile (accepts : Option Char → Bool)
  | report (kind : ErrorKind)
  | nextToken

namespace Cursor

/-- The cursor after one operation. -/
def perform (c : Cursor) : Operation → Cursor
  | .peek _ => c
  | .next => c.next.2
  | .advance n => c.advance n
  | .gatherWhile accepts dest => (c.gatherWhile accepts dest).2
  | .skipWhile accepts => c.skipWhile accepts
  | .report kind =>
    match c.report kind with
    | .ok d => d
    | .error _ => c
  | .nextToken => (Lexer.ofCursor c).nextToken.2.cursor

/-- The cursor after one operation after another. -/
def performAll (c : Cursor) (ops : List Operation) : Cursor :=
  ops.foldl perform c

/-- The second cursor comes from the first by moving forward and recording errors. -/
def Precedes (c d : Cursor) : Prop :=
  ∃ n errors, d = { c.advance n with errors := errors } ∧ c.errors.toList <+: errors.toList

/-- To advance is to move forward, and nothing is recorded. -/
theorem precedes_advance (c : Cursor) (n : Nat) : c.Precedes (c.advance n) :=
  ⟨n, c.errors, rfl, List.prefix_rfl⟩

theorem precedes_refl (c : Cursor) : c.Precedes c := by
  have h := c.precedes_advance 0
  rwa [advance_zero] at h

/-- Two moves are one move by the sum, and what the first has recorded is kept by the second. -/
theorem Precedes.trans {c d e : Cursor} (h : c.Precedes d) (h' : d.Precedes e) : c.Precedes e := by
  obtain ⟨m, _, rfl, hm⟩ := h
  obtain ⟨n, errors, rfl, hn⟩ := h'
  refine ⟨m + n, errors, ?_, hm.trans hn⟩
  rw [advance_add]
  rfl

/-- A report that is not the answer records one error where the cursor stands. -/
theorem precedes_report {c d : Cursor} {kind : ErrorKind} (h : c.report kind = .ok d) :
    c.Precedes d := by
  refine ⟨0, c.errors.push (c.errorHere kind), by rw [advance_zero, eq_of_report_eq_ok h], ?_⟩
  rw [Array.toList_push]
  exact List.prefix_append _ _

/-- A trace is followed by moves and reports. The induction is that of `play`, event by event. -/
theorem precedes_play (c : Cursor) (t : Trace) : c.Precedes (c.play t).2 := by
  fun_induction play c t with
  | case1 c => exact c.precedes_refl
  | case2 c x t ih => exact (c.precedes_advance 1).trans ih
  | case3 c kind t d hd ih => exact (precedes_report hd).trans ih
  | case4 c => exact c.precedes_refl

/-- **Every operation moves the cursor forward and records errors.** -/
theorem precedes_perform (c : Cursor) (op : Operation) : c.Precedes (c.perform op) := by
  cases op with
  | peek n => exact c.precedes_refl
  | next => exact c.precedes_advance 1
  | advance n => exact c.precedes_advance n
  -- of a loop all that matters is how far it goes
  | gatherWhile accepts dest =>
    rw [perform, gatherWhile_eq]
    exact c.precedes_advance _
  | skipWhile accepts =>
    rw [perform, skipWhile_eq]
    exact c.precedes_advance _
  | report kind =>
    rw [perform]
    split
    -- an error that is the answer leaves the cursor as it is
    · next d hd => exact precedes_report hd
    · exact c.precedes_refl
  | nextToken => exact c.precedes_play _

/-- What one operation keeps, any sequence of them keeps. -/
theorem precedes_performAll (c : Cursor) (ops : List Operation) : c.Precedes (c.performAll ops) := by
  induction ops generalizing c with
  | nil => exact c.precedes_refl
  | cons op ops ih => exact (c.precedes_perform op).trans (ih (c.perform op))

/-! ## The account

`Accounts s w c` ties the position and the place of a cursor to the text `w` that it has passed. It holds at
the start for no text at all, and a move keeps it for a longer one. -/

/-- Of the text `s` the cursor has passed `w`. -/
structure Accounts (s w : List Char) (c : Cursor) : Prop where
  text : w ++ c.rest = s
  position : c.position = w.length
  location : c.location = Location.start.through w

/-- What is passed next is counted with what was passed before. -/
theorem Accounts.advance {s w : List Char} {c : Cursor} (h : c.Accounts s w) (n : Nat) :
    (c.advance n).Accounts s (w ++ c.rest.take n) := by
  obtain ⟨htext, hposition, hlocation⟩ := h
  constructor
  · rw [rest_advance, List.append_assoc, List.take_append_drop, htext]
  · rw [List.length_append, ← hposition]
    rfl
  · rw [Location.through_append, ← hlocation]
    rfl

/-- A cursor that has moved forward has passed something, and its account is true of it; what was recorded on
the way makes no difference. -/
theorem Accounts.of_precedes {s w : List Char} {c d : Cursor} (h : c.Accounts s w)
    (hd : c.Precedes d) : ∃ v, d.Accounts s v := by
  obtain ⟨n, errors, rfl, _⟩ := hd
  have hmoved := h.advance n
  exact ⟨_, hmoved.text, hmoved.position, hmoved.location⟩

theorem position_le_of_precedes {c d : Cursor} (h : c.Precedes d) : c.position ≤ d.position := by
  obtain ⟨n, errors, rfl, _⟩ := h
  exact Nat.le_add_right _ _

theorem policy_of_precedes {c d : Cursor} (h : c.Precedes d) : d.policy = c.policy := by
  obtain ⟨n, errors, rfl, _⟩ := h
  rfl

/-- No operation forgets an error. -/
theorem errors_prefix_of_precedes {c d : Cursor} (h : c.Precedes d) :
    c.errors.toList <+: d.errors.toList := by
  obtain ⟨n, errors, rfl, herrors⟩ := h
  exact herrors

end Cursor

open Cursor in
/-- **The account of a cursor is right whatever is done with it.** What is left is always the text without
the code points passed, so the text is what it was; line and column are told by the newlines passed; a cursor
never goes back and forgets no error. Of what can be done next: looking ahead shows the text from the
position on, so nothing is seen at the end alone; so many code points are passed as are asked for and left; a
loop takes the longest run of what it accepts, whatever it says of the end; and an error is reported at the
place where the cursor stands, as the answer or behind those recorded. -/
theorem account_kept (input : Input) (policy : ErrorPolicy) (ops : List Operation) :
    let s := input.codePoints
    let c := (input.cursor policy).performAll ops
    (c.rest = s.drop c.position ∧ c.position ≤ s.length ∧
      c.location.line = 1 + (s.take c.position).count '\n' ∧
      c.location.column = ((s.take c.position).rtakeWhile (· != '\n')).length ∧
      c.policy = policy) ∧
    (∀ more, c.position ≤ (c.performAll more).position ∧
      c.errors.toList <+: (c.performAll more).errors.toList) ∧
    (∀ n, c.peek? n = s[c.position + n]?) ∧ (c.atEnd = true ↔ c.peek? 0 = none) ∧
    (∀ n, (c.advance n).position = c.position + min n (s.length - c.position)) ∧
    (∀ accepts dest, ∃ run,
      IsLongestRun (fun x => accepts (some x) = true) (s.drop c.position) run ∧
      c.gatherWhile accepts dest = (dest ++ run, c.advance run.length) ∧
      c.skipWhile accepts = c.advance run.length) ∧
    ∀ kind,
      match policy with
      | .strict => c.report kind = .error ⟨kind, c.location⟩ ∧ c.perform (.report kind) = c
      | .lenient => c.report kind = .ok { c with errors := c.errors.push ⟨kind, c.location⟩ } := by
  intro s c
  have hstart : (input.cursor policy).Accounts s [] := by
    rw [input.cursor_eq]
    exact ⟨rfl, rfl, rfl⟩
  have hreached := (input.cursor policy).precedes_performAll ops
  -- `w` is what all the operations together have passed
  obtain ⟨w, htext, hposition, hlocation⟩ := hstart.of_precedes hreached
  have hrest : c.rest = s.drop c.position := by
    rw [hposition, ← htext, List.drop_left]
  have hpassed : s.take c.position = w := by
    rw [hposition, ← htext, List.take_left]
  have hpolicy : c.policy = policy := by
    rw [policy_of_precedes hreached, input.cursor_eq]
  refine ⟨⟨hrest, ?_, ?_, ?_, hpolicy⟩, ?_, ?_, ?_, ?_, ?_, ?_⟩
  · rw [hposition, ← htext, List.length_append]
    exact Nat.le_add_right _ _
  · rw [hpassed, hlocation, Location.line_through]
    rfl
  · rw [hpassed, hlocation, Location.column_through_start]
  -- what is done later starts from the same cursor, so it precedes what comes of it
  · intro more
    have hlater := c.precedes_performAll more
    exact ⟨position_le_of_precedes hlater, errors_prefix_of_precedes hlater⟩
  · intro n
    rw [peek?, hrest, List.getElem?_drop]
  · rw [atEnd, peek?, List.isEmpty_iff, ← List.head?_eq_getElem?, List.head?_eq_none_iff]
  · intro n
    show c.position + (c.rest.take n).length = _
    rw [List.length_take, hrest, List.length_drop]
  · intro accepts dest
    refine ⟨c.rest.takeWhile fun x => accepts (some x), ?_, c.gatherWhile_eq accepts dest,
      c.skipWhile_eq accepts⟩
    rw [← hrest]
    exact isLongestRun_takeWhile _ _
  · intro kind
    cases policy with
    | strict =>
      have hreport : c.report kind = .error ⟨kind, c.location⟩ := by
        rw [report, hpolicy]
        rfl
      exact ⟨hreport, by rw [perform, hreport]⟩
    | lenient =>
      show c.report kind = _
      rw [report, hpolicy]
      rfl

end CssLex
