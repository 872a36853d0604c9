import CssLex.Error
import CssLex.Text

/-!
# CssLex — a cursor over normalised text

A `Cursor` is what is left of a text together with an account of what has been passed: how many
code points, the line and column they end at, and the errors recorded on the way. It only moves
forward, and every move is `advance` by some number of code points, so the account is kept in one
place.
-/

namespace CssLex

/-- What a reported error does. -/
inductive ErrorPolicy where
  /-- It ends the call that reports it. -/
  | strict
  /-- It is recorded, and reading goes on. -/
  | lenient
  deriving DecidableEq, Repr

/-- A place in a text, from which reading goes on. -/
structure Cursor where
  /-- What is left. -/
  rest : List Char
  /-- How many code points have been passed. -/
  position : Nat
  /-- Where they end. -/
  location : Location
  policy : ErrorPolicy
  /-- The errors recorded so far, oldest first. -/
  errors : Array ParseError
  deriving DecidableEq, Repr

namespace Cursor

/-- A cursor before the first code point of the normalised text. -/
def ofText (text : String) (policy : ErrorPolicy) : Cursor :=
  ⟨normalize text.toList, 0, .start, policy, #[]⟩

/-- A cursor over the text that the units spell. -/
def ofUtf16 (units : List UInt16) (policy : ErrorPolicy) : Cursor :=
  ⟨normalize (Utf16.decode units), 0, .start, policy, #[]⟩

/-- Nothing is left. -/
def atEnd (c : Cursor) : Bool :=
  c.rest.isEmpty

/-- The code point `n` places after the next one. -/
def peek? (c : Cursor) (n : Nat) : Option Char :=
  c.rest[n]?

/-- Passes `n` code points, or as many as there are left. -/
def advance (c : Cursor) (n : Nat) : Cursor :=
  { c with
    rest := c.rest.drop n
    position := c.position + (c.rest.take n).length
    location := c.location.through (c.rest.take n) }

/-- Passes the next code point and gives it, if there is one. -/
def next (c : Cursor) : Option Char × Cursor :=
  (c.peek? 0, c.advance 1)

/-- Passes the longest run of the class and gives it. -/
def takeWhile (c : Cursor) (p : Char → Bool) : List Char × Cursor :=
  let run := c.rest.takeWhile p
  (run, c.advance run.length)

/-- Passes the longest run of the class. -/
def dropWhile (c : Cursor) (p : Char → Bool) : Cursor :=
  (c.takeWhile p).2

/-- An error of this kind, at the place of the cursor. -/
def errorHere (c : Cursor) (kind : ErrorKind) : ParseError :=
  ⟨kind, c.location⟩

/-- Under the strict policy the error is the answer and nothing is recorded; under the lenient one
it is recorded after those before it. -/
def report (c : Cursor) (kind : ErrorKind) : Except ParseError Cursor :=
  match c.policy with
  | .strict => .error (c.errorHere kind)
  | .lenient => .ok { c with errors := c.errors.push (c.errorHere kind) }

/-! ## What a move does to the account

To advance changes what is left and the account of what was passed, and nothing else. -/

@[simp] theorem rest_advance (c : Cursor) (n : Nat) : (c.advance n).rest = c.rest.drop n := rfl

@[simp] theorem policy_advance (c : Cursor) (n : Nat) : (c.advance n).policy = c.policy := rfl

@[simp] theorem errors_advance (c : Cursor) (n : Nat) : (c.advance n).errors = c.errors := rfl

@[simp] theorem advance_zero (c : Cursor) : c.advance 0 = c := by
  simp [advance]

/-- Two moves are one: only the number of code points counts. -/
theorem advance_add (c : Cursor) (m n : Nat) : c.advance (m + n) = (c.advance m).advance n := by
  simp [advance, List.take_add, Location.through_append, Nat.add_assoc, List.drop_drop]

/-- An error that is not the answer is recorded, and nothing else changes. -/
theorem eq_of_report_eq_ok {c d : Cursor} {kind : ErrorKind} (h : c.report kind = .ok d) :
    d = { c with errors := c.errors.push (c.errorHere kind) } := by
  unfold report at h
  split at h
  · contradiction
  · exact (Except.ok.inj h).symm

end Cursor

end CssLex
