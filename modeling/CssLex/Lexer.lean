import CssLex.Token.Read

/-!
# CssLex — the lexer

A `Lexer` reads a text token by token. `nextToken` can be asked for ever: at the end it gives the
end of the text, and after an error it goes on where it stopped. `next?` gives its last answer at the
end or at the first error. Comments can be left out of the text before anything is read; the errors
of that pass are kept in front of the others.

* `nextToken_shortens`: every answer before the end passes at least one code point, so `drain` and
  `collect` come to an end.
-/

namespace CssLex

/-- What becomes of comments. -/
inductive CommentMode where
  /-- They are tokens. -/
  | preserve
  /-- They are taken out of the text first. -/
  | strip
  deriving DecidableEq, Repr

/-- A text without its comments. -/
def stripComments (text : String) (policy : ErrorPolicy) : Except ParseError String :=
  ((Cursor.ofText text policy).run readUncommented).1.map String.ofList

/-- A token, or the error that ended the attempt to read one. -/
abbrev Answer := Except ParseError Token

/-- A text that is being read as tokens. -/
structure Lexer where
  cursor : Cursor
  /-- `next?` has given its last answer. -/
  finished : Bool
  deriving DecidableEq, Repr

namespace Lexer

/-- Reads on from where a cursor stands. -/
def ofCursor (c : Cursor) : Lexer := ⟨c, false⟩

/-- Reads a text. Without its comments it is a text of its own, with locations of its own, and under
the strict policy a comment that is not closed leaves nothing to read. -/
def ofText (text : String) (policy : ErrorPolicy) (mode : CommentMode) :
    Except ParseError Lexer :=
  match mode with
  | .preserve => .ok (ofCursor (.ofText text policy))
  | .strip =>
    match (Cursor.ofText text policy).run readUncommented with
    | (.error e, _) => .error e
    | (.ok stripped, raw) =>
      .ok (ofCursor { Cursor.ofText (.ofList stripped) policy with errors := raw.errors })

/-- The place where the next token begins. -/
def location (l : Lexer) : Location := l.cursor.location

/-- The errors recorded so far. -/
def errors (l : Lexer) : Array ParseError := l.cursor.errors

/-- Reads a token. -/
def nextToken (l : Lexer) : Answer × Lexer :=
  let step := l.cursor.run readToken
  (step.1, { l with cursor := step.2 })

/-- Reads a token, unless the end or an error was met before. -/
def next? (l : Lexer) : Option Answer × Lexer :=
  if l.finished then (none, l)
  else
    match l.nextToken with
    | (.ok .endOfInput, l) => (none, { l with finished := true })
    | (.ok t, l) => (some (.ok t), l)
    | (.error e, l) => (some (.error e), { l with finished := true })

/-! ## Progress

Nothing else is needed to come to the end: before it every call passes a code point, and at the end nothing
changes any more. -/

/-- Before the end every answer, an error as well as a token, passes at least one code point. -/
theorem nextToken_shortens {l : Lexer} (h : l.cursor.rest ≠ []) :
    l.nextToken.2.cursor.rest.length < l.cursor.rest.length :=
  Cursor.length_rest_play_lt (moves_readToken h) h

/-- At the end the answer is the end, for ever. -/
theorem nextToken_of_rest_eq_nil {l : Lexer} (h : l.cursor.rest = []) :
    l.nextToken = (.ok .endOfInput, l) := by
  simp [nextToken, Cursor.run, h, readToken]
  rfl

/-- How many answers `next?` may still give, at most. -/
def answersLeft (l : Lexer) : Nat :=
  if l.finished then 0 else l.cursor.rest.length + 1

/-- Each answer is one less to come, which is why `collect` ends. -/
theorem answersLeft_next?_lt {l : Lexer} (h : l.next?.1.isSome) :
    l.next?.2.answersLeft < l.answersLeft := by
  by_cases hfinished : l.finished
  · simp [next?, hfinished] at h
  · have hrest : l.cursor.rest ≠ [] := by
      intro hnil
      simp [next?, hfinished, nextToken_of_rest_eq_nil hnil] at h
    have hlt := nextToken_shortens hrest
    have hkept : l.nextToken.2.finished = l.finished := rfl
    simp only [next?, answersLeft, hfinished]
    rcases hstep : l.nextToken with ⟨answer, later⟩
    simp only [hstep] at hlt hkept
    -- after an error no answer is left; after a token as many as the text is shorter
    match answer with
    | .error e => simp
    | .ok t => cases t <;> simp_all

/-! ## Runs

`drain` asks for tokens to the end whatever is answered, `collect` stops where `next?` does. -/

/-- All answers up to the end, carrying on after errors, each with the place reached. -/
def drain (l : Lexer) : List (Answer × Location) × Lexer :=
  let step := l.nextToken
  if _h : l.cursor.rest = [] then ([(step.1, step.2.location)], step.2)
  else
    let later := drain step.2
    ((step.1, step.2.location) :: later.1, later.2)
termination_by l.cursor.rest.length
decreasing_by exact nextToken_shortens _h

/-- All answers that `next?` gives. -/
def collect (l : Lexer) : List Answer × Lexer :=
  let step := l.next?
  if _h : step.1.isSome then
    let later := collect step.2
    (step.1.toList ++ later.1, later.2)
  else ([], step.2)
termination_by l.answersLeft
decreasing_by exact answersLeft_next?_lt _h

end Lexer

/-- The tokens of a text without the end, or its first error. -/
def tokenize (text : String) : Except ParseError (List Token) :=
  (Lexer.ofCursor (.ofText text .strict)).collect.1.mapM id

end CssLex
