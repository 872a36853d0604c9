/-!
# CssLex — errors in a text

Every error is one of eight causes at a location. What happens with an error is decided by the
policy of the cursor that it is reported to (`CssLex.Cursor`); here are only the data and their
wording.
-/

namespace CssLex

/-- A place in a text: lines are counted from 1, columns are the code points already passed on the line. Both
are natural numbers without a bound, where a counter of 32 bits would wrap around after `2 ^ 32` lines, or as
many columns on one line. -/
structure Location where
  line : Nat
  column : Nat
  deriving DecidableEq, Repr

/-- The place before the first code point. -/
def Location.start : Location := ⟨1, 0⟩

/-- The place after one more code point. -/
def Location.after (l : Location) (c : Char) : Location :=
  if c = '\n' then ⟨l.line + 1, 0⟩ else ⟨l.line, l.column + 1⟩

/-- The place after a whole text. -/
def Location.through (l : Location) (text : List Char) : Location :=
  text.foldl Location.after l

@[simp] theorem Location.through_nil (l : Location) : l.through [] = l := rfl

@[simp] theorem Location.through_cons (l : Location) (c : Char) (s : List Char) :
    l.through (c :: s) = (l.after c).through s := rfl

theorem Location.through_append (l : Location) (s t : List Char) :
    l.through (s ++ t) = (l.through s).through t := by
  simp [Location.through]

/-- What can be wrong with a text. -/
inductive ErrorKind where
  /-- The text ends inside a comment. -/
  | unclosedComment
  /-- A backslash before a newline, outside of strings and urls. -/
  | escapedNewline
  /-- A backslash at the very end of the text. -/
  | escapedEnd
  /-- The text ends inside a quoted string. -/
  | unclosedString
  /-- A quoted string is cut by a newline. -/
  | newlineInString
  /-- A quote, an opening parenthesis or a non-printable code point in an unquoted url. -/
  | unexpectedInUrl (c : Char)
  /-- A backslash before a newline in an unquoted url. -/
  | escapedNewlineInUrl
  /-- The text ends inside an unquoted url. -/
  | unclosedUrl
  deriving DecidableEq, Repr

/-- A character between single quotes; a single quote, a backslash and control characters are
escaped, the latter by name or by their lower-case hexadecimal number. -/
def quoteChar (c : Char) : String :=
  let inner :=
    match c with
    | '\'' => "\\'"
    | '\\' => "\\\\"
    | '\n' => "\\n"
    | '\r' => "\\r"
    | '\t' => "\\t"
    | '\x00' => "\\0"
    | c =>
      if c.toNat < 0x20 ∨ c.toNat = 0x7f then
        "\\u\x7b" ++ String.ofList (Nat.toDigits 16 c.toNat) ++ "\x7d"
      else c.toString
  "'" ++ inner ++ "'"

/-- The wording of an error, without its place. -/
def ErrorKind.message : ErrorKind → String
  | .unclosedComment => "unterminated comment"
  | .escapedNewline => "invalid escape sequence"
  | .escapedEnd => "cannot escape end of input"
  | .unclosedString => "unterminated string"
  | .newlineInString => "newline in string"
  | .unexpectedInUrl c => "unexpected character " ++ quoteChar c ++ " in url"
  | .escapedNewlineInUrl => "invalid escape sequence in url"
  | .unclosedUrl => "unterminated url"

/-- An error at the place where it was reported. -/
structure ParseError where
  kind : ErrorKind
  location : Location
  deriving DecidableEq, Repr

/-- The wording of an error with its place. -/
def ParseError.message (e : ParseError) : String :=
  e.kind.message ++ " on line " ++ toString e.location.line ++ ":" ++ toString e.location.column

end CssLex
