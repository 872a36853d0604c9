import CssLex.Lexer
import CssLex.Token.Write

/-!
# CssLex — there and back

A text is read, its tokens are written, and what was written is read and written again.
-/

namespace CssLex

/-- What reading a text leniently gives, the end of the text left out. -/
structure Scan where
  tokens : List Token
  errors : Array ParseError
  deriving DecidableEq, Repr

namespace Scan

/-- Reads a text to its end. -/
def ofText (text : String) (mode : CommentMode) : Except ParseError Scan := do
  let run := (← Lexer.ofText text .lenient mode).collect
  return ⟨← run.1.mapM id, run.2.errors⟩

/-- The tokens as text. -/
def css (s : Scan) : String :=
  .ofList (writeTokens s.tokens)

end Scan

/-- A text as read, and its tokens' text as read. -/
structure RoundTrip where
  first : Scan
  second : Scan
  deriving DecidableEq, Repr

namespace RoundTrip

/-- Reads a text, and reads what is written for its tokens in the same way. -/
def ofText (text : String) (mode : CommentMode) : Except ParseError RoundTrip := do
  let first ← Scan.ofText text mode
  return ⟨first, ← Scan.ofText first.css mode⟩

/-- The same tokens were read twice; signs of zeros may differ. -/
def isFaithful (r : RoundTrip) : Bool :=
  r.first.tokens.map Token.forgetZeroSign == r.second.tokens.map Token.forgetZeroSign

end RoundTrip

end CssLex
