import CssLex.Number.Binary64

/-!
# CssLex — tokens

The pieces that a style sheet is read as. Names, strings and urls carry their decoded text,
whitespace and comments the text as written. Comments are tokens; damaged strings and urls are tokens
of their own, and so is the end of the text.
-/

namespace CssLex

/-- What a number, a percentage and a dimension say of their number. -/
structure Numeric where
  value : Binary64
  /-- The number as an integer, if it was written as one. -/
  integer? : Option Int
  /-- A sign was written. -/
  signed : Bool
  /-- The number as written. -/
  text : String
  deriving DecidableEq, Repr

/-- Whether a number was written as an integer. -/
inductive NumericKind where
  | integer
  | float
  deriving DecidableEq, Repr

def Numeric.kind (n : Numeric) : NumericKind :=
  if n.integer?.isSome then .integer else .float

/-- Whether a hash can stand for an identifier. -/
inductive HashKind where
  | id
  | unrestricted
  deriving DecidableEq, Repr

/-- The tokens that are always one and the same code point. -/
inductive Punctuation where
  | colon
  | semicolon
  | comma
  | openParenthesis
  | closeParenthesis
  | openSquare
  | closeSquare
  | openCurly
  | closeCurly
  deriving DecidableEq, Repr

namespace Punctuation

def char : Punctuation → Char
  | .colon => ':'
  | .semicolon => ';'
  | .comma => ','
  | .openParenthesis => '('
  | .closeParenthesis => ')'
  | .openSquare => '['
  | .closeSquare => ']'
  | .openCurly => '{'
  | .closeCurly => '}'

def ofChar? : Char → Option Punctuation
  | ':' => some .colon
  | ';' => some .semicolon
  | ',' => some .comma
  | '(' => some .openParenthesis
  | ')' => some .closeParenthesis
  | '[' => some .openSquare
  | ']' => some .closeSquare
  | '{' => some .openCurly
  | '}' => some .closeCurly
  | _ => none

/-- Each mark is recognised by its code point. -/
@[simp] theorem ofChar?_char (p : Punctuation) : ofChar? p.char = some p := by
  cases p <;> rfl

end Punctuation

/-- A piece of a style sheet. -/
inductive Token where
  /-- The end of the text. -/
  | endOfInput
  | ident (name : String)
  /-- A name with its opening parenthesis. -/
  | function (name : String)
  | atKeyword (name : String)
  | hash (kind : HashKind) (name : String)
  | string (text : String)
  /-- A string that is cut off by a newline. -/
  | badString (text : String)
  | url (text : String)
  /-- A url with something in it that cannot be there; the text is what stands before that. -/
  | badUrl (text : String)
  | number (value : Numeric)
  | percentage (value : Numeric)
  | dimension (value : Numeric) (unit : String)
  | whitespace (text : String)
  | comment (text : String)
  /-- The sign that opens an old-style comment block. -/
  | cdo
  /-- The sign that closes an old-style comment block. -/
  | cdc
  | punctuation (mark : Punctuation)
  /-- Any other code point. -/
  | delim (char : Char)
  deriving DecidableEq, Repr

namespace Token

/-- The token is an error where a parser meets it: damaged literals always, closing brackets because
nothing was opened. -/
def isParseError : Token → Bool
  | .badUrl _ | .badString _ => true
  | .punctuation .closeParenthesis => true
  | .punctuation .closeSquare => true
  | .punctuation .closeCurly => true
  | _ => false

/-- The token is a comment. -/
def isComment : Token → Bool
  | .comment _ => true
  | _ => false

/-- The token with the signs of zeros forgotten. -/
def forgetZeroSign : Token → Token
  | .number n => .number { n with value := n.value.forgetZeroSign }
  | .percentage n => .percentage { n with value := n.value.forgetZeroSign }
  | .dimension n unit => .dimension { n with value := n.value.forgetZeroSign } unit
  | t => t

end Token

end CssLex
