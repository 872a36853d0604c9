import CssLex.Literal
import CssLex.Name
import CssLex.Number.Numeral
import CssLex.Token.Basic

/-!
# CssLex — writing tokens

`Token.write` spells one token. In a list a token can run into the next: `mustSeparate` says of two
neighbours whether they would be read as something else, and `writeTokens` puts an empty comment
between them where they would.
-/

namespace CssLex

/-- An integer as an integer, any other number as the nearest finite one. A plus is written where a
sign was and the number has none. -/
def Numeric.write (n : Numeric) : List Char :=
  let plus := if n.signed && !n.value.negative then ['+'] else []
  let magnitude :=
    match n.integer? with
    | some i => writeInt i
    | none => n.value.clampFinite.toNumeral.text
  plus ++ magnitude

/-- The comment is long enough to be closed by its end. -/
def isClosedComment (text : String) : Bool :=
  4 ≤ text.utf8ByteSize && ['*', '/'].isSuffixOf text.toList

namespace Token

/-- The text of a single token. A backslash that escapes nothing needs the newline that it stands
before, and so does a string that is cut off. A url is made bad again by a parenthesis in it. -/
def write : Token → List Char
  | .endOfInput => []
  | .ident name => writeIdent name.toList
  | .function name => writeIdent name.toList ++ ['(']
  | .atKeyword name => '@' :: writeIdent name.toList
  | .hash .id name => '#' :: writeIdent name.toList
  | .hash .unrestricted name => '#' :: writeName name.toList
  | .string text => writeQuoted text.toList
  | .badString text => '"' :: writeStringText text.toList ++ ['\n']
  | .url text => "url(".toList ++ writeUrlText text.toList ++ [')']
  | .badUrl text => "url(".toList ++ writeUrlText text.toList ++ ['(', ')']
  | .number n => n.write
  | .percentage n => n.write ++ ['%']
  | .dimension n unit => n.write ++ writeUnit unit.toList
  | .whitespace text => text.toList
  | .comment text => text.toList ++ if isClosedComment text then [] else ['*', '/']
  | .cdo => ['<', '!', '-', '-']
  | .cdc => ['-', '-', '>']
  | .punctuation mark => [mark.char]
  | .delim '\\' => ['\\', '\n']
  | .delim c => [c]

/-! ## Neighbours

Two bodies next to each other may be read as other tokens. Which pairs need an empty comment between them is
looked up by the kinds of the two, where the text of a token matters little: how it begins, and whether it
ends its line. -/

/-- The text of the token begins with a name. -/
def beginsName : Token → Bool
  | .ident _ | .function _ | .url _ | .badUrl _ => true
  | _ => false

/-- The text of the token begins with a number. -/
def beginsNumber : Token → Bool
  | .number _ | .percentage _ | .dimension _ _ => true
  | _ => false

/-- The text of the token ends with a newline that is not part of it. -/
def endsLine : Token → Bool
  | .delim '\\' | .badString _ => true
  | _ => false

/-- The text of the token goes on a name before it. -/
def continuesName (t : Token) : Bool :=
  t.beginsName || t.beginsNumber || t == .delim '-' || t == .cdc

/-- Written one after the other the two tokens would be read as others. -/
def mustSeparate (prev next : Token) : Bool :=
  match prev with
  | .ident _ => next.continuesName || next == .punctuation .openParenthesis
  | .atKeyword _ | .hash _ _ | .dimension _ _ | .delim '#' | .delim '-' => next.continuesName
  | .number _ => next.beginsName || next.beginsNumber || next == .delim '%'
  | .delim '@' => next.beginsName || next == .delim '-' || next == .cdc
  | .delim '.' | .delim '+' => next.beginsNumber
  | .delim '/' => next == .delim '*'
  | _ => false

/-- The text of a token behind a token that ends a line: whitespace that begins with the newline is
not to have it twice. -/
def writeBehindLine : Token → List Char
  | .whitespace text =>
    match text.toList with
    | '\n' :: s => s
    | s => s
  | t => t.write

/-- The text of a token behind another. -/
def writeBehind (prev next : Token) : List Char :=
  (if mustSeparate prev next then "/**/".toList else []) ++
    if prev.endsLine then next.writeBehindLine else next.write

end Token

/-- The text of tokens that follow another. -/
def writeFrom (prev : Token) : List Token → List Char
  | [] => []
  | t :: ts => prev.writeBehind t ++ writeFrom t ts

/-- The text of a list of tokens. -/
def writeTokens : List Token → List Char
  | [] => []
  | t :: ts => t.write ++ writeFrom t ts

end CssLex
