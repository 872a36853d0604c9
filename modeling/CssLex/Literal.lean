import CssLex.Escape

/-!
# CssLex — literals: strings and unquoted urls

Strings and unquoted urls are literals: a text between two marks that may turn out damaged, in which
case the text is what was decoded before the damage. A literal that the end of the text cuts off is
not damaged.

Strings are read by `readQuoted` and written between double quotes by `writeQuoted`, or in parts by
`writeStringText`; urls are read by `readUrl` and written by `writeUrlText`.
-/

namespace CssLex

/-- The decoded text of a string or of an unquoted url. -/
structure Literal where
  text : List Char
  /-- The literal goes to its closing mark or to the end of the text. -/
  intact : Bool
  deriving DecidableEq, Repr

namespace Literal

/-- The literal that ends here, in order. -/
def closed : Literal := ⟨[], true⟩

/-- The literal that is found damaged here. -/
def damaged : Literal := ⟨[], false⟩

/-- The literal with one more code point in front. -/
def push (c : Char) (l : Literal) : Literal := ⟨c :: l.text, l.intact⟩

end Literal

/-! ## Strings

A string ends at the quote that it began with; the other quote is text. A backslash joins it with
the next line, and a newline without one cuts it off. -/

/-- Reads a string from behind its opening quote. A newline that cuts it off is left for the next
reader; a backslash at the end of the text stands for nothing. -/
def readQuoted (quote : Char) : List Char → Reading Literal
  | [] => ⟨.closed, [], [.report .unclosedString]⟩
  | c :: s =>
    if c = quote then ⟨.closed, s, [.take c]⟩
    else if c = '\n' then ⟨.damaged, c :: s, [.report .newlineInString]⟩
    else if c = '\\' then
      match s with
      | [] => ⟨.closed, [], [.take c, .report .unclosedString]⟩
      | d :: t =>
        if d = '\n' then (readQuoted quote t).after [.take c, .take d]
        else
          let escaped := readEscape (d :: t)
          ((readQuoted quote escaped.rest).map (.push escaped.value)).after
            (.take c :: escaped.trace)
    else ((readQuoted quote s).map (.push c)).after [.take c]
termination_by s => s.length
decreasing_by
  · simp only [List.length_cons]
    omega
  · have := length_rest_readEscape_le (d :: t)
    simp only [List.length_cons] at this ⊢
    omega
  · simp

/-- A code point between double quotes. NUL has no escape. -/
def writeStringChar (c : Char) : List Char :=
  if c = '"' ∨ c = '\\' then escapeAsChar c
  else if c = '\x00' then [replacementChar]
  else if isControl c then escapeAsHex c
  else [c]

/-- The text of a string, without quotes. Parts written one after another make the text of one
string. -/
def writeStringText (text : List Char) : List Char :=
  text.flatMap writeStringChar

/-- What has been written after each of several parts of a string's text. -/
def writeStringParts (parts : List (List Char)) : List (List Char) :=
  (parts.scanl (fun written part => written ++ writeStringText part) []).tail

/-- A string between double quotes. -/
def writeQuoted (text : List Char) : List Char :=
  '"' :: writeStringText text ++ ['"']

/-- Parts may be written one after another, since every code point is written by itself. -/
theorem writeStringText_append (s t : List Char) :
    writeStringText (s ++ t) = writeStringText s ++ writeStringText t :=
  List.flatMap_append

/-! ## Unquoted urls

Between `url(` and `)` a text may stand without quotes, with whitespace around it. Quotes, opening
parentheses, non-printable code points and backslashes before a newline damage it, and so does
whitespace inside it; what follows is skipped up to the closing parenthesis. -/

/-- Skips the rest of a damaged url: up to and with the first closing parenthesis that is not
escaped. -/
def skipDamagedUrl : List Char → Reading Unit
  | [] => ⟨(), [], []⟩
  | c :: s =>
    if c = ')' then ⟨(), s, [.take c]⟩
    else if startsEscape (c :: s) then
      let escaped := readEscape s
      (skipDamagedUrl escaped.rest).after (.take c :: escaped.trace)
    else (skipDamagedUrl s).after [.take c]
termination_by s => s.length
decreasing_by
  · have := length_rest_readEscape_le s
    simp only [List.length_cons]
    omega
  · simp

/-- What stands after the text of a url and its whitespace: the closing parenthesis, the end of the
text, or something that damages the url without being reported. -/
def closeUrl (s : List Char) : Reading Literal :=
  match s with
  | [] => ⟨.closed, [], [.report .unclosedUrl]⟩
  | ')' :: t => ⟨.closed, t, [.take ')']⟩
  | _ => (skipDamagedUrl s).map fun _ => .damaged

/-- The code points that damage a url and are reported as such. -/
def isUnexpectedInUrl (c : Char) : Bool :=
  c == '"' || c == '\'' || c == '(' || isNonPrintable c

/-- Reads the text of a url from its first code point on, and what closes it. -/
def readUrlText : List Char → Reading Literal
  | [] => closeUrl []
  | c :: s =>
    if isWhitespace c then
      (closeUrl (s.dropWhile isWhitespace)).after (.taking (c :: s.takeWhile isWhitespace))
    else if c = ')' then closeUrl (c :: s)
    else if isUnexpectedInUrl c then
      ((skipDamagedUrl s).map fun _ => .damaged).after [.take c, .report (.unexpectedInUrl c)]
    else if c = '\\' then
      if startsEscape (c :: s) then
        let escaped := readEscape s
        ((readUrlText escaped.rest).map (.push escaped.value)).after (.take c :: escaped.trace)
      else
        ((skipDamagedUrl s).map fun _ => .damaged).after [.take c, .report .escapedNewlineInUrl]
    else ((readUrlText s).map (.push c)).after [.take c]
termination_by s => s.length
decreasing_by
  · have := length_rest_readEscape_le s
    simp only [List.length_cons]
    omega
  · simp

/-- Reads an unquoted url from behind its `url(`. -/
def readUrl (s : List Char) : Reading Literal :=
  (readUrlText (s.dropWhile isWhitespace)).after (.taking (s.takeWhile isWhitespace))

/-- A quoted string follows, after whitespace or at once. -/
def quoteFollows (s : List Char) : Bool :=
  (s.dropWhile isWhitespace).head?.any fun c => c == '"' || c == '\''

/-- A code point of an unquoted url: whitespace and control characters are escaped by number, what
would damage or close the url by itself. -/
def writeUrlChar (c : Char) : List Char :=
  if isControl c ∨ c = ' ' then escapeAsHex c
  else if c = '(' ∨ c = ')' ∨ c = '"' ∨ c = '\'' ∨ c = '\\' then escapeAsChar c
  else [c]

/-- The text of an unquoted url, without `url(` and `)`. -/
def writeUrlText (text : List Char) : List Char :=
  text.flatMap writeUrlChar

/-! ## What a literal takes

Each reader accounts for the text: what its trace takes, followed by what it leaves, is what it was given.
The inductions are those of the readers. -/

/-- A string takes what stands before its rest, line joins and escapes with all their code points. -/
theorem readQuoted_splits (quote : Char) (s : List Char) : (readQuoted quote s).Splits s := by
  fun_induction readQuoted quote s with
  | case1 => rfl
  | case2 => rfl
  | case3 => rfl
  | case4 => rfl
  -- a line join, an escape, any other code point: each is taken before the rest is read
  | case5 t _ _ ih => exact ih.after rfl
  | case6 d t _ _ _ _ ih =>
    exact ih.map.after (congrArg ('\\' :: ·) (readEscape_splits (d :: t)))
  | case7 c s _ _ _ ih => exact ih.map.after rfl

/-- What is skipped of a damaged url is taken as well, though nothing of it is kept. -/
theorem skipDamagedUrl_splits (s : List Char) : (skipDamagedUrl s).Splits s := by
  fun_induction skipDamagedUrl s with
  | case1 => rfl
  | case2 => rfl
  | case3 c s _ _ _ ih => exact ih.after (congrArg (c :: ·) (readEscape_splits s))
  | case4 c s _ _ ih => exact ih.after rfl

/-- However a url ends, what ends it is taken. -/
theorem closeUrl_splits (s : List Char) : (closeUrl s).Splits s := by
  unfold closeUrl
  split
  · rfl
  · rfl
  · exact (skipDamagedUrl_splits s).map

/-- A url takes what stands before its rest, the whitespace before its end included. -/
theorem readUrlText_splits (s : List Char) : (readUrlText s).Splits s := by
  fun_induction readUrlText s with
  | case1 => exact closeUrl_splits []
  -- whitespace is taken first, and what closes the url behind it
  | case2 c s _ =>
    exact (closeUrl_splits _).after (congrArg (c :: ·) (Trace.taken_takeWhile_append isWhitespace s))
  | case3 s => exact closeUrl_splits (')' :: s)
  | case4 c s => exact (skipDamagedUrl_splits s).map.after rfl
  | case5 s _ _ _ _ _ ih => exact ih.map.after (congrArg ('\\' :: ·) (readEscape_splits s))
  | case6 s => exact (skipDamagedUrl_splits s).map.after rfl
  | case7 c s _ _ _ _ ih => exact ih.map.after rfl

/-- The whitespace in front of a url is taken with it. -/
theorem readUrl_splits (s : List Char) : (readUrl s).Splits s :=
  (readUrlText_splits _).after (Trace.taken_takeWhile_append isWhitespace s)

end CssLex
