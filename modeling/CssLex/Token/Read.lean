import CssLex.Comment
import CssLex.Literal
import CssLex.Name
import CssLex.Number.Numeral
import CssLex.Token.Basic

/-!
# CssLex — reading one token

`readToken` takes one token from the front of a text. Which token it is shows in at most three code
points; how far it goes is up to the readers of names, numerals and literals. At the end of the text
it takes nothing, everywhere else at least one code point, before it reports anything.

* `readToken_splits`: the code points taken and what is left are the text.
* `moves_readToken`: before the end of the text a code point is taken first.
-/

namespace CssLex

/-- The token of a string. -/
def Literal.stringToken (l : Literal) : Token :=
  if l.intact then .string (.ofList l.text) else .badString (.ofList l.text)

/-- The token of an unquoted url. -/
def Literal.urlToken (l : Literal) : Token :=
  if l.intact then .url (.ofList l.text) else .badUrl (.ofList l.text)

/-- What a numeral says. -/
def Numeral.toNumeric (n : Numeral) : Numeric :=
  ⟨n.value, n.integer?, n.sign.isSome, .ofList n.text⟩

/-- The name is `url`, in any case. -/
def isUrlName (name : List Char) : Bool :=
  name.map Char.toLower == ['u', 'r', 'l']

/-- Reads a run of whitespace. -/
def readWhitespace (s : List Char) : Reading Token :=
  let run := s.takeWhile isWhitespace
  ⟨.whitespace (.ofList run), s.dropWhile isWhitespace, .taking run⟩

/-- Reads a number and what makes it a dimension or a percentage. -/
def readNumeric (s : List Char) : Reading Token :=
  let numeral := readNumeral s
  let value := numeral.1.toNumeric
  let ending :=
    if startsIdent numeral.2 then
      (readName numeral.2).map fun unit => .dimension value (.ofList unit)
    else
      match numeral.2 with
      | '%' :: t => ⟨.percentage value, t, [.take '%']⟩
      | t => ⟨.number value, t, []⟩
  ending.after (.taking numeral.1.text)

/-- Reads what follows `url(`: an unquoted url, or nothing but whitespace where a string follows. Of
that whitespace one code point is left to be read as a token. -/
def readUrlArgument (name s : List Char) : Reading Token :=
  if quoteFollows s then
    let gap := (s.takeWhile isWhitespace).dropLast
    ⟨.function (.ofList name), s.drop gap.length, .taking gap⟩
  else (readUrl s).map Literal.urlToken

/-- Reads an identifier and what makes it a function or a url. -/
def readIdentLike (s : List Char) : Reading Token :=
  let name := readName s
  let ending :=
    match name.rest with
    | '(' :: t =>
      if isUrlName name.value then (readUrlArgument name.value t).after [.take '(']
      else ⟨.function (.ofList name.value), t, [.take '(']⟩
    | t => ⟨.ident (.ofList name.value), t, []⟩
  ending.after name.trace

/-- Reads the name of a hash from behind its `#`, which stands for itself where no name follows. -/
def readHash (s : List Char) : Reading Token :=
  if startsName s then
    let kind := if startsIdent s then HashKind.id else .unrestricted
    (readName s).map fun name => .hash kind (.ofList name)
  else ⟨.delim '#', s, []⟩

/-- Reads the name of an at-keyword from behind its `@`. -/
def readAtKeyword (s : List Char) : Reading Token :=
  if startsIdent s then (readName s).map fun name => .atKeyword (.ofList name)
  else ⟨.delim '@', s, []⟩

/-- Reads a token from behind its first code point, which begins no comment, whitespace, number or
identifier. -/
def readMark (c : Char) (s : List Char) : Reading Token :=
  match c, s with
  | '\\', s => ⟨.delim '\\', s, [.report .escapedNewline]⟩
  | '"', s => (readQuoted '"' s).map Literal.stringToken
  | '\'', s => (readQuoted '\'' s).map Literal.stringToken
  | '#', s => readHash s
  | '@', s => readAtKeyword s
  | '<', '!' :: '-' :: '-' :: t => ⟨.cdo, t, .taking ['!', '-', '-']⟩
  | '-', '-' :: '>' :: t => ⟨.cdc, t, .taking ['-', '>']⟩
  | c, s =>
    match Punctuation.ofChar? c with
    | some mark => ⟨.punctuation mark, s, []⟩
    | none => ⟨.delim c, s, []⟩

/-- Reads one token. -/
def readToken : List Char → Reading Token
  | [] => ⟨.endOfInput, [], []⟩
  | c :: s =>
    if startsComment (c :: s) then
      (readComment (c :: s)).map fun text => .comment (.ofList text)
    else if isWhitespace c then readWhitespace (c :: s)
    else if startsNumber (c :: s) then readNumeric (c :: s)
    else if startsIdent (c :: s) then readIdentLike (c :: s)
    else (readMark c s).after [.take c]

/-! ## What a token takes

One lemma for each reader, put together from those of names, numerals and literals. A reader that goes on
behind another only has to be followed from what that one leaves. -/

/-- Whitespace takes its whole run. -/
theorem readWhitespace_splits (s : List Char) : (readWhitespace s).Splits s :=
  Trace.taken_takeWhile_append isWhitespace s

/-- A number takes its numeral as written, and then a unit, a percent sign or nothing. -/
theorem readNumeric_splits (s : List Char) : (readNumeric s).Splits s := by
  refine Reading.Splits.after (u := (readNumeral s).2) ?_ ?_
  -- what is read behind the numeral: a unit, a percent sign, nothing
  · split
    · exact (readName_splits _).map
    · split
      · next ht => rw [ht]; rfl
      · rfl
  · rw [Trace.taken_taking, text_readNumeral_append]

/-- Whether a string follows or not, what is taken behind `url(` stands at the front: the whitespace but for
its last code point, or the url. -/
theorem readUrlArgument_splits (name s : List Char) : (readUrlArgument name s).Splits s := by
  unfold readUrlArgument
  split
  · have hgap : (s.takeWhile isWhitespace).dropLast <+: s :=
      (List.dropLast_prefix _).trans (List.takeWhile_prefix _)
    rw [Reading.Splits, Trace.taken_taking]
    exact List.prefix_iff_eq_append.1 hgap
  · exact (readUrl_splits s).map

/-- An identifier takes its name, and what makes it a function or a url behind it. -/
theorem readIdentLike_splits (s : List Char) : (readIdentLike s).Splits s := by
  refine Reading.Splits.after (u := (readName s).rest) ?_ (readName_splits s)
  split
  -- a parenthesis follows, so it is a url or a function
  · next t ht =>
    rw [ht]
    split
    · exact (readUrlArgument_splits _ t).after rfl
    · rfl
  · rfl

/-- A hash takes its name, if it has one. -/
theorem readHash_splits (s : List Char) : (readHash s).Splits s := by
  unfold readHash
  split
  · exact (readName_splits s).map
  · rfl

/-- An at-keyword takes its name, if it has one. -/
theorem readAtKeyword_splits (s : List Char) : (readAtKeyword s).Splits s := by
  unfold readAtKeyword
  split
  · exact (readName_splits s).map
  · rfl

/-- What begins with a mark of its own takes nothing that does not stand directly behind the mark. -/
theorem readMark_splits (c : Char) (s : List Char) : (readMark c s).Splits s := by
  unfold readMark
  split
  · rfl
  · exact (readQuoted_splits _ s).map
  · exact (readQuoted_splits _ s).map
  · exact readHash_splits s
  · exact readAtKeyword_splits s
  · rfl
  · rfl
  · split <;> rfl

/-- The code points that a token takes, followed by those it leaves, are the text. -/
theorem readToken_splits (s : List Char) : (readToken s).Splits s := by
  fun_cases readToken s with
  | case1 => rfl
  | case2 c s hc => exact (readComment_splits hc).map
  | case3 c s => exact readWhitespace_splits (c :: s)
  | case4 c s => exact readNumeric_splits (c :: s)
  | case5 c s => exact readIdentLike_splits (c :: s)
  | case6 c s => exact (readMark_splits c s).after rfl

/-! ## Progress

Every token but the end of the text begins with a code point of its own. -/

/-- A number takes the first code point of its numeral. -/
theorem moves_readNumeric {s : List Char} (h : startsNumber s = true) :
    Trace.Moves (readNumeric s).trace :=
  (Trace.moves_taking (text_readNumeral_ne_nil h)).append _

/-- An identifier takes the first code point of its name. -/
theorem moves_readIdentLike {s : List Char} (h : startsIdent s = true) :
    Trace.Moves (readIdentLike s).trace :=
  (moves_readName (startsName_of_startsIdent h)).append _

/-- Before the end of the text a token takes a code point first. -/
theorem moves_readToken {s : List Char} (h : s ≠ []) : Trace.Moves (readToken s).trace := by
  fun_cases readToken s with
  | case1 => exact absurd rfl h
  | case2 c s => exact ⟨'/', _, rfl⟩
  | case3 c s _ hc => exact Trace.moves_taking (by simp [hc])
  | case4 c s _ _ hc => exact moves_readNumeric hc
  | case5 c s _ _ _ hc => exact moves_readIdentLike hc
  | case6 c s => exact ⟨c, _, rfl⟩

end CssLex
