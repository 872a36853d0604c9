import CssLex.Escape

/-!
# CssLex — names and identifiers

A name is a run of name code points and escapes; an identifier is a name that cannot be taken for a
number or a lone hyphen, which three code points decide. Two hyphens start an identifier unless `>`
follows, for `-->` closes an old-style comment block. Names are read by `readName`; `writeName`,
`writeIdent` and `writeUnit` write texts so that they are read back.
-/

namespace CssLex

/-- Whether an identifier begins here. -/
def startsIdent : List Char → Bool
  | '-' :: '-' :: s => s.head? != some '>'
  | '-' :: s => s.head?.any isNameStart || startsEscape s
  | s => s.head?.any isNameStart || startsEscape s

/-- Whether a name that is not empty begins here. -/
def startsName (s : List Char) : Bool :=
  s.head?.any isNameChar || startsEscape s

/-- Reads the longest run of name code points and escapes, which may be empty. -/
def readName : List Char → Reading (List Char)
  | [] => ⟨[], [], []⟩
  | c :: s =>
    if isNameChar c then ((readName s).map (c :: ·)).after [.take c]
    else if startsEscape (c :: s) then
      let escaped := readEscape s
      ((readName escaped.rest).map (escaped.value :: ·)).after (.take c :: escaped.trace)
    else ⟨[], c :: s, []⟩
termination_by s => s.length
decreasing_by
  · simp
  · have := length_rest_readEscape_le s
    simp only [List.length_cons]
    omega

/-! ## Writing

What cannot stand in a name is escaped: control characters by number, for some of them would end
the escape or the line, all others by themselves. NUL has no escape. -/

/-- A code point of a name. -/
def writeNameChar (c : Char) : List Char :=
  if isNameChar c then [c]
  else if c = '\x00' then [replacementChar]
  else if isControl c then escapeAsHex c
  else escapeAsChar c

/-- A name; where an identifier is wanted, `writeIdent` is the one to use. -/
def writeName (name : List Char) : List Char :=
  name.flatMap writeNameChar

/-- A name whose first code point, where it is a digit, is kept from starting a number. -/
def writeNoDigitFirst : List Char → List Char
  | [] => []
  | c :: s => if c.isDigit then escapeAsHex c ++ writeName s else writeName (c :: s)

/-- An identifier. The empty text has no written form and gives nothing. -/
def writeIdent : List Char → List Char
  | ['-'] => escapeAsChar '-'
  | '-' :: '-' :: s => '-' :: '-' :: writeName s
  | '-' :: s => '-' :: writeNoDigitFirst s
  | s => writeNoDigitFirst s

/-- A unit read after a number would be taken for an exponent. -/
def looksLikeExponent : List Char → Bool
  | c :: s => (c == 'e' || c == 'E') && s.head?.all fun d => d == '-' || d.isDigit
  | [] => false

/-- An identifier to stand right after a number: an `e` that would start an exponent is escaped. -/
def writeUnit : List Char → List Char
  | [] => []
  | c :: s =>
    if looksLikeExponent (c :: s) then escapeAsHex c ++ writeName s else writeIdent (c :: s)

/-! ## What a name takes

A name takes its code points and escapes with all their digits, and where one begins it is not empty. -/

/-- The name as written, escapes and all, is what stands before the rest. -/
theorem readName_splits (s : List Char) : (readName s).Splits s := by
  fun_induction readName s with
  | case1 => rfl
  | case2 c s _ ih => exact ih.map.after rfl
  | case3 c s _ _ _ ih => exact ih.map.after (congrArg (c :: ·) (readEscape_splits s))
  | case4 => rfl

/-- An identifier is a name that begins in a certain way: a hyphen, a letter or an escape goes on with a name
too. -/
theorem startsName_of_startsIdent {s : List Char} (h : startsIdent s = true) :
    startsName s = true := by
  have hyphen : isNameChar '-' = true := by decide
  unfold startsIdent at h
  split at h
  -- two hyphens, one hyphen, and anything else
  · simp [startsName, hyphen]
  · simp [startsName, hyphen]
  · rw [Bool.or_eq_true] at h
    rcases h with hstart | hescape
    · obtain ⟨c, hc, hname⟩ := (Option.any_eq_true _ _).mp hstart
      simp [startsName, hc, isNameChar_of_isNameStart hname]
    · simp [startsName, hescape]

/-- A name that begins takes a code point. -/
theorem moves_readName {s : List Char} (h : startsName s = true) :
    Trace.Moves (readName s).trace := by
  fun_cases readName s with
  | case1 => simp [startsName, startsEscape] at h
  | case2 c s hc => exact ⟨c, _, rfl⟩
  | case3 c s hc hescape => exact ⟨c, _, rfl⟩
  -- neither a name code point nor an escape: no name begins here
  | case4 c s hc hescape => simp [startsName, hc, hescape] at h

end CssLex
