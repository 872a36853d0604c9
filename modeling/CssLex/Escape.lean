import CssLex.Reading

/-!
# CssLex — escapes

A backslash makes the code point after it lose its meaning, or spells a code point by up to six
hexadecimal digits and an optional whitespace. The forms are read by `readEscape` and written by
`escapeAsHex` and `escapeAsChar`.
-/

namespace CssLex

/-- A backslash that is not followed by a newline. The end of the text may follow. -/
def startsEscape : List Char → Bool
  | '\\' :: s => s.head? != some '\n'
  | _ => false

/-- The value of a hexadecimal digit. -/
def hexDigitValue (c : Char) : Nat :=
  if c.isDigit then c.toNat - '0'.toNat
  else if 'a' ≤ c then c.toNat - 'a'.toNat + 10
  else c.toNat - 'A'.toNat + 10

/-- The number that hexadecimal digits spell. -/
def hexValue (digits : List Char) : Nat :=
  digits.foldl (fun n c => 16 * n + hexDigitValue c) 0

/-- The code point of a number. Zero, surrogates and numbers out of range have none and give the
replacement character. -/
def scalarOf (n : Nat) : Char :=
  if n = 0 ∨ ¬ n.isValidChar then replacementChar else Char.ofNat n

/-- Reads what follows the backslash of an escape. Nothing can be escaped at the end of the text. -/
def readEscape (s : List Char) : Reading Char :=
  match s with
  | [] => ⟨replacementChar, [], [.report .escapedEnd]⟩
  | c :: t =>
    if isHexDigit c then
      let digits := (s.take 6).takeWhile isHexDigit
      let afterDigits := s.drop digits.length
      let gap := (afterDigits.take 1).takeWhile isWhitespace
      ⟨scalarOf (hexValue digits), afterDigits.drop gap.length, .taking (digits ++ gap)⟩
    else ⟨c, t, [.take c]⟩

/-- The escape of a code point by its number, closed by a space. -/
def escapeAsHex (c : Char) : List Char :=
  '\\' :: Nat.toDigits 16 c.toNat ++ [' ']

/-- The escape of a code point by itself. -/
def escapeAsChar (c : Char) : List Char :=
  ['\\', c]

/-! ## What an escape takes

Whichever of its forms it has, an escape takes the front of what follows its backslash. -/

/-- A run within the first `n` code points, followed by what is left behind it. -/
theorem takeWhile_take_append_drop (p : Char → Bool) (n : Nat) (s : List Char) :
    (s.take n).takeWhile p ++ s.drop ((s.take n).takeWhile p).length = s :=
  List.prefix_iff_eq_append.1 ((List.takeWhile_prefix p).trans (List.take_prefix n s))

/-- Digits are taken with the whitespace behind them, a code point that is no digit by itself. -/
theorem readEscape_splits (s : List Char) : (readEscape s).Splits s := by
  unfold readEscape Reading.Splits
  split
  · rfl
  · split
    · simp only [Trace.taken_taking, List.append_assoc, takeWhile_take_append_drop]
    · rfl

/-- An escape leaves no more than there was, which is why the readers that go on behind it come to an end. -/
theorem length_rest_readEscape_le (s : List Char) : (readEscape s).rest.length ≤ s.length :=
  (readEscape_splits s).length_le

end CssLex
