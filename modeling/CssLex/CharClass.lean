/-!
# CssLex — character classes

The classes of code points that the grammar of CSS tokens is written in. Decimal digits and ASCII
letters are core's `Char.isDigit` and `Char.isAlpha`; the others are defined here. All of them are
total on `Char`, so a lookahead past the end of the text is `Option.any` of a class.
-/

namespace CssLex

/-- Stands for code points that cannot be represented: NUL, lone surrogates, escapes out of
range. -/
def replacementChar : Char := '\uFFFD'

/-- The decimal digits and `A` to `F` in either case. -/
def isHexDigit (c : Char) : Bool :=
  c.isDigit || ('A' ≤ c && c ≤ 'F') || ('a' ≤ c && c ≤ 'f')

/-- Everything from U+0080 on. -/
def isNonAscii (c : Char) : Bool :=
  128 ≤ c.toNat

/-- Letters, non-ASCII code points and the underscore. -/
def isNameStart (c : Char) : Bool :=
  c.isAlpha || isNonAscii c || c == '_'

/-- What a name goes on with: also digits and hyphens. -/
def isNameChar (c : Char) : Bool :=
  isNameStart c || c.isDigit || c == '-'

/-- Space, tab and line feed: the whitespace that is left in normalised text. -/
def isWhitespace (c : Char) : Bool :=
  c == ' ' || c == '\t' || c == '\n'

/-- ASCII control characters that are not whitespace in any spelling of it. -/
def isNonPrintable (c : Char) : Bool :=
  c.toNat ≤ 0x08 || c == '\x0b' || (0x0e ≤ c.toNat && c.toNat ≤ 0x1f) || c == '\x7f'

/-- ASCII control characters, NUL and the whitespace ones included. -/
def isControl (c : Char) : Bool :=
  c.toNat < 0x20 || c == '\x7f'

/-! ## How the classes lie to each other

Digits and the code points that start a name are both part of what goes on with one. -/

/-- A name may go on with whatever it may begin with. -/
theorem isNameChar_of_isNameStart {c : Char} (h : isNameStart c = true) :
    isNameChar c = true := by
  simp [isNameChar, h]

/-- A digit goes on with a name although it cannot begin one. -/
theorem isNameChar_of_isDigit {c : Char} (h : c.isDigit = true) : isNameChar c = true := by
  simp [isNameChar, h]

/-! ## Code points and their numbers

A number that is no surrogate and not out of range has a code point. -/

/-- Its code point has that number again, so that pairs of surrogates and escapes are computed with numbers.
-/
theorem toNat_ofNat_of_isValidChar {n : Nat} (h : n.isValidChar) : (Char.ofNat n).toNat = n := by
  rw [Char.ofNat, dif_pos h]
  rfl

end CssLex
