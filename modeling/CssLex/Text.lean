import CssLex.CharClass

/-!
# CssLex — texts

Tokens are read from normalised text: every spelling of a line break is one line feed, and NUL is
replaced. `IsNormal` says the form without running `normalize`; a text is normal exactly when
`normalize` leaves it alone.

A text may also come in 16-bit units: `Utf16.encode` writes a text as units, and `Utf16.decode` reads
any list of them.
-/

namespace CssLex

/-! ## Normal form

Line breaks become line feeds and NUL becomes the replacement character; `IsNormal` only names what must not
be left. A part of a normal text is normal, so what a reader leaves of one is normal again. -/

/-- What a single code point becomes when it is not part of a pair. -/
def normalizeChar (c : Char) : Char :=
  if c = '\r' ∨ c = '\x0c' then '\n' else if c = '\x00' then replacementChar else c

/-- A carriage return with its line feed, a lone carriage return and a form feed each become one
line feed, and NUL becomes the replacement character. -/
def normalize : List Char → List Char
  | [] => []
  | '\r' :: '\n' :: s => '\n' :: normalize s
  | c :: s => normalizeChar c :: normalize s

/-- Free of the code points that `normalize` replaces. -/
def IsNormal (s : List Char) : Prop :=
  ∀ c ∈ s, c ≠ '\r' ∧ c ≠ '\x0c' ∧ c ≠ '\x00'

@[simp] theorem normalize_nil : normalize [] = [] := rfl

/-- Only a carriage return has to be looked at together with what follows it. -/
theorem normalize_cons_of_ne {c : Char} (h : c ≠ '\r') (s : List Char) :
    normalize (c :: s) = normalizeChar c :: normalize s := by
  rw [normalize]
  exact fun _ hc _ => h hc

/-- Normal text is left alone. -/
theorem normalize_eq_self {s : List Char} (h : IsNormal s) : normalize s = s := by
  induction s with
  | nil => rfl
  | cons c s ih =>
    obtain ⟨⟨hr, hf, h0⟩, hs⟩ := List.forall_mem_cons.1 h
    rw [normalize_cons_of_ne hr, ih hs]
    simp [normalizeChar, hr, hf, h0]

theorem isNormal_nil : IsNormal [] := by
  simp [IsNormal]

/-- What is left of a normal text is normal, wherever code points are taken out of it. -/
theorem IsNormal.of_sublist {s t : List Char} (ht : IsNormal t) (h : s.Sublist t) : IsNormal s :=
  fun c hc => ht c (h.subset hc)

/-- Whether a text is normal is decided part by part, for `normalize` joins nothing in a text without a
carriage return. -/
theorem isNormal_append_iff {s t : List Char} : IsNormal (s ++ t) ↔ IsNormal s ∧ IsNormal t :=
  List.forall_mem_append

/-- Whether a text is normal is decided code point by code point. -/
theorem isNormal_cons_iff {c : Char} {s : List Char} :
    IsNormal (c :: s) ↔ (c ≠ '\r' ∧ c ≠ '\x0c' ∧ c ≠ '\x00') ∧ IsNormal s :=
  List.forall_mem_cons

/-- Whatever comes in, the text that tokens are read from is normal. -/
theorem isNormal_normalize (s : List Char) : IsNormal (normalize s) := by
  fun_induction normalize s with
  | case1 => exact isNormal_nil
  | case2 s ih => exact isNormal_cons_iff.2 ⟨by decide, ih⟩
  -- a single code point is replaced where it must not be left, and kept otherwise
  | case3 c s _ ih =>
    refine isNormal_cons_iff.2 ⟨?_, ih⟩
    unfold normalizeChar
    split
    · decide
    · split
      · decide
      · simp_all

/-! ## Text in units of 16 bits

A high surrogate directly followed by a low one is one code point, every other surrogate is one
replacement character, and every other unit stands for itself. -/

namespace Utf16

/-- The first half of a pair. -/
def isHigh (u : UInt16) : Bool :=
  0xD800 ≤ u && u ≤ 0xDBFF

/-- The second half of a pair. -/
def isLow (u : UInt16) : Bool :=
  0xDC00 ≤ u && u ≤ 0xDFFF

/-- The code point that a pair of surrogates stands for. -/
def ofPair (high low : UInt16) : Char :=
  Char.ofNat (0x10000 + (high.toNat - 0xD800) * 0x400 + (low.toNat - 0xDC00))

/-- The code point of a unit that is in no pair. -/
def ofUnit (u : UInt16) : Char :=
  if isHigh u || isLow u then replacementChar else Char.ofNat u.toNat

/-- Reads units from left to right, a pair wherever one can be formed. -/
def decode : List UInt16 → List Char
  | [] => []
  | [u] => [ofUnit u]
  | u :: v :: units =>
    if isHigh u && isLow v then ofPair u v :: decode units else ofUnit u :: decode (v :: units)

/-- One unit up to U+FFFF, a pair of surrogates above. -/
def encodeChar (c : Char) : List UInt16 :=
  if c.toNat < 0x10000 then [c.toNat.toUInt16]
  else
    let offset := c.toNat - 0x10000
    [(0xD800 + offset / 0x400).toUInt16, (0xDC00 + offset % 0x400).toUInt16]

/-- The units of a text. -/
def encode (s : List Char) : List UInt16 :=
  s.flatMap encodeChar

end Utf16

end CssLex
