/-!
# CssLex — decimals and binary floating point

A `Decimal` is a natural number times a power of ten. One value has many of them, which differ by
zeros at the end of the digits (`Decimal.stripZeros`); what does not differ is where the decimal
point stands before the first digit (`Decimal.point`). Powers are `Nat.pow` itself: what the operator
stands for depends on what else is imported.

A `Binary64` is a sign and the bits below it, read as a natural number. In that reading the finite
magnitudes, and infinity above them, are ordered as the numbers they stand for, and the next
magnitude is the next bit pattern: a rounded significand that carries moves on to the next exponent
by itself.

A decimal is read to the nearest binary64, of two equally near to the one with an even significand
(`Binary64.ofDecimal`). The way back is `Binary64.shortest`.
-/

namespace CssLex

/-! ## Decimals

What is done with the digits of a decimal when it is cut to a length and laid out around its point. -/

/-- The number `digits · 10 ^ exponent`. -/
structure Decimal where
  digits : Nat
  exponent : Int
  deriving DecidableEq, Repr

namespace Decimal

/-- How many digits the number is written with. -/
def digitCount (d : Decimal) : Nat :=
  (Nat.toDigits 10 d.digits).length

/-- The power of ten that the value is a pure fraction of: it is below `10 ^ point`, and not below
a tenth of that unless it is zero. -/
def point (d : Decimal) : Int :=
  d.digitCount + d.exponent

/-- The same value without zeros at the end of its digits. -/
def stripZeros (d : Decimal) : Decimal :=
  if 0 < d.digits ∧ d.digits % 10 = 0 then
    stripZeros ⟨d.digits / 10, d.exponent + 1⟩
  else d
termination_by d.digits
decreasing_by omega

/-- The greatest decimal with `n` digits that is not above `d`, if `d` has more digits. -/
def truncate (d : Decimal) (n : Nat) : Decimal :=
  let dropped := d.digitCount - n
  ⟨d.digits / Nat.pow 10 dropped, d.exponent + dropped⟩

/-- The next decimal on the same grid. -/
def succ (d : Decimal) : Decimal :=
  ⟨d.digits + 1, d.exponent⟩

/-- At most `n` digits: of more, only the first that is dropped decides which way to round, and a
five goes up. -/
def cut (d : Decimal) (n : Nat) : Decimal :=
  if d.digitCount ≤ n then d
  else
    let next := d.truncate (n + 1)
    ⟨(next.digits + 5) / 10, next.exponent + 1⟩

/-- The value times a power of ten. -/
def scale (d : Decimal) (power : Int) : Decimal :=
  ⟨d.digits, d.exponent + power⟩

/-- The digits before the decimal point. -/
def whole (d : Decimal) : List Char :=
  Nat.toDigits 10 (d.digits * Nat.pow 10 d.exponent.toNat / Nat.pow 10 (-d.exponent).toNat)

/-- The digits behind the decimal point, as many as the exponent says. -/
def fraction (d : Decimal) : List Char :=
  let places := (-d.exponent).toNat
  if places = 0 then []
  else
    let digits := Nat.toDigits 10 (d.digits % Nat.pow 10 places)
    List.replicate (places - digits.length) '0' ++ digits

end Decimal

/-! ## Binary floating point

Rounding is exact: quotients of natural numbers are compared, and nothing is ever rounded twice. -/

/-- The bits of infinity below the sign. -/
def infinityBits : Nat := 0x7FF0000000000000

/-- A double-precision number that is not a NaN. -/
structure Binary64 where
  negative : Bool
  /-- The 63 bits below the sign. -/
  magnitude : Nat
  magnitude_le : magnitude ≤ infinityBits
  deriving DecidableEq, Repr

/-- The natural number nearest to a quotient, the even one of two. -/
def roundHalfEven (num den : Nat) : Nat :=
  let q := num / den
  let twice := 2 * (num % den)
  if den < twice ∨ (twice = den ∧ q % 2 = 1) then q + 1 else q

/-- The exponent of the greatest power of two that is not above a quotient. -/
def floorLog2 (num den : Nat) : Int :=
  let guess : Int := (num.log2 : Int) - den.log2
  if den * Nat.pow 2 guess.toNat ≤ num * Nat.pow 2 (-guess).toNat then guess else guess - 1

namespace Binary64

/-- The bits of the magnitude nearest to a positive quotient. The unit is the place of the last bit
of its significand; below the least normal magnitude it stays what it is there. -/
def roundRatio (num den : Nat) : Nat :=
  let unit := max (-1074) (floorLog2 num den - 52)
  let significand := roundHalfEven (num * Nat.pow 2 (-unit).toNat) (den * Nat.pow 2 unit.toNat)
  (unit + 1074).toNat * Nat.pow 2 52 + significand

/-- The bits of the magnitude nearest to a decimal. All that is not below `10 ^ 310` is infinite
and all that is below `10 ^ -325` is zero, so that their digits need not be spelled out. -/
def roundDecimal (d : Decimal) : Nat :=
  if d.digits = 0 then 0
  else if 310 < d.point then infinityBits
  else if d.point < -325 then 0
  else roundRatio (d.digits * Nat.pow 10 d.exponent.toNat) (Nat.pow 10 (-d.exponent).toNat)

/-- The nearest number to a decimal with a sign; what is too great is infinite. -/
def ofDecimal (negative : Bool) (d : Decimal) : Binary64 :=
  ⟨negative, min infinityBits (roundDecimal d), Nat.min_le_left _ _⟩

/-- The number with these 64 bits, if they are not those of a NaN. -/
def ofBits? (bits : Nat) : Option Binary64 :=
  let magnitude := bits % Nat.pow 2 63
  if h : magnitude ≤ infinityBits then some ⟨bits / Nat.pow 2 63 % 2 = 1, magnitude, h⟩ else none

/-- The 64 bits of a number. -/
def bits (x : Binary64) : Nat :=
  (if x.negative then Nat.pow 2 63 else 0) + x.magnitude

/-! ## The parts of a number

A number is its significand in units of a power of two. The first bit of the significand is not among the bits
of the number: it is set, except below the least normal number. -/

/-- The number is one of the two zeros. -/
def isZero (x : Binary64) : Bool :=
  x.magnitude == 0

/-- The magnitude in units of `2 ^ unit`. -/
def significand (x : Binary64) : Nat :=
  if x.magnitude / Nat.pow 2 52 = 0 then x.magnitude else Nat.pow 2 52 + x.magnitude % Nat.pow 2 52

/-- The exponent of the place of the significand's last bit. -/
def unit (x : Binary64) : Int :=
  if x.magnitude / Nat.pow 2 52 = 0 then -1074 else (x.magnitude / Nat.pow 2 52 : Nat) - 1075

/-- The magnitude of a finite number, exactly. -/
def toDecimal (x : Binary64) : Decimal :=
  ⟨x.significand * Nat.pow 2 x.unit.toNat * Nat.pow 5 (-x.unit).toNat, min 0 x.unit⟩

/-- A finite number has no fractional part. -/
def isIntegral (x : Binary64) : Bool :=
  x.significand % Nat.pow 2 (-x.unit).toNat == 0

/-- The nearest finite number. -/
def clampFinite (x : Binary64) : Binary64 :=
  if x.magnitude = infinityBits then ⟨x.negative, infinityBits - 1, Nat.sub_le _ _⟩ else x

/-- The number with the sign of its zero forgotten. -/
def forgetZeroSign (x : Binary64) : Binary64 :=
  if x.isZero then { x with negative := false } else x

/-! ## The shortest decimal

Of the decimals that are read as a number, `shortest` is one with the fewest digits, and of those the
nearest. On the grid of the decimals with `n` digits only the two neighbours of the number have to be
tried: if any decimal of the grid is read as the number, so is one of them. -/

/-- With the sign of the number in front, the decimal is read as the number. -/
def ReadsBack (x : Binary64) (d : Decimal) : Prop :=
  ofDecimal x.negative d = x

instance (x : Binary64) (d : Decimal) : Decidable (x.ReadsBack d) :=
  inferInstanceAs (Decidable (_ = _))

/-- Among the decimals with `n` digits the nearest that is read as the number, the lower of two
equally near. -/
def nearestReadingBack? (x : Binary64) (n : Nat) : Option Decimal :=
  let exact := x.toDecimal
  let below := exact.truncate n
  let above := below.succ
  let step := Nat.pow 10 (exact.digitCount - n)
  if x.ReadsBack below ∧ (2 * (exact.digits % step) ≤ step ∨ ¬ x.ReadsBack above) then some below
  else if x.ReadsBack above then some above
  else none

/-- The shortest decimal that is read as a finite number, without zeros at its end. Seventeen digits are
always enough; the exact value stands behind them. It stands for the printer that numbers are handed to, of
which three things are assumed: its digits are read back as the number, no decimal with fewer digits is, and
of those with as many they are the nearest, the lower where two are equally near. A fast printer does not keep
to that everywhere: of `10 ^ 23`, whose one digit is read back, it may give more digits, and where more than
fifteen are given, what is cut off may differ in the last of them. -/
def shortest (x : Binary64) : Decimal :=
  let found := (List.range 17).findSome? fun n => x.nearestReadingBack? (n + 1)
  (found.getD x.toDecimal).stripZeros

end Binary64

end CssLex
