import CssLex.Number.Binary64

/-!
# CssLex — numerals

A `Numeral` is a number as it is written: an optional sign, digits before and behind the point, and
an optional exponent. `readNumeral` takes the longest one from the front of a text, and
`Numeral.text` spells it again: nothing is lost (`text_readNumeral_append`). A number is laid out as
a numeral by `Binary64.toNumeral`.
-/

namespace CssLex

/-- The sign in front of a numeral or of its exponent. -/
inductive Sign where
  | plus
  | minus
  deriving DecidableEq, Repr

def Sign.char : Sign → Char
  | .plus => '+'
  | .minus => '-'

/-- The text of a sign that may be missing. -/
def signText (sign : Option Sign) : List Char :=
  (sign.map Sign.char).toList

/-- A natural number with the sign that was written before it. -/
def applySign (sign : Option Sign) (n : Nat) : Int :=
  if sign = some .minus then -n else n

/-- The power of ten at the end of a numeral. -/
structure Exponent where
  /-- An `e` in either case. -/
  mark : Char
  sign : Option Sign
  digits : List Char
  deriving DecidableEq, Repr

/-- A number as it is written. -/
structure Numeral where
  sign : Option Sign
  whole : List Char
  /-- The digits behind the point; there is no point where there are none. -/
  fraction : List Char
  exponent : Option Exponent
  deriving DecidableEq, Repr

/-- The natural number that decimal digits spell. -/
def natOfDigits (digits : List Char) : Nat :=
  Nat.ofDigitChars 10 digits 0

/-! ## Spelling

The text of a numeral, part by part; a part that is missing has no text. -/

def Exponent.text (e : Exponent) : List Char :=
  e.mark :: signText e.sign ++ e.digits

/-- The digits behind the point, with the point. -/
def fractionText (digits : List Char) : List Char :=
  if digits.isEmpty then [] else '.' :: digits

def Numeral.text (n : Numeral) : List Char :=
  signText n.sign ++ n.whole ++ fractionText n.fraction ++ (n.exponent.map Exponent.text).getD []

/-! ## Reading

Each part is taken from the front of what the part before it has left. A point or an `e` belongs to the
numeral only where a digit follows, so the digit is looked for before anything is taken. -/

/-- A decimal digit comes next. -/
def startsDigit (s : List Char) : Bool :=
  s.head?.any Char.isDigit

/-- Takes the digits from the front of a text. -/
def readDigits (s : List Char) : List Char × List Char :=
  (s.takeWhile Char.isDigit, s.dropWhile Char.isDigit)

/-- Takes a sign from the front of a text, if it has one. -/
def readSign : List Char → Option Sign × List Char
  | '+' :: s => (some .plus, s)
  | '-' :: s => (some .minus, s)
  | s => (none, s)

/-- A numeral begins here: a digit, or a point before one, may have a sign in front. -/
def startsNumber (s : List Char) : Bool :=
  match (readSign s).2 with
  | '.' :: t => startsDigit t
  | t => startsDigit t

/-- Takes a point and the digits behind it. A point without a digit is left alone. -/
def readFraction : List Char → List Char × List Char
  | '.' :: s => if startsDigit s then readDigits s else ([], '.' :: s)
  | s => ([], s)

/-- Takes an exponent. An `e` without a digit behind it and its sign is left alone. -/
def readExponent : List Char → Option Exponent × List Char
  | [] => (none, [])
  | c :: s =>
    let signed := readSign s
    if (c = 'e' ∨ c = 'E') ∧ startsDigit signed.2 then
      (some ⟨c, signed.1, (readDigits signed.2).1⟩, (readDigits signed.2).2)
    else (none, c :: s)

/-- Takes the longest numeral from the front of a text. -/
def readNumeral (s : List Char) : Numeral × List Char :=
  let signed := readSign s
  let whole := readDigits signed.2
  let fraction := readFraction whole.2
  let exponent := readExponent fraction.2
  (⟨signed.1, whole.1, fraction.1, exponent.1⟩, exponent.2)

/-! ## Values

What a numeral stands for: a decimal, the binary64 nearest to it, and an integer of 64 bits where it spells
one. -/

/-- The exponent as a number, zero where there is none. -/
def Numeral.power (n : Numeral) : Int :=
  (n.exponent.map fun e => applySign e.sign (natOfDigits e.digits)).getD 0

/-- The magnitude that a numeral spells. -/
def Numeral.magnitude (n : Numeral) : Decimal :=
  ⟨natOfDigits (n.whole ++ n.fraction), n.power - n.fraction.length⟩

/-- The number nearest to a numeral. -/
def Numeral.value (n : Numeral) : Binary64 :=
  .ofDecimal (n.sign = some .minus) n.magnitude

/-- The nearest number that fits into 64 bits with a sign. -/
def clampInt64 (i : Int) : Int :=
  max (-0x8000000000000000) (min 0x7FFFFFFFFFFFFFFF i)

/-- The integer that digits spell behind a sign, digit by digit: where it would not fit into 64 bits it
stays at the bound. Digits count towards the sign, so that the least integer is reached. -/
def int64OfDigits (sign : Option Sign) (digits : List Char) : Int :=
  digits.foldl
    (fun i c => clampInt64 (clampInt64 (i * 10) + applySign sign (c.toNat - '0'.toNat))) 0

/-- The integer that a numeral spells. It spells one where neither the digits behind the point nor
those of the exponent say anything. -/
def Numeral.integer? (n : Numeral) : Option Int :=
  let silent (digits : List Char) : Bool := digits.all (· == '0')
  if silent n.fraction && n.exponent.all (silent ·.digits) then
    some (int64OfDigits n.sign n.whole)
  else none

/-! ## Laying out

From a number back to a numeral: the shortest decimal, cut to the digits that are written, is laid
out with or without an exponent. `cssNumerals` holds the choices, `Binary64.toNumeral` makes the
numeral. -/

/-- How numbers are laid out in decimal. -/
structure NumeralFormat where
  /-- The most digits that are written. -/
  precision : Nat
  /-- A point at or before this place takes an exponent. -/
  leastPoint : Int
  /-- A point behind this place takes an exponent. -/
  greatestPoint : Int
  deriving DecidableEq, Repr

/-- The layout of numbers in a stylesheet. Numbers have up to fifteen digits and are written without an
exponent as long as at most five zeros stand between the point and the first digit, and at most 21 digits
before the point. -/
def cssNumerals : NumeralFormat := ⟨15, -6, 21⟩

/-- An integer in decimal. Of the printer of integers no more is assumed: a minus before a negative one, never
a plus, and no zeros in front of the digits. -/
def writeInt (i : Int) : List Char :=
  if i < 0 then '-' :: Nat.toDigits 10 i.natAbs else Nat.toDigits 10 i.natAbs

/-- The exponent of a numeral with this power of ten. -/
def Exponent.ofInt (power : Int) : Exponent :=
  ⟨'e', if power < 0 then some .minus else none, Nat.toDigits 10 power.natAbs⟩

/-- The numeral of a magnitude that is not zero. Where its point is out of bounds it has one digit before the
point, or two where the cut carried. Of the printer of numbers it is assumed that it lays out the shortest
digits in this way: cut to the precision first, half up, with zeros at the end taken off; then plain or with
an exponent, as the point stood before the cut; an exponent with its minus but no plus, and no point where no
digits follow it. -/
def NumeralFormat.lay (format : NumeralFormat) (d : Decimal) : Numeral :=
  let short := (d.cut format.precision).stripZeros
  if format.leastPoint < d.point ∧ d.point ≤ format.greatestPoint then
    ⟨none, short.whole, short.fraction, none⟩
  else
    let power := d.point - 1
    let coefficient := short.scale (-power)
    ⟨none, coefficient.whole, coefficient.fraction, some (.ofInt power)⟩

/-- Makes a numeral that spells an integer have a point or an exponent. -/
def Numeral.marked (n : Numeral) : Numeral :=
  if n.fraction.isEmpty && n.exponent.isNone then { n with fraction := ['0'] } else n

/-- The mark is one zero behind the point of a numeral that has neither a point nor an exponent. -/
theorem Numeral.marked_eq_or (n : Numeral) : n.marked = n ∨
    n.fraction = [] ∧ n.exponent = none ∧ n.marked = { n with fraction := ['0'] } := by
  unfold Numeral.marked
  split
  · next h =>
    simp only [Bool.and_eq_true, List.isEmpty_iff, Option.isNone_iff_eq_none] at h
    exact Or.inr ⟨h.1, h.2, rfl⟩
  · exact Or.inl rfl

/-- The numeral of a finite number. Negative zero has no sign, and an integral number is told from
an integer by a point. -/
def Binary64.toNumeral (x : Binary64) : Numeral :=
  if x.isZero then ⟨none, ['0'], ['0'], none⟩
  else
    let numeral := cssNumerals.lay x.shortest
    let marked := if x.isIntegral then numeral.marked else numeral
    { marked with sign := if x.negative then some .minus else none }

/-! ## Integers of 64 bits

The digits of an integer are counted one by one and cut off at every step; it comes to the same to count
them all and to cut off once. -/

/-- A digit more does not bring back what the bound has cut off, and it is cut off only once. -/
theorem clampInt64_digit (sign : Option Sign) (n d : Nat) :
    clampInt64 (clampInt64 (clampInt64 (applySign sign n) * 10) + applySign sign d) =
      clampInt64 (applySign sign (10 * n + d)) := by
  unfold clampInt64 applySign
  split <;> omega

/-- All digits are counted first and the bound comes last, to the same end. -/
theorem int64OfDigits_eq_clampInt64 (sign : Option Sign) (digits : List Char) :
    int64OfDigits sign digits = clampInt64 (applySign sign (natOfDigits digits)) := by
  -- induction on the digits that are left, for any number that those before them have come to
  have hrun (n : Nat) :
      digits.foldl (fun i c => clampInt64 (clampInt64 (i * 10) + applySign sign (c.toNat - '0'.toNat)))
          (clampInt64 (applySign sign n)) =
        clampInt64 (applySign sign (Nat.ofDigitChars 10 digits n)) := by
    induction digits generalizing n with
    | nil => rfl
    | cons c digits ih =>
      rw [List.foldl_cons, clampInt64_digit, ih, Nat.ofDigitChars_cons]
  have hzero : clampInt64 (applySign sign 0) = 0 := by
    unfold clampInt64 applySign
    split <;> rfl
  have hdigits := hrun 0
  rwa [hzero] at hdigits

/-! ## What a numeral takes

The parts are taken one after another, so each leaves the text without its own spelling. -/

/-- A sign that is read is spelled again; where none is read nothing is. -/
theorem signText_readSign_append (s : List Char) :
    signText (readSign s).1 ++ (readSign s).2 = s := by
  unfold readSign
  split <;> rfl

/-- Digits are taken from the front and spell themselves. -/
theorem readDigits_append (s : List Char) : (readDigits s).1 ++ (readDigits s).2 = s :=
  List.takeWhile_append_dropWhile

/-- Where a digit comes next there is one to read. -/
theorem readDigits_ne_nil {s : List Char} (h : startsDigit s = true) : (readDigits s).1 ≠ [] := by
  cases s with
  | nil => simp [startsDigit] at h
  | cons c s =>
    have hc : c.isDigit = true := by simpa [startsDigit] using h
    simp [readDigits, hc]

/-- A point is taken with its digits and spelled with them. -/
theorem fractionText_readFraction_append (s : List Char) :
    fractionText (readFraction s).1 ++ (readFraction s).2 = s := by
  unfold readFraction
  split
  · next s =>
    split
    · next h =>
      -- a digit follows the point, so there is a fraction to spell
      rw [fractionText, if_neg (by simpa using readDigits_ne_nil h), List.cons_append,
        readDigits_append]
    · rfl
  · rfl

/-- An exponent keeps the case of its mark and its sign, so its spelling is not lost. -/
theorem exponentText_readExponent_append (s : List Char) :
    ((readExponent s).1.map Exponent.text).getD [] ++ (readExponent s).2 = s := by
  cases s with
  | nil => rfl
  | cons c s =>
    simp only [readExponent]
    split
    · simp [Exponent.text, readDigits_append, signText_readSign_append]
    · rfl

/-- The numeral and what is left of the text are the text. -/
theorem text_readNumeral_append (s : List Char) :
    (readNumeral s).1.text ++ (readNumeral s).2 = s := by
  simp only [readNumeral, Numeral.text, List.append_assoc, exponentText_readExponent_append,
    fractionText_readFraction_append, readDigits_append, signText_readSign_append]

/-- A numeral that begins has at least one code point. -/
theorem text_readNumeral_ne_nil {s : List Char} (h : startsNumber s = true) :
    (readNumeral s).1.text ≠ [] := by
  intro hnil
  simp only [Numeral.text, List.append_eq_nil_iff] at hnil
  obtain ⟨⟨⟨_, hwhole⟩, hfraction⟩, _⟩ := hnil
  simp only [readNumeral] at hwhole hfraction
  have hdigits := readDigits_append (readSign s).2
  rw [hwhole, List.nil_append] at hdigits
  unfold startsNumber at h
  split at h
  · next t ht =>
    -- a point comes first, and a digit behind it
    rw [hdigits, ht] at hfraction
    simp only [readFraction, h, if_true, fractionText] at hfraction
    have := readDigits_ne_nil h
    simp_all
  · exact readDigits_ne_nil h hwhole

end CssLex
