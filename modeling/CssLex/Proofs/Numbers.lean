import CssLex.Proofs.Numerals
import CssLex.Proofs.Rounding

/-!
# CssLex — what number is read

Where a number begins, one numeral is the longest at the front of the text (`LongestNumeral`), and it is the
one that is read. What a token says of its number follows from the parts of that numeral (`Numeral.Spells`).

* `longestNumeral_readNumeral`: the parts are taken one after another, and yet no numeral goes further.
* `Numeral.Valid.spells`: an integer is told by its zeros, it is cut off at the bounds of 64 bits, and within them
  the value is the number nearest to it.
* `reads_longestNumeral`: both together, for the token that is read.
-/

namespace CssLex

/-- A numeral at the front of a text, in front of `r`, and no longer one is there. The texts of valid numerals
are those of the form `[+-]?(digits(.digits)?|.digits)([eE][+-]?digits)?`. -/
structure LongestNumeral (m : Numeral) (s r : List Char) : Prop where
  valid : m.Valid
  append : m.text ++ r = s
  longest {m' : Numeral} {r' : List Char} (hm : m'.Valid) (h : m'.text ++ r' = s) :
    m'.text.length ≤ m.text.length

/-! ## What is read is a numeral

The parts that are read satisfy the grammar: digits are digits, an exponent has some, and before or behind the
point there is one. -/

section

variable {s : List Char}

theorem isDigit_readDigits (s : List Char) : ∀ c ∈ (readDigits s).1, c.isDigit = true :=
  List.all_eq_true.1 List.all_takeWhile

theorem isDigit_readFraction (s : List Char) : ∀ c ∈ (readFraction s).1, c.isDigit = true := by
  unfold readFraction
  split
  · split
    · exact isDigit_readDigits _
    · simp
  · simp

theorem valid_readExponent (s : List Char) : ∀ e ∈ (readExponent s).1,
    (e.mark = 'e' ∨ e.mark = 'E') ∧ e.digits ≠ [] ∧ ∀ c ∈ e.digits, c.isDigit = true := by
  intro e he
  cases s with
  | nil => contradiction
  | cons c s =>
    simp only [readExponent] at he
    split at he
    · next hmark =>
      obtain rfl := Option.mem_some.1 he
      exact ⟨hmark.1, readDigits_ne_nil hmark.2, isDigit_readDigits _⟩
    · contradiction

/-- Where a number begins a valid numeral is read. -/
theorem valid_readNumeral (h : startsNumber s = true) : (readNumeral s).1.Valid := by
  refine ⟨isDigit_readDigits _, isDigit_readFraction _, ?_, valid_readExponent _⟩
  -- a digit before the point, or a point with a digit behind it
  rcases startsNumber_iff.1 h with hdigit | ⟨t, ht, hdigit⟩
  · exact Or.inl (readDigits_ne_nil hdigit)
  · right
    have hfraction : (readFraction (readDigits (readSign s).2).2).1 = (readDigits t).1 := by
      rw [ht]
      show (readFraction ('.' :: t)).1 = (readDigits t).1
      rw [readFraction, if_pos hdigit]
    show (readFraction (readDigits (readSign s).2).2).1 ≠ []
    rw [hfraction]
    exact readDigits_ne_nil hdigit

end

/-! ## How far it goes

A longer numeral at the front of the text would leave less than is left. But whatever valid numeral stands
there, the reader leaves no more than stands behind it. Together there is only one longest, the one that is
read. -/

theorem length_readDigits_le (s : List Char) : (readDigits s).2.length ≤ s.length :=
  List.IsSuffix.length_le ⟨_, readDigits_append s⟩

theorem length_readFraction_le (s : List Char) : (readFraction s).2.length ≤ s.length :=
  List.IsSuffix.length_le ⟨_, fractionText_readFraction_append s⟩

theorem length_readExponent_le (s : List Char) : (readExponent s).2.length ≤ s.length :=
  List.IsSuffix.length_le ⟨_, exponentText_readExponent_append s⟩

/-- A numeral at the front of a text is passed. -/
theorem length_readNumeral_le {m : Numeral} (hm : m.Valid) (r : List Char) :
    (readNumeral (m.text ++ r)).2.length ≤ r.length := by
  have hrest : (readNumeral (m.text ++ r)).2 = (readExponent (readFraction (readDigits
      (m.whole ++ (fractionText m.fraction ++
        ((m.exponent.map Exponent.text).getD [] ++ r)))).2).2).2 := by
    simp only [readNumeral, readSign_text_append hm]
  rw [hrest, readDigits_append_of_digits hm.whole]
  -- the last part that there is may go on, and what is read behind it only takes more
  cases he : m.exponent with
  | some e =>
    obtain ⟨hmark, hne, hd⟩ := hm.exponent e he
    obtain ⟨hdigit, hpoint⟩ := startsDigit_text_append hmark r
    have hstop := readDigits_of_not_startsDigit (startsDigit_fractionText_append hdigit m.fraction)
    show (readExponent (readFraction (readDigits _).2).2).2.length ≤ r.length
    rw [Option.map_some, Option.getD_some, hstop, readFraction_append hm.fraction hdigit hpoint,
      readExponent_text_append hmark hne hd]
    exact length_readDigits_le r
  -- without an exponent the digits go on, or those behind the point do
  | none =>
    rw [Option.map_none, Option.getD_none, List.nil_append]
    refine (length_readExponent_le _).trans ?_
    cases hf : m.fraction with
    | nil => exact (length_readFraction_le _).trans (length_readDigits_le r)
    | cons d f =>
      have hdigits : ∀ c ∈ d :: f, c.isDigit = true := hf ▸ hm.fraction
      have hstop : readDigits (fractionText (d :: f) ++ r) = ([], fractionText (d :: f) ++ r) := rfl
      show (readFraction (readDigits _).2).2.length ≤ r.length
      rw [hstop, readFraction_text_append (List.cons_ne_nil d f) hdigits]
      exact length_readDigits_le r

/-- **The longest numeral is read.** -/
theorem longestNumeral_readNumeral {s : List Char} (h : startsNumber s = true) :
    LongestNumeral (readNumeral s).1 s (readNumeral s).2 := by
  refine ⟨valid_readNumeral h, text_readNumeral_append s, fun {m' r'} hm heq => ?_⟩
  have hlength := length_readNumeral_le hm r'
  rw [heq] at hlength
  have hsame := congrArg List.length (heq.trans (text_readNumeral_append s).symm)
  rw [List.length_append, List.length_append] at hsame
  omega

/-- There is only one, so it is the one that is read. -/
theorem LongestNumeral.readNumeral_eq {m : Numeral} {s r : List Char} (h : LongestNumeral m s r) :
    readNumeral s = (m, r) := by
  have hstarts : startsNumber s = true := by
    rw [← h.append]
    exact startsNumber_text_append h.valid r
  have hread := longestNumeral_readNumeral hstarts
  have hlength := Nat.le_antisymm (h.longest hread.valid hread.append) (hread.longest h.valid h.append)
  obtain ⟨htext, hrest⟩ := List.append_inj (hread.append.trans h.append.symm) hlength
  have hsame := congrArg readNumeral htext
  rw [readNumeral_text hread.valid, readNumeral_text h.valid] at hsame
  exact Prod.ext (Prod.mk.inj hsame).1 hrest

/-! ## What it says

What a token says of its number is read off the numeral: its text, its sign, the integer if it is one, and its
value, which is exact for integers that fit. -/

/-- The digits are all zero. -/
def Silent (digits : List Char) : Prop :=
  ∀ c ∈ digits, c = '0'

instance (digits : List Char) : Decidable (Silent digits) :=
  decidable_of_iff (digits.all (· == '0') = true) (by simp [Silent])

/-- Nothing stands behind the point or in the exponent that would change the number before it. -/
def Numeral.IsWhole (m : Numeral) : Prop :=
  Silent m.fraction ∧ ∀ e ∈ m.exponent, Silent e.digits

instance (m : Numeral) : Decidable m.IsWhole :=
  inferInstanceAs (Decidable (_ ∧ _))

/-- The integer of the sign and the digits before the point, of any size. -/
def Numeral.wholePart (m : Numeral) : ℤ :=
  applySign m.sign (natOfDigits m.whole)

/-- What a number says if it is written as a numeral. -/
structure Numeral.Spells (m : Numeral) (n : Numeric) : Prop where
  text : n.text.toList = m.text
  signed : n.signed = true ↔ m.text.head? = some '+' ∨ m.text.head? = some '-'
  integer (i : ℤ) : n.integer? = some i ↔ m.IsWhole ∧ i = clampInt64 m.wholePart
  negative : n.value.negative = true ↔ m.text.head? = some '-'
  nearest (hm : m.IsWhole)
    (hfits : -0x8000000000000000 ≤ m.wholePart ∧ m.wholePart ≤ 0x7FFFFFFFFFFFFFFF) :
    n.value.magnitude ≠ infinityBits ∧ n.value.IsNearest m.wholePart

/-- Digits put behind others move those up by as many places. -/
theorem natOfDigits_append (ds es : List Char) :
    natOfDigits (ds ++ es) = natOfDigits ds * 10 ^ es.length + natOfDigits es := by
  rw [natOfDigits, Nat.ofDigitChars_append, ← natOfDigits, Nat.ofDigitChars_eq_ofDigitChars_zero,
    ← natOfDigits, Nat.mul_comm]

theorem natOfDigits_of_silent {f : List Char} (h : Silent f) : natOfDigits f = 0 := by
  have hzeros : f = List.replicate f.length '0' := List.eq_replicate_iff.2 ⟨rfl, h⟩
  rw [hzeros, natOfDigits, Nat.ofDigitChars_replicate_zero, Nat.mul_zero]

/-- Zeros behind digits multiply by ten each. -/
theorem natOfDigits_append_of_silent {f : List Char} (h : Silent f) (w : List Char) :
    natOfDigits (w ++ f) = natOfDigits w * 10 ^ f.length := by
  rw [natOfDigits_append, natOfDigits_of_silent h, Nat.add_zero]

namespace Numeral

variable {m : Numeral}

/-- Zeros behind the point and in the exponent leave the number as it is before the point. -/
theorem IsWhole.value_magnitude (h : m.IsWhole) : m.magnitude.value = natOfDigits m.whole := by
  have hpower : m.power = 0 := by
    rw [power]
    cases he : m.exponent with
    | none => rfl
    | some e =>
      have hzero := natOfDigits_of_silent (h.2 e he)
      rw [Option.map_some, Option.getD_some, hzero, applySign]
      split <;> rfl
  rw [magnitude, Decimal.value, natOfDigits_append_of_silent h.1, hpower, zero_sub, Nat.cast_mul,
    Nat.cast_pow, Nat.cast_ofNat, zpow_neg, zpow_natCast, mul_inv_cancel_right₀ (by positivity)]

/-- The value of a numeral is the number nearest to what it spells. -/
theorem isNearest_value (m : Numeral) :
    m.value.IsNearest (if m.sign = some .minus then -m.magnitude.value else m.magnitude.value) := by
  have hnearest := Binary64.isNearest_ofDecimal (m.sign = some .minus) m.magnitude
  simp only [decide_eq_true_eq] at hnearest
  exact hnearest

/-- So the value is the number nearest to the integer. -/
theorem IsWhole.isNearest (h : m.IsWhole) : m.value.IsNearest m.wholePart := by
  have hvalue : ((m.wholePart : ℤ) : ℚ) =
      if m.sign = some .minus then -m.magnitude.value else m.magnitude.value := by
    rw [wholePart, applySign, h.value_magnitude]
    split <;> push_cast <;> rfl
  rw [hvalue]
  exact m.isNearest_value

/-- A numeral is an integer exactly if it is whole, and that integer is cut off at the bounds. -/
theorem integer?_eq_some_iff {i : ℤ} :
    m.integer? = some i ↔ m.IsWhole ∧ i = clampInt64 m.wholePart := by
  have hwhole : (m.fraction.all (· == '0') && m.exponent.all fun e => e.digits.all (· == '0')) = true ↔
      m.IsWhole := by
    cases he : m.exponent <;> simp [IsWhole, Silent, he]
  simp only [integer?, int64OfDigits_eq_clampInt64]
  rw [← wholePart]
  split
  · next h => simp [hwhole.1 h, eq_comm]
  · next h => simp [mt hwhole.2 h]

end Numeral

/-- Which sign is read shows in the first code point. -/
theorem readSign_eq_some_iff {s : List Char} :
    ((readSign s).1 = some .plus ↔ s.head? = some '+') ∧
      ((readSign s).1 = some .minus ↔ s.head? = some '-') := by
  unfold readSign
  split
  · simp
  · simp
  · next hplus hminus =>
    cases s with
    | nil => simp
    | cons c s =>
      have hc : c ≠ '+' ∧ c ≠ '-' :=
        ⟨fun h => hplus s (by rw [h]), fun h => hminus s (by rw [h])⟩
      simp [hc]

/-- **A number says what its numeral spells.** -/
theorem Numeral.Valid.spells {m : Numeral} (hm : m.Valid) : m.Spells m.toNumeric := by
  have hsign := readSign_text_append hm []
  rw [List.append_nil] at hsign
  obtain ⟨hplus, hminus⟩ := readSign_eq_some_iff (s := m.text)
  rw [hsign] at hplus hminus
  refine ⟨String.toList_ofList, ?_, fun i => integer?_eq_some_iff, ?_, fun hwhole hfits => ?_⟩
  · show m.sign.isSome = true ↔ _
    rw [← hplus, ← hminus]
    cases m.sign with
    | none => simp
    | some sign => cases sign <;> simp
  · exact negative_value_iff.trans hminus
  · have hnearest := hwhole.isNearest
    refine ⟨hnearest.finite ?_, hnearest⟩
    -- far below half of infinity
    have hbound : |m.wholePart| < 2 ^ 64 := abs_lt.2 (by omega)
    have hbound' : |(m.wholePart : ℚ)| < 2 ^ 64 := mod_cast hbound
    exact hbound'.trans (zpow_lt_zpow_right₀ one_lt_two (by norm_num : (64 : ℤ) < 1023))

/-- **Where a number begins there is one longest numeral, and the token says what it spells.** -/
theorem reads_longestNumeral {s : List Char} (h : startsNumber s = true) :
    (∃ m r, LongestNumeral m s r) ∧
      ∀ m r, LongestNumeral m s r → readNumeral s = (m, r) ∧
        m.text <+: Trace.taken (readToken s).trace ∧
        ∃ n, (readToken s).value.numeric? = some n ∧ m.Spells n := by
  refine ⟨⟨_, _, longestNumeral_readNumeral h⟩, fun m r hm => ?_⟩
  have hread := hm.readNumeral_eq
  refine ⟨hread, ?_, m.toNumeric, ?_, hm.valid.spells⟩
  · rw [readToken_of_startsNumber h, readNumeric, hread, Reading.trace_after, Trace.taken_append,
      Trace.taken_taking]
    exact List.prefix_append _ _
  · rw [numeric?_readToken_eq_some_iff, hread]
    exact ⟨h, rfl⟩

/-- An exponent of zeros belongs to the numeral, the second point does not. -/
theorem reads_longestNumeral_of_zeros :
    let s := "-007.0e+0.5".toList
    let m : Numeral := ⟨some .minus, ['0', '0', '7'], ['0'], some ⟨'e', some .plus, ['0']⟩⟩
    startsNumber s = true ∧ LongestNumeral m s ['.', '5'] ∧
      ∃ n, (readToken s).value.numeric? = some n ∧ m.Spells n ∧ n.integer? = some (-7) := by
  intro s m
  have hstarts : startsNumber s = true := by decide
  have hread : readNumeral s = (m, ['.', '5']) := by decide
  have hlongest : LongestNumeral m s ['.', '5'] := by
    have h := longestNumeral_readNumeral hstarts
    rwa [hread] at h
  obtain ⟨_, _, n, hn, hspells⟩ := (reads_longestNumeral hstarts).2 m _ hlongest
  exact ⟨hstarts, hlongest, n, hn, hspells, (hspells.integer _).2 ⟨by decide, by decide⟩⟩

end CssLex
