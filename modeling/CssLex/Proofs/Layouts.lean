import CssLex.Proofs.Kinds
import CssLex.Proofs.Shortest

/-!
# CssLex — numbers of at most fifteen digits are written exactly

A number is laid out in one of two ways, with or without an exponent, and before that its shortest decimal is
cut to fifteen digits. However it is laid out, the numeral has the value of what was cut
(`value_magnitude_lay`), so only the cut can change the number.

* `forgetZeroSign_toNumeral_iff`: the numeral of a number has its value if the number has a decimal with so
  few digits that nothing is cut, and only then.
* `tokenize_write_float`: the same for tokens.
-/

namespace CssLex

/-! ## Digits around the point

A numeral is read by its digits, without the point, and the number of those behind the point. What follows
says of a decimal what both are: as natural numbers, not yet as values. -/

namespace Decimal

/-- There are as many digits behind the point as the exponent says, zeros in front of them included. -/
theorem length_fraction (d : Decimal) : d.fraction.length = (-d.exponent).toNat := by
  simp only [fraction]
  split
  · next hplaces => rw [hplaces, List.length_nil]
  · next hplaces =>
    -- the remainder has no more digits than there are places, so the zeros fill them up
    have hroom : (Nat.toDigits 10 (d.digits % Nat.pow 10 (-d.exponent).toNat)).length ≤
        (-d.exponent).toNat :=
      (Nat.length_toDigits_le_iff (by norm_num) (Nat.pos_of_ne_zero hplaces)).2
        (Nat.mod_lt _ (Nat.pow_pos (by norm_num)))
    rw [List.length_append, List.length_replicate, Nat.sub_add_cancel hroom]

/-- The digits on both sides of the point are all digits, and zeros up to the point. -/
theorem natOfDigits_whole_append_fraction (d : Decimal) :
    natOfDigits (d.whole ++ d.fraction) = d.digits * Nat.pow 10 d.exponent.toNat := by
  rw [natOfDigits_append, natOfDigits_fraction, length_fraction, whole, natOfDigits_toDigits]
  exact Nat.div_add_mod' _ _

/-- Rounding up makes no more than a power of ten of the digits. -/
theorem digits_cut_le (d : Decimal) {n : ℕ} (hn : 0 < n) : (d.cut n).digits ≤ 10 ^ n := by
  rw [cut]
  split
  · next hcount => exact ((digitCount_le_iff hn).1 hcount).le
  -- with one digit more than is kept, half a place more is carried at most once
  · have hlt := d.digits_truncate_lt (n + 1)
    rw [Nat.pow_succ] at hlt
    show ((d.truncate (n + 1)).digits + 5) / 10 ≤ 10 ^ n
    omega

end Decimal

/-- A numeral has the value of the decimal whose digits it has, times its power of ten. -/
theorem value_magnitude_mk (sign : Option Sign) (d : Decimal) (exponent : Option Exponent) :
    (Numeral.mk sign d.whole d.fraction exponent).magnitude.value =
      d.value * 10 ^ (Numeral.mk sign d.whole d.fraction exponent).power := by
  have hplaces (power : ℤ) : power - d.fraction.length = -((-d.exponent).toNat : ℤ) + power := by
    rw [d.length_fraction]
    ring
  have hpow : ((Nat.pow 10 (-d.exponent).toNat : ℕ) : ℚ) = 10 ^ (-d.exponent).toNat := by
    rw [Nat.pow_eq, Nat.cast_pow, Nat.cast_ofNat]
  rw [Numeral.magnitude, Decimal.value, d.natOfDigits_whole_append_fraction, hplaces,
    zpow_add₀ (by norm_num), zpow_neg, zpow_natCast, d.value_eq_div, hpow, div_eq_mul_inv, mul_assoc]

/-- An exponent that is written says the power it was made of. -/
theorem power_ofInt (power : ℤ) :
    applySign (Exponent.ofInt power).sign (natOfDigits (Exponent.ofInt power).digits) = power := by
  rw [Exponent.ofInt, natOfDigits_toDigits, applySign]
  by_cases hneg : power < 0
  · rw [if_pos hneg, if_pos rfl]
    omega
  · rw [if_neg hneg, if_neg (Option.some_ne_none _).symm]
    omega

/-! ## Layouts

The exponent that is written and the scaling of the coefficient cancel, and a mark is only a zero. So what is
laid out keeps its value. -/

/-- **Every layout has the value of what was cut.** -/
theorem value_magnitude_lay (format : NumeralFormat) (d : Decimal) :
    (format.lay d).magnitude.value = (d.cut format.precision).value := by
  rw [← (d.cut format.precision).value_stripZeros]
  simp only [NumeralFormat.lay]
  generalize (d.cut format.precision).stripZeros = short
  -- without an exponent the digits are those of the decimal, with one they are scaled by it
  split
  · rw [value_magnitude_mk]
    exact mul_one _
  · have hpower := power_ofInt (d.point - 1)
    rw [value_magnitude_mk]
    show (short.digits : ℚ) * 10 ^ (short.exponent + -(d.point - 1)) *
      10 ^ applySign (Exponent.ofInt (d.point - 1)).sign _ = short.value
    rw [hpower, mul_assoc, ← zpow_add₀ (by norm_num), neg_add_cancel_right]
    rfl

/-- The mark is a zero behind the point. -/
theorem value_magnitude_marked (m : Numeral) : m.marked.magnitude.value = m.magnitude.value := by
  rcases m.marked_eq_or with hsame | ⟨hfraction, hexponent, hmarked⟩
  · rw [hsame]
  · have hzero : natOfDigits (m.whole ++ ['0']) = natOfDigits m.whole * 10 ^ 1 :=
      natOfDigits_append_of_silent (by simp [Silent]) m.whole
    rw [hmarked]
    simp [Numeral.magnitude, Decimal.value, Numeral.power, hfraction, hexponent, hzero]

namespace Binary64

variable {x : Binary64}

/-- The numeral is read as what is left of the digits. -/
theorem value_toNumeral (hx : x.isZero = false) :
    x.toNumeral.value = ofDecimal x.negative (x.shortest.cut 15) := by
  have hlay := value_magnitude_lay cssNumerals x.shortest
  have hmarked : (if x.isIntegral then (cssNumerals.lay x.shortest).marked
      else cssNumerals.lay x.shortest).magnitude.value = (x.shortest.cut 15).value := by
    split
    · exact (value_magnitude_marked _).trans hlay
    · exact hlay
  have hsign : decide ((if x.negative then some Sign.minus else none) = some .minus) = x.negative := by
    cases x.negative <;> rfl
  have hvalue : x.toNumeral.value =
      ofDecimal (decide ((if x.negative then some Sign.minus else none) = some .minus))
        (if x.isIntegral then (cssNumerals.lay x.shortest).marked
          else cssNumerals.lay x.shortest).magnitude := by
    rw [toNumeral, hx, if_neg Bool.false_ne_true]
    rfl
  rw [hvalue, hsign, ofDecimal_congr x.negative hmarked]

/-- Either nothing is cut, or there was no decimal with so few digits. -/
theorem readsBack_cut_iff (hx : x.isZero = false) : x.ReadsBack (x.shortest.cut 15) ↔
    ∃ d : Decimal, d.digitCount ≤ 15 ∧ x.ReadsBack d := by
  constructor
  · intro h
    have hdigits := x.shortest.digits_cut_le (n := 15) (by norm_num)
    have hcount := Decimal.digitCount_stripZeros_le (by norm_num) hdigits
    exact ⟨_, hcount, readsBack_stripZeros.2 h⟩
  · rintro ⟨d, hcount, hd⟩
    have hshortest : x.shortest.digitCount ≤ 15 :=
      (digitCount_shortest_le hx hd (by omega)).trans hcount
    rw [Decimal.cut, if_pos hshortest]
    exact x.readsBack_shortest

/-- **The numeral of a number has its value exactly if fifteen digits are enough for it.** -/
theorem forgetZeroSign_toNumeral_iff (x : Binary64) :
    x.toNumeral.value.forgetZeroSign = x.forgetZeroSign ↔
      ∃ d : Decimal, d.digitCount ≤ 15 ∧ x.ReadsBack d := by
  cases hx : x.isZero with
  | true =>
    have hmagnitude : x.magnitude = 0 := by simpa [isZero] using hx
    have hnumeral : x.toNumeral = ⟨none, ['0'], ['0'], none⟩ := by rw [toNumeral, if_pos hx]
    -- zero has a decimal of one digit, and is read back whatever its sign was
    have hzero : x.ReadsBack ⟨0, 0⟩ := by
      rw [readsBack_iff, hmagnitude, Decimal.value, Nat.cast_zero, zero_mul]
      exact nearestBits_zero _
    refine iff_of_true ?_ ⟨⟨0, 0⟩, by decide, hzero⟩
    rw [hnumeral, forgetZeroSign_eq_iff, hmagnitude]
    exact ⟨by decide +kernel, fun h => absurd h (by decide +kernel)⟩
  | false =>
    rw [← readsBack_cut_iff hx, value_toNumeral hx, forgetZeroSign_eq_iff, readsBack_iff_magnitude]
    exact and_iff_left fun _ => rfl

end Binary64

/-! ## Tokens

A number that is no integer is written by its numeral alone, so what holds of numerals holds of the tokens. -/

/-- A finite number that is no integer is written with its own numeral, and a plus makes no difference. -/
theorem value_reread_of_float {n : Numeric} (h : n.HasOneSign) (hkind : n.kind = .float)
    (hfinite : n.value.magnitude ≠ infinityBits) : n.reread.value = n.value.toNumeral.value := by
  have hunsigned : n.unsignedNumeral = n.value.toNumeral := by
    have hclamp : n.value.clampFinite = n.value := if_neg hfinite
    unfold Numeric.kind at hkind
    unfold Numeric.unsignedNumeral
    cases hi : n.integer? with
    | some i => simp [hi] at hkind
    | none => rw [hclamp]
  rw [n.reread_eq h, Numeric.numeral, hunsigned]
  split
  -- a plus stands before a number that is not negative
  · next hplus =>
    simp only [Bool.and_eq_true, Bool.not_eq_eq_eq_not, Bool.not_true] at hplus
    have hnone := sign_toNumeral_of_not_negative hplus.2
    show Binary64.ofDecimal (decide (some Sign.plus = some .minus)) n.value.toNumeral.magnitude = _
    rw [Numeral.value, hnone]
    rfl
  · rfl

/-- **A finite number that is no integer is read back as the same number exactly if it has a decimal of at most
fifteen digits**, which is to say that its shortest has no more (`Binary64.digitCount_shortest_le`). The sign of
a zero may differ. -/
theorem tokenize_write_float {text : String} {mode : CommentMode} {scan : Scan} {t : Token}
    {n : Numeric} (hscan : Scan.ofText text mode = .ok scan) (ht : t ∈ scan.tokens)
    (hn : t.numeric? = some n) (hkind : n.kind = .float)
    (hfinite : n.value.magnitude ≠ infinityBits) :
    ∃ u m, tokenize (.ofList t.write) = .ok [u] ∧ u.forgetNumber = t.forgetNumber ∧
      u.numeric? = some m ∧ (m.value.forgetZeroSign = n.value.forgetZeroSign ↔
        ∃ d : Decimal, d.digitCount ≤ 15 ∧ n.value.ReadsBack d) := by
  have hlexical := lexical_of_scan hscan ht
  have honesign := hlexical.hasOneSign hn
  obtain ⟨u, hread, hsame, hu⟩ := exists_tokenize_write hlexical hn
  refine ⟨u, n.reread, hread, hsame, hu, ?_⟩
  rw [value_reread_of_float honesign hkind hfinite]
  exact n.value.forgetZeroSign_toNumeral_iff

/-- The number next to zero takes one digit, and an exponent. -/
theorem tokenize_write_float_of_subnormal :
    ∃ scan t n, Scan.ofText "-5e-324em" .preserve = .ok scan ∧ t ∈ scan.tokens ∧
      t.numeric? = some n ∧ n.kind = .float ∧ n.value.magnitude = 1 ∧
      ∃ u m, tokenize (.ofList t.write) = .ok [u] ∧ u.forgetNumber = t.forgetNumber ∧
        u.numeric? = some m ∧ m.value.forgetZeroSign = n.value.forgetZeroSign := by
  let n := (Numeral.mk (some .minus) ['5'] [] (some ⟨'e', some .minus, ['3', '2', '4']⟩)).toNumeric
  have htokens : tokensOf (normalize "-5e-324em".toList) = [.dimension n "em"] := by decide +kernel
  obtain ⟨scan, hscan, hmem⟩ := exists_scan_of_tokensOf htokens
  have hkind : n.kind = .float := by decide +kernel
  have hbits : n.value.magnitude = 1 := by decide +kernel
  have hfinite : n.value.magnitude ≠ infinityBits := by
    rw [hbits]
    decide
  obtain ⟨u, m, hread, hsame, hm, hvalue⟩ := tokenize_write_float hscan hmem rfl hkind hfinite
  have hshort : n.value.ReadsBack ⟨5, -324⟩ := by decide +kernel
  exact ⟨scan, _, n, hscan, hmem, rfl, hkind, hbits, u, m, hread, hsame, hm,
    hvalue.2 ⟨⟨5, -324⟩, by decide, hshort⟩⟩

end CssLex
