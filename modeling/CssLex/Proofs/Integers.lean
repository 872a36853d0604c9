import CssLex.Proofs.Kinds

/-!
# CssLex — integers are written within 64 bits

The token of an integer has it twice: cut off at the bounds of 64 bits, and as the number nearest to it. What is
written is the one that is cut off, so the other comes back as long as it is not beyond the bounds.

* `bits_clampInt64`: where it is rounded, both bounds are one power of two.
* `tokenize_write_integer`: which of the two come back, and with which sign.
-/

namespace CssLex

/-! ## The bounds of 64 bits

The greatest integer of 64 bits has too many digits for a binary64 and is rounded to the power of two above
it, which is the magnitude of the least. So the number nearest to an integer that was cut off is the smaller
of two: the number nearest to the integer itself, or that power of two. -/

/-- The bits of `2 ^ 63`. -/
def int64Bits : ℕ := 0x43E0000000000000

theorem valueOfBits_int64Bits : valueOfBits int64Bits = 2 ^ 63 := by
  have hgrid := valueOfBits_grid (u := 1085) (k := 2 ^ 52) (by norm_num) (Or.inr (Nat.le_refl _))
  have hpow : ((2 ^ 52 : ℕ) : ℚ) * 2 ^ ((1085 : ℕ) - 1074 : ℤ) = 2 ^ 63 := by norm_num
  rw [hpow] at hgrid
  exact hgrid

/-- The bound is a number of its own, nothing is rounded there. -/
theorem nearestBits_int64Bits : NearestBits infinityBits (2 ^ 63 : ℕ) int64Bits := by
  have hnearest : NearestBits infinityBits (valueOfBits int64Bits) int64Bits :=
    nearestBits_valueOfBits (by decide)
  rw [valueOfBits_int64Bits] at hnearest
  exact_mod_cast hnearest

/-- The integer before it has too many bits and is rounded up. -/
theorem nearestBits_maxInt64 : NearestBits infinityBits (0x7FFFFFFFFFFFFFFF : ℕ) int64Bits := by
  have hnearest := nearestBits_roundDecimal ⟨0x7FFFFFFFFFFFFFFF, 0⟩
  have hbits : min infinityBits (Binary64.roundDecimal ⟨0x7FFFFFFFFFFFFFFF, 0⟩) = int64Bits := by
    decide +kernel
  rwa [hbits, Decimal.value, zpow_zero, mul_one] at hnearest

/-- What is nearest to an integer is cut off at `2 ^ 63` with it. -/
theorem bits_clampInt64 {i : ℤ} {b c : ℕ} (hb : NearestBits infinityBits i.natAbs b)
    (hc : NearestBits infinityBits (clampInt64 i).natAbs c) : c = min b int64Bits := by
  -- either nothing is cut off, or the integer is at least as great as the bound
  have hcases : clampInt64 i = i ∧ i.natAbs ≤ 2 ^ 63 ∨ 2 ^ 63 ≤ i.natAbs ∧
      ((clampInt64 i).natAbs = 0x7FFFFFFFFFFFFFFF ∨ (clampInt64 i).natAbs = 2 ^ 63) := by
    unfold clampInt64
    omega
  rcases hcases with ⟨hsame, hle⟩ | ⟨hle, hbound⟩
  · rw [hsame] at hc
    rw [min_eq_left (hb.mono nearestBits_int64Bits (mod_cast hle))]
    exact hc.unique hb
  · rw [min_eq_right (nearestBits_int64Bits.mono hb (mod_cast hle))]
    rcases hbound with hmax | hmin
    · rw [hmax] at hc
      exact hc.unique nearestBits_maxInt64
    · rw [hmin] at hc
      exact hc.unique nearestBits_int64Bits

/-- What has been cut off once is within the bounds. -/
theorem clampInt64_clampInt64 (i : ℤ) : clampInt64 (clampInt64 i) = clampInt64 i := by
  unfold clampInt64
  omega

/-! ## Numerals that spell integers

Of such a numeral the number is the one nearest to the integer, however its zeros are spread behind the point
and the exponent. -/

namespace Numeral

variable {m : Numeral}

/-- A sign does not change the magnitude. -/
theorem natAbs_wholePart (m : Numeral) : m.wholePart.natAbs = natOfDigits m.whole := by
  rw [wholePart, applySign]
  split <;> omega

/-- The value of the numeral is the number nearest to its integer. -/
theorem IsWhole.nearestBits (h : m.IsWhole) :
    NearestBits infinityBits m.wholePart.natAbs m.value.magnitude := by
  have hnearest := nearestBits_roundDecimal m.magnitude
  rw [h.value_magnitude] at hnearest
  rw [natAbs_wholePart]
  exact hnearest

/-- Nothing is rounded to zero. -/
theorem IsWhole.isZero_value_iff (h : m.IsWhole) : m.value.isZero = true ↔ m.wholePart = 0 := by
  have hone : NearestBits infinityBits (valueOfBits 1) 1 := nearestBits_valueOfBits (by decide)
  have hvalue := h.nearestBits
  rw [Binary64.isZero, beq_iff_eq]
  constructor
  · intro hmagnitude
    -- an integer that is not zero is at least one, and one is above the least number
    by_contra hne
    have hpos : 1 ≤ m.wholePart.natAbs := by omega
    have hsmall : valueOfBits 1 ≤ m.wholePart.natAbs := by
      rw [valueOfBits_one]
      exact (zpow_le_one_of_nonpos₀ one_le_two (by norm_num)).trans (mod_cast hpos)
    have hle := hone.mono hvalue hsmall
    omega
  · intro hpart
    rw [hpart, Int.natAbs_zero, Nat.cast_zero] at hvalue
    exact hvalue.unique (nearestBits_zero _)

end Numeral

/-! ## The numeral that is written

An integer is written with its own digits after the cut, and with the sign that was read. -/

section

variable {m : Numeral} {i : ℤ}

/-- Behind a minus no integer is positive. -/
theorem integer?_nonpos (h : m.sign = some .minus) (hi : m.integer? = some i) : i ≤ 0 := by
  rw [(Numeral.integer?_eq_some_iff.1 hi).2, Numeral.wholePart, applySign, if_pos h, clampInt64]
  omega

/-- An integer is written with the sign that it had, but for the minus of a zero. -/
theorem numeral_of_integer (hi : m.integer? = some i) : m.toNumeric.numeral =
    ⟨if m.sign = some .minus ∧ i = 0 then none else m.sign, Nat.toDigits 10 i.natAbs, [], none⟩ := by
  have hunsigned : m.toNumeric.unsignedNumeral = intNumeral i := by
    have hinteger : m.toNumeric.integer? = some i := hi
    rw [Numeric.unsignedNumeral, hinteger]
  have hnumeral : m.toNumeric.numeral =
      if m.sign.isSome && !decide (m.sign = some .minus) then { intNumeral i with sign := some .plus }
      else intNumeral i := by
    rw [Numeric.numeral, hunsigned]
    rfl
  rw [hnumeral]
  -- no sign, a plus, a minus
  rcases hsign : m.sign with _ | _ | _
  · have hnonneg : 0 ≤ i := integer?_nonneg (by simp [hsign]) i hi
    simp [intNumeral, hnonneg]
  · simp [intNumeral]
  · have hnonpos : i ≤ 0 := integer?_nonpos hsign hi
    have hneg : i < 0 ↔ i ≠ 0 := by omega
    simp [intNumeral, hneg]

/-- It is the same integer again. -/
theorem wholePart_numeral_of_integer (hi : m.integer? = some i) :
    m.toNumeric.numeral.wholePart = i := by
  rw [numeral_of_integer hi, Numeral.wholePart, natOfDigits_toDigits]
  by_cases hminus : m.sign = some .minus
  · have hnonpos := integer?_nonpos hminus hi
    rcases hnonpos.eq_or_lt with rfl | hneg
    · simp [applySign]
    · rw [if_neg fun h => hneg.ne h.2, applySign, if_pos hminus]
      omega
  · have hnonneg := integer?_nonneg hminus i hi
    rw [if_neg fun h => hminus h.1, applySign, if_neg hminus]
    omega

/-! ## Integers that are read back

Three things are compared with what was read at first: the integer, its sign and the number nearest to it. -/

/-- The integer is within the bounds, so it is not cut off a second time. -/
theorem integer_toNumeric_numeral (hi : m.integer? = some i) :
    m.toNumeric.numeral.integer? = some i := by
  have hwhole : m.toNumeric.numeral.IsWhole := by
    rw [numeral_of_integer hi]
    exact isWhole_intNumeral i
  rw [Numeral.integer?_eq_some_iff, wholePart_numeral_of_integer hi,
    (Numeral.integer?_eq_some_iff.1 hi).2, clampInt64_clampInt64]
  exact ⟨hwhole, rfl⟩

/-- A sign is read back unless it is the minus of a zero. -/
theorem isSome_sign_numeral_iff (hi : m.integer? = some i) :
    m.toNumeric.numeral.sign.isSome = m.sign.isSome ↔
      ¬ (m.value.isZero = true ∧ m.value.negative = true) := by
  have hread := Numeral.integer?_eq_some_iff.1 hi
  have hzero : i = 0 ↔ m.wholePart = 0 := by
    rw [hread.2, clampInt64]
    omega
  rw [hread.1.isZero_value_iff, ← hzero, negative_value_iff, and_comm, numeral_of_integer hi]
  show (if m.sign = some .minus ∧ i = 0 then none else m.sign).isSome = m.sign.isSome ↔ _
  split
  · next h => simp [h]
  · next h => simp [h]

/-- The nearest number is read back as long as it is within the bounds. -/
theorem forgetZeroSign_numeral_iff (hi : m.integer? = some i) :
    m.toNumeric.numeral.value.forgetZeroSign = m.value.forgetZeroSign ↔ |m.value.value| ≤ 2 ^ 63 := by
  have hread := Numeral.integer?_eq_some_iff.1 hi
  have hwritten := Numeral.integer?_eq_some_iff.1 (integer_toNumeric_numeral hi)
  have hbits := hwritten.1.nearestBits
  rw [wholePart_numeral_of_integer hi, hread.2] at hbits
  have hcut := bits_clampInt64 hread.1.nearestBits hbits
  -- a number that is not zero comes of an integer that is not, and that has kept its sign
  have hsign : m.toNumeric.numeral.value.isZero = false →
      m.toNumeric.numeral.value.negative = m.value.negative := by
    intro hnonzero
    have hi0 : i ≠ 0 := by
      rintro rfl
      rw [hwritten.1.isZero_value_iff.2 (wholePart_numeral_of_integer hi)] at hnonzero
      contradiction
    rw [numeral_of_integer hi]
    exact congrArg (fun sign : Option Sign => decide (sign = some .minus)) (if_neg fun h => hi0 h.2)
  rw [Binary64.forgetZeroSign_eq_iff, and_iff_left hsign, hcut, Binary64.abs_value,
    ← valueOfBits_int64Bits, strictMono_valueOfBits.le_iff_le, min_eq_left_iff]

end

/-- The number of a token is what a numeral says. -/
theorem exists_numeral_of_mem_tokensOf {s : List Char} {t : Token} {n : Numeric} (ht : t ∈ tokensOf s)
    (hn : t.numeric? = some n) : ∃ m : Numeral, m.toNumeric = n := by
  by_cases hs : s = []
  · rw [hs, tokensOf_nil] at ht
    contradiction
  · rw [tokensOf_of_ne_nil hs] at ht
    -- the token is the first of the text, or one of those behind it
    rcases List.mem_cons.1 ht with rfl | hlater
    · exact ⟨_, (numeric?_readToken_eq_some_iff.1 hn).2⟩
    · exact exists_numeral_of_mem_tokensOf hlater hn
termination_by s.length
decreasing_by exact length_rest_readToken_lt hs

/-- **An integer is read back as the same integer, cut off as it was**, with its sign unless that is the minus
of a zero. The number nearest to it comes back as well exactly if it is within the bounds of 64 bits. -/
theorem tokenize_write_integer {text : String} {mode : CommentMode} {scan : Scan} {t : Token}
    {n : Numeric} (hscan : Scan.ofText text mode = .ok scan) (ht : t ∈ scan.tokens)
    (hn : t.numeric? = some n) (hkind : n.kind = .integer) :
    ∃ u m, tokenize (.ofList t.write) = .ok [u] ∧ u.forgetNumber = t.forgetNumber ∧
      u.numeric? = some m ∧ m.kind = .integer ∧ m.integer? = n.integer? ∧
        (m.signed = n.signed ↔ ¬ (n.value.isZero = true ∧ n.value.negative = true)) ∧
        (m.value.forgetZeroSign = n.value.forgetZeroSign ↔ |n.value.value| ≤ 2 ^ 63) := by
  have hlexical := lexical_of_scan hscan ht
  have honesign := hlexical.hasOneSign hn
  obtain ⟨u, hread, hsame, hu⟩ := exists_tokenize_write hlexical hn
  -- the integer and the number nearest to it are those of one numeral
  obtain ⟨s, _, htokens⟩ := exists_tokensOf_of_scan hscan
  obtain ⟨m, rfl⟩ := exists_numeral_of_mem_tokensOf (htokens ▸ ht) hn
  have hi := Numeral.integer?_eq_some_iff.2 ⟨kind_toNumeric.1 hkind, rfl⟩
  refine ⟨u, _, hread, hsame, hu, (kind_reread honesign).1 hkind, ?_⟩
  rw [Numeric.reread_eq honesign]
  exact ⟨(integer_toNumeric_numeral hi).trans hi.symm, isSome_sign_numeral_iff hi,
    forgetZeroSign_numeral_iff hi⟩

/-- An integer just below the bound, which is cut off and yet has the same number nearest to it. -/
theorem tokenize_write_integer_of_bound :
    ∃ scan t n, Scan.ofText "-9223372036854775809px" .preserve = .ok scan ∧ t ∈ scan.tokens ∧
      t.numeric? = some n ∧ n.kind = .integer ∧ n.integer? = some (-0x8000000000000000) ∧
      ∃ u m, tokenize (.ofList t.write) = .ok [u] ∧ u.forgetNumber = t.forgetNumber ∧
        u.numeric? = some m ∧ m.integer? = n.integer? ∧ m.signed = n.signed ∧
        m.value.forgetZeroSign = n.value.forgetZeroSign := by
  let n := (Numeral.mk (some .minus) "9223372036854775809".toList [] none).toNumeric
  have htokens : tokensOf (normalize "-9223372036854775809px".toList) = [.dimension n "px"] := by
    decide +kernel
  obtain ⟨scan, hscan, hmem⟩ := exists_scan_of_tokensOf htokens
  have hkind : n.kind = .integer := by decide +kernel
  have hbound : |n.value.value| ≤ 2 ^ 63 := by
    have hbits : n.value.magnitude = int64Bits := by decide +kernel
    rw [Binary64.abs_value, hbits, valueOfBits_int64Bits]
  obtain ⟨u, m, hread, hsame, hm, _, hinteger, hsigned, hvalue⟩ :=
    tokenize_write_integer hscan hmem rfl hkind
  exact ⟨scan, _, n, hscan, hmem, rfl, hkind, by decide +kernel, u, m, hread, hsame, hm, hinteger,
    hsigned.2 (by decide +kernel), hvalue.2 hbound⟩

/-- Ten times the greatest integer is not read back, for it is written as the greatest. -/
theorem not_tokenize_write_keeps_value :
    ¬ ∀ text scan t n, Scan.ofText text .preserve = .ok scan → t ∈ scan.tokens → t.numeric? = some n →
      n.kind = .integer →
      ∃ u m, tokenize (.ofList t.write) = .ok [u] ∧ u.forgetNumber = t.forgetNumber ∧
        u.numeric? = some m ∧ m.integer? = n.integer? ∧
        m.value.forgetZeroSign = n.value.forgetZeroSign ∧
        (¬ (n.value.isZero = true ∧ n.value.negative = true) → m.signed = n.signed) := by
  intro h
  let n := (Numeral.mk none "92233720368547758070".toList [] none).toNumeric
  have htokens : tokensOf (normalize "92233720368547758070".toList) = [.number n] := by decide +kernel
  obtain ⟨scan, hscan, hmem⟩ := exists_scan_of_tokensOf htokens
  have hkind : n.kind = .integer := by decide +kernel
  obtain ⟨u, m, hread, _, hm, _, hvalue, _⟩ := h _ scan _ n hscan hmem rfl hkind
  -- what is read is known, and its value is that of the greatest integer
  rw [eq_reread_of_tokenize_write (lexical_of_scan hscan hmem) rfl hread hm] at hvalue
  have hdiffer : n.reread.value.forgetZeroSign ≠ n.value.forgetZeroSign := by decide +kernel
  exact hdiffer hvalue

end CssLex
