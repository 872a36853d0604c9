import CssLex.Proofs.Decimals

/-!
# CssLex — no shorter decimal is read as the number

`Binary64.shortest` tries two decimals with each count of digits: the neighbours of the number on the grid of
those with so many. That is enough. Rounding is monotone, so the decimals that are read as a number have no gap
between them (`ReadsBack.of_between`), and where one of them is on the grid, a neighbour is
(`readsBack_neighbour`).

* `Binary64.readsBack_shortest`: the shortest decimal is read as the number.
* `Binary64.digitCount_shortest_le`: no decimal with fewer digits is.
-/

namespace CssLex

/-! ## The grid of the decimals with so many digits

The decimals of `n` digits that begin where a number does are the multiples of one power of ten. Cutting the
number off gives the multiple below it, and counting one up the multiple above it. -/

namespace Decimal

variable {c d : Decimal} {n : ℕ}

/-- Counting digits is comparing with a power of ten. -/
theorem digitCount_le_iff (hn : 0 < n) : d.digitCount ≤ n ↔ d.digits < 10 ^ n :=
  Nat.length_toDigits_le_iff (by norm_num) hn

theorem digits_truncate (d : Decimal) (n : ℕ) :
    (d.truncate n).digits = d.digits / 10 ^ (d.digitCount - n) := rfl

theorem truncate_of_le (h : d.digitCount ≤ n) : d.truncate n = d := by
  have hnone : d.digitCount - n = 0 := Nat.sub_eq_zero_of_le h
  have hdigits : d.digits / Nat.pow 10 0 = d.digits := Nat.div_one _
  have hexponent : d.exponent + ((0 : ℕ) : ℤ) = d.exponent := Int.add_zero _
  rw [truncate, hnone, hdigits, hexponent]

theorem digits_truncate_lt (d : Decimal) (n : ℕ) : (d.truncate n).digits < 10 ^ n := by
  have hpow : 10 ^ d.digitCount ≤ 10 ^ n * 10 ^ (d.digitCount - n) := by
    rw [← Nat.pow_add]
    exact Nat.pow_le_pow_right (by norm_num) (by omega)
  rw [digits_truncate]
  exact Nat.div_lt_of_lt_mul (d.digits_lt_pow.trans_le (hpow.trans_eq (Nat.mul_comm _ _)))

/-- Where digits are dropped, all that are kept count. -/
theorem pow_le_digits_truncate (hd : d.digits ≠ 0) (hpos : 0 < n) (hn : n < d.digitCount) :
    10 ^ (n - 1) ≤ (d.truncate n).digits := by
  rw [digits_truncate, Nat.le_div_iff_mul_le (Nat.pow_pos (by norm_num)), ← Nat.pow_add]
  refine (Nat.pow_le_pow_right (by norm_num) ?_).trans (pow_le_digits hd)
  omega

/-- A number lies between its neighbours on the grid. -/
theorem value_truncate_le (d : Decimal) (n : ℕ) :
    (d.truncate n).value ≤ d.value ∧ d.value < (d.truncate n).succ.value := by
  have hdropped : (0 : ℚ) < 10 ^ d.exponent := zpow_pos (by norm_num) _
  have hpos : 0 < 10 ^ (d.digitCount - n) := Nat.pow_pos (by norm_num)
  have hgrid (k : ℕ) : (⟨k, (d.truncate n).exponent⟩ : Decimal).value =
      (k * 10 ^ (d.digitCount - n) : ℕ) * 10 ^ d.exponent := by
    show (k : ℚ) * 10 ^ (d.exponent + ((d.digitCount - n : ℕ) : ℤ)) = _
    rw [zpow_add₀ (by norm_num), zpow_natCast]
    push_cast
    ring
  have hlower := hgrid (d.truncate n).digits
  have hupper := hgrid ((d.truncate n).digits + 1)
  rw [digits_truncate] at hlower hupper
  constructor
  · refine hlower.trans_le (mul_le_mul_of_nonneg_right ?_ hdropped.le)
    exact_mod_cast Nat.div_mul_le_self _ _
  · refine (mul_lt_mul_of_pos_right ?_ hdropped).trans_eq hupper.symm
    exact_mod_cast Nat.lt_mul_of_div_lt (Nat.lt_succ_self (d.digits / 10 ^ (d.digitCount - n))) hpos

/-- What has no more digits than a number on the grid is not greater, or it is on the grid as well. -/
theorem value_le_or_onGrid {b : Decimal} (hn : 0 < n) (hb : 10 ^ (n - 1) ≤ b.digits)
    (hc : c.digits < 10 ^ n) : c.value ≤ b.value ∨ ∃ k : ℕ, c.value = k * 10 ^ b.exponent := by
  rcases Int.lt_or_le c.exponent b.exponent with hless | hle
  · left
    have hexponent : (n : ℤ) + c.exponent ≤ (n - 1 : ℕ) + b.exponent := by omega
    calc c.value ≤ 10 ^ n * 10 ^ c.exponent :=
          mul_le_mul_of_nonneg_right (mod_cast hc.le) (zpow_nonneg (by norm_num) _)
      _ = 10 ^ ((n : ℤ) + c.exponent) := by rw [zpow_add₀ (by norm_num), zpow_natCast]
      _ ≤ 10 ^ (((n - 1 : ℕ) : ℤ) + b.exponent) := zpow_le_zpow_right₀ (by norm_num) hexponent
      _ = 10 ^ (n - 1) * 10 ^ b.exponent := by rw [zpow_add₀ (by norm_num), zpow_natCast]
      _ ≤ b.value := mul_le_mul_of_nonneg_right (mod_cast hb) (zpow_nonneg (by norm_num) _)
  · right
    have hexponent : c.exponent = ((c.exponent - b.exponent).toNat : ℕ) + b.exponent := by omega
    refine ⟨c.digits * 10 ^ (c.exponent - b.exponent).toNat, ?_⟩
    rw [value, hexponent, zpow_add₀ (by norm_num), zpow_natCast]
    push_cast
    rw [← hexponent, mul_assoc]

/-- No decimal with as few digits lies between a number and its neighbours on the grid. -/
theorem outside_neighbours (hd : d.digits ≠ 0) (hpos : 0 < n) (hn : n < d.digitCount)
    (hc : c.digitCount ≤ n) :
    c.value ≤ (d.truncate n).value ∨ (d.truncate n).succ.value ≤ c.value := by
  obtain ⟨hlower, hupper⟩ := d.value_truncate_le n
  have hstep : (0 : ℚ) < 10 ^ (d.truncate n).exponent := zpow_pos (by norm_num) _
  have hdigits := (digitCount_le_iff hpos).1 hc
  rcases value_le_or_onGrid hpos (pow_le_digits_truncate hd hpos hn) hdigits with hle | ⟨k, hk⟩
  · exact Or.inl hle
  · rcases Nat.lt_or_ge (d.truncate n).digits k with hgreat | hsmall
    · right
      rw [hk]
      exact mul_le_mul_of_nonneg_right (mod_cast hgreat) hstep.le
    · left
      rw [hk]
      exact mul_le_mul_of_nonneg_right (mod_cast hsmall) hstep.le

/-- A carry past the last digit leaves a single one. -/
theorem digitCount_stripZeros_le (hn : 0 < n) (h : d.digits ≤ 10 ^ n) : d.stripZeros.digitCount ≤ n := by
  fun_induction stripZeros d with
  | case1 d _ ih => exact ih ((Nat.div_le_self _ _).trans h)
  | case2 d hlast =>
    rw [digitCount_le_iff hn]
    refine h.lt_of_ne fun heq => hlast ?_
    rw [heq]
    exact ⟨Nat.pow_pos (by norm_num), Nat.mod_eq_zero_of_dvd (dvd_pow_self 10 hn.ne')⟩

end Decimal

/-! ## What is read as a number

Reading rounds the value of a decimal to the nearest bits (`readsBack_iff`), so all that has been proved of
rounding can be said of the decimals that are read as one number. -/

namespace Binary64

variable {x : Binary64} {c d e : Decimal} {n : ℕ}

/-- The sign is kept in any case, so reading back is a matter of the bits below it. -/
theorem readsBack_iff_magnitude : x.ReadsBack d ↔ (ofDecimal x.negative d).magnitude = x.magnitude := by
  rw [ReadsBack]
  cases x
  simp [ofDecimal]

/-- A decimal is read as the number whose bits are nearest to its value. -/
theorem readsBack_iff : x.ReadsBack d ↔ NearestBits infinityBits d.value x.magnitude := by
  have hnearest := nearestBits_roundDecimal d
  rw [readsBack_iff_magnitude]
  constructor
  · intro h
    rw [← h]
    exact hnearest
  · exact hnearest.unique

/-- The decimals that are read as a number have no gap between them. -/
theorem ReadsBack.of_between (hc : x.ReadsBack c) (he : x.ReadsBack e) (hcd : c.value ≤ d.value)
    (hde : d.value ≤ e.value) : x.ReadsBack d := by
  rw [readsBack_iff] at hc he ⊢
  have hd := nearestBits_roundDecimal d
  have hsame := (hd.mono he hde).antisymm (hc.mono hd hcd)
  rwa [hsame] at hd

/-- The decimal with all digits of a number has its value exactly: two to a power below zero is five to that
power in units of ten. -/
theorem value_toDecimal (x : Binary64) : x.toDecimal.value = valueOfBits x.magnitude := by
  have hten (k : ℕ) : (5 : ℚ) ^ k * 10 ^ (-k : ℤ) = 2 ^ (-k : ℤ) := by
    rw [zpow_neg, zpow_neg, zpow_natCast, zpow_natCast]
    have hsplit : (10 : ℚ) ^ k = 2 ^ k * 5 ^ k := by rw [← mul_pow]; norm_num
    rw [hsplit]
    field_simp
  have hunit : x.toDecimal.value = x.significand * 2 ^ x.unit := by
    have hmin : min 0 x.unit = -((-x.unit).toNat : ℤ) := by omega
    have hparts : x.unit = (x.unit.toNat : ℤ) + -((-x.unit).toNat : ℤ) := by omega
    rw [toDecimal, Decimal.value, hmin]
    conv_rhs => rw [hparts, zpow_add₀ two_ne_zero, zpow_natCast, ← hten]
    simp only [Nat.pow_eq]
    push_cast
    ring
  rw [hunit, significand, unit, valueOfBits]
  split
  · rfl
  · rfl

/-- So it is read as the number, being as near as can be. -/
theorem readsBack_toDecimal (x : Binary64) : x.ReadsBack x.toDecimal := by
  rw [readsBack_iff, value_toDecimal]
  exact nearestBits_valueOfBits x.magnitude_le

/-- Zeros at the end make no difference. -/
theorem readsBack_stripZeros : x.ReadsBack d.stripZeros ↔ x.ReadsBack d := by
  rw [ReadsBack, ReadsBack, ofDecimal_congr x.negative d.value_stripZeros]

/-- **The shortest decimal of a number is read as the number.** -/
theorem readsBack_shortest (x : Binary64) : x.ReadsBack x.shortest := by
  rw [shortest, readsBack_stripZeros]
  cases hfound : (List.range 17).findSome? fun n => x.nearestReadingBack? (n + 1) with
  | none => exact x.readsBack_toDecimal
  | some d =>
    obtain ⟨n, _, hn⟩ := List.exists_of_findSome?_eq_some hfound
    exact readsBack_of_nearestReadingBack hn

/-! ## The fewest digits

The search goes through the counts of digits from one on and stops at the first where a neighbour is read as
the number. It cannot pass a count for which any decimal is. -/

/-- Where a decimal with so many digits is read as the number, so is one of its neighbours on the grid. -/
theorem readsBack_neighbour (hx : x.isZero = false) (h : x.ReadsBack d) (hpos : 0 < n)
    (hd : d.digitCount ≤ n) :
    x.ReadsBack (x.toDecimal.truncate n) ∨ x.ReadsBack (x.toDecimal.truncate n).succ := by
  have hexact := x.readsBack_toDecimal
  -- with fewer digits than the number the decimal is beside the neighbours, and one of them is between it and
  -- the number
  rcases Nat.lt_or_ge n x.toDecimal.digitCount with hless | hgreat
  · obtain ⟨hlower, hupper⟩ := x.toDecimal.value_truncate_le n
    rcases Decimal.outside_neighbours (digits_toDecimal_ne_zero hx) hpos hless hd with hbelow | habove
    · exact Or.inl (h.of_between hexact hbelow hlower)
    · exact Or.inr (hexact.of_between h hupper.le habove)
  · left
    rwa [Decimal.truncate_of_le hgreat]

/-- A neighbour that is read as the number is found. -/
theorem isSome_nearestReadingBack (h : x.ReadsBack (x.toDecimal.truncate n) ∨
    x.ReadsBack (x.toDecimal.truncate n).succ) : (x.nearestReadingBack? n).isSome = true := by
  simp only [nearestReadingBack?]
  split
  · rfl
  · next hlower =>
    split
    · rfl
    · next hupper => exact absurd ⟨h.resolve_right hupper, Or.inr hupper⟩ hlower

/-- What the search finds has the digits that it was looking for, or is the power of ten behind them. -/
theorem digits_nearestReadingBack_le (h : x.nearestReadingBack? n = some d) : d.digits ≤ 10 ^ n := by
  have hlt := x.toDecimal.digits_truncate_lt n
  simp only [nearestReadingBack?] at h
  split at h
  · rw [← Option.some.inj h]
    exact hlt.le
  · split at h
    · rw [← Option.some.inj h]
      exact hlt
    · contradiction

/-- **No decimal with fewer digits is read as the number**, as long as it would have at most seventeen. -/
theorem digitCount_shortest_le (hx : x.isZero = false) (h : x.ReadsBack d) (hd : d.digitCount ≤ 17) :
    x.shortest.digitCount ≤ d.digitCount := by
  have hpos : 0 < d.digitCount := List.length_pos_of_ne_nil Nat.toDigits_ne_nil
  -- the search stops at this count of digits at the latest
  have hstop : (x.nearestReadingBack? (d.digitCount - 1 + 1)).isSome = true := by
    rw [Nat.sub_add_cancel hpos]
    exact isSome_nearestReadingBack (readsBack_neighbour hx h hpos (Nat.le_refl _))
  have hmem : d.digitCount - 1 ∈ List.range 17 := List.mem_range.2 (by omega)
  rw [shortest]
  cases hfound : (List.range 17).findSome? fun n => x.nearestReadingBack? (n + 1) with
  | none =>
    have hnone := List.findSome?_eq_none_iff.1 hfound _ hmem
    rw [hnone] at hstop
    contradiction
  | some e =>
    obtain ⟨before, n, later, hrange, hn, hbefore⟩ := List.findSome?_eq_some_iff.1 hfound
    -- what is found comes before any other count that would do
    have hfirst : n ≤ d.digitCount - 1 := by
      have hsorted : List.Pairwise (· < ·) (before ++ n :: later) := hrange ▸ List.pairwise_lt_range
      rw [hrange, List.mem_append] at hmem
      rcases hmem with hmem | hmem
      · rw [hbefore _ hmem] at hstop
        contradiction
      · rcases List.mem_cons.1 hmem with heq | hmem
        · exact heq.ge
        · exact ((List.pairwise_cons.1 (List.pairwise_append.1 hsorted).2.1).1 _ hmem).le
    have hcount := Decimal.digitCount_stripZeros_le (Nat.succ_pos n) (digits_nearestReadingBack_le hn)
    show e.stripZeros.digitCount ≤ _
    omega

end Binary64

end CssLex
