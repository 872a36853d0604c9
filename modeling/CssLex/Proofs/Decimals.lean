import CssLex.Proofs.Numbers

/-!
# CssLex — decimals and their digits

What a decimal shows of its value: the digits that are laid out behind its point (`silent_fraction_iff`), the
place of the point (`lt_point_iff`), and the zeros that it can do without (`value_stripZeros`). The shortest
decimal of a number that is not zero has a digit, for else it would be read as zero.
-/

namespace CssLex

/-! ## Digits

Digits spell a natural number, and which digits are zeros can be told from it. -/

/-- The first digit counts for the places behind it. -/
theorem natOfDigits_cons (c : Char) (ds : List Char) :
    natOfDigits (c :: ds) = 10 ^ ds.length * (c.toNat - '0'.toNat) + natOfDigits ds := by
  rw [natOfDigits, Nat.ofDigitChars_cons, Nat.ofDigitChars_eq_ofDigitChars_zero, Nat.mul_zero,
    Nat.zero_add, ← natOfDigits]

/-- Digits that spell zero are zeros. -/
theorem silent_of_natOfDigits {ds : List Char} (hd : ∀ c ∈ ds, c.isDigit = true)
    (h : natOfDigits ds = 0) : Silent ds := by
  induction ds with
  | nil => exact fun c hc => absurd hc List.not_mem_nil
  | cons d ds ih =>
    rw [natOfDigits_cons, Nat.add_eq_zero_iff, Nat.mul_eq_zero] at h
    have hpow : (10 : ℕ) ^ ds.length ≠ 0 := (Nat.pow_pos (by norm_num)).ne'
    -- the first digit adds nothing, so it is zero, and those behind it add nothing either
    have hfirst : d.toNat - '0'.toNat = 0 := h.1.resolve_left hpow
    have hdigit : 48 ≤ d.toNat ∧ d.toNat ≤ 57 :=
      Char.isDigit_iff_toNat.1 (hd d List.mem_cons_self)
    have hzero : d = '0' := by
      apply Char.toNat_inj.1
      show d.toNat = 48
      have hbase : d.toNat - 48 = 0 := hfirst
      omega
    have hrest := ih (fun c hc => hd c (List.mem_cons_of_mem _ hc)) h.2
    exact List.forall_mem_cons.2 ⟨hzero, hrest⟩

/-- To say nothing is to spell zero. -/
theorem silent_iff {ds : List Char} (hd : ∀ c ∈ ds, c.isDigit = true) :
    Silent ds ↔ natOfDigits ds = 0 :=
  ⟨natOfDigits_of_silent, silent_of_natOfDigits hd⟩

theorem natOfDigits_toDigits (n : ℕ) : natOfDigits (Nat.toDigits 10 n) = n :=
  Nat.ofDigitChars_toDigits (by norm_num) (by norm_num)

/-! ## Decimals

What is laid out of a decimal is told by its value: whether anything stands behind the point, and where the
point stands. -/

namespace Decimal

/-- The digits behind the point are what is left of the digits before it. -/
theorem natOfDigits_fraction (d : Decimal) : natOfDigits d.fraction =
    d.digits * Nat.pow 10 d.exponent.toNat % Nat.pow 10 (-d.exponent).toNat := by
  simp only [fraction]
  split
  -- no places, and nothing is left over by a division by one
  · next hplaces =>
    rw [hplaces]
    exact (Nat.mod_one _).symm
  · next hplaces =>
    -- the digits behind the point, with zeros before them up to the number of places
    have hexponent : d.exponent.toNat = 0 := by omega
    have hzeros (n : ℕ) : natOfDigits (List.replicate n '0') = 0 :=
      natOfDigits_of_silent fun c hc => List.eq_of_mem_replicate hc
    have hpad (n : ℕ) (ds : List Char) : natOfDigits (List.replicate n '0' ++ ds) = natOfDigits ds := by
      rw [natOfDigits_append, hzeros, Nat.zero_mul, Nat.zero_add]
    rw [hpad, natOfDigits_toDigits, hexponent]
    exact congrArg (· % _) (Nat.mul_one d.digits).symm

/-- Nothing stands behind the point exactly if the number is an integer. -/
theorem silent_fraction_iff (d : Decimal) : Silent d.fraction ↔ ∃ k : ℤ, d.value = k := by
  have hden : ((Nat.pow 10 (-d.exponent).toNat : ℕ) : ℚ) ≠ 0 :=
    Nat.cast_ne_zero.2 (Nat.pow_pos (by norm_num)).ne'
  rw [silent_iff (isDigit_fraction d), natOfDigits_fraction, value_eq_div]
  generalize d.digits * Nat.pow 10 d.exponent.toNat = num at *
  generalize Nat.pow 10 (-d.exponent).toNat = den at *
  constructor
  · intro hmod
    obtain ⟨k, hk⟩ := Nat.dvd_of_mod_eq_zero hmod
    refine ⟨k, ?_⟩
    rw [div_eq_iff hden, hk]
    push_cast
    ring
  · rintro ⟨k, hk⟩
    rw [div_eq_iff hden] at hk
    have hdvd : (den : ℤ) ∣ num := ⟨k, by rw [mul_comm]; exact_mod_cast hk⟩
    exact Nat.mod_eq_zero_of_dvd (Int.natCast_dvd_natCast.1 hdvd)

/-- Zeros at the end of the digits do not count. -/
theorem value_stripZeros (d : Decimal) : d.stripZeros.value = d.value := by
  fun_induction stripZeros d with
  | case1 d h ih =>
    have hdigits : d.digits = d.digits / 10 * 10 := by omega
    rw [ih, value, value, zpow_add_one₀ (by norm_num)]
    conv_rhs => rw [hdigits]
    push_cast
    ring
  | case2 => rfl

theorem value_ne_zero {d : Decimal} (h : d.digits ≠ 0) : d.value ≠ 0 :=
  mul_ne_zero (Nat.cast_ne_zero.2 h) (zpow_ne_zero _ (by norm_num))

/-- Where the point stands says between which powers of ten a number is. -/
theorem lt_point_iff {d : Decimal} (h : d.digits ≠ 0) (k : ℤ) : k < d.point ↔ 10 ^ k ≤ d.value := by
  constructor
  · intro hk
    have hle : (10 : ℚ) ^ k ≤ 10 ^ (d.point - 1) := zpow_le_zpow_right₀ (by norm_num) (by omega)
    exact hle.trans (le_value h)
  · intro hk
    exact (zpow_lt_zpow_iff_right₀ (by norm_num)).1 (hk.trans_lt d.value_lt)

end Decimal

/-! ## The shortest decimal is not zero

Wherever the shortest decimal comes from, the search or the exact value, it is read back as the number. Zero
is read back as zero alone. -/

namespace Binary64

/-- What the search for a decimal finds has been tried. -/
theorem readsBack_of_nearestReadingBack {x : Binary64} {n : ℕ} {d : Decimal}
    (h : x.nearestReadingBack? n = some d) : x.ReadsBack d := by
  simp only [nearestReadingBack?] at h
  split at h
  · next hbelow =>
    rw [← Option.some.inj h]
    exact hbelow.1
  · split at h
    · next habove =>
      rw [← Option.some.inj h]
      exact habove
    · contradiction

/-- What is read as another number than zero has a digit. -/
theorem ReadsBack.digits_ne_zero {x : Binary64} {d : Decimal} (h : x.ReadsBack d)
    (hx : x.isZero = false) : d.digits ≠ 0 := by
  intro hzero
  have hmagnitude : x.magnitude = min infinityBits (roundDecimal d) := congrArg magnitude h.symm
  rw [roundDecimal, if_pos hzero, Nat.min_zero] at hmagnitude
  rw [isZero, hmagnitude] at hx
  contradiction

/-- The exact value of a number that is not zero has a digit. -/
theorem digits_toDecimal_ne_zero {x : Binary64} (hx : x.isZero = false) : x.toDecimal.digits ≠ 0 := by
  have hmagnitude : x.magnitude ≠ 0 := by simpa [isZero] using hx
  have hsignificand : x.significand ≠ 0 := by
    have hpow : Nat.pow 2 52 = 2 ^ 52 := rfl
    rw [significand, hpow]
    split <;> omega
  exact Nat.mul_ne_zero (Nat.mul_ne_zero hsignificand (Nat.pow_pos (by norm_num)).ne')
    (Nat.pow_pos (by norm_num)).ne'

/-- To take off zeros does not take off the last digit. -/
theorem digits_stripZeros_ne_zero {d : Decimal} (h : d.digits ≠ 0) : d.stripZeros.digits ≠ 0 := by
  intro hzero
  apply Decimal.value_ne_zero h
  rw [← d.value_stripZeros, Decimal.value, hzero, Nat.cast_zero, zero_mul]

/-- So the shortest decimal has one, whether it was found or is the exact value. -/
theorem digits_shortest_ne_zero {x : Binary64} (hx : x.isZero = false) : x.shortest.digits ≠ 0 := by
  apply digits_stripZeros_ne_zero
  cases hfound : (List.range 17).findSome? fun n => x.nearestReadingBack? (n + 1) with
  | none => exact digits_toDecimal_ne_zero hx
  | some d =>
    obtain ⟨n, _, hn⟩ := List.exists_of_findSome?_eq_some hfound
    exact (readsBack_of_nearestReadingBack hn).digits_ne_zero hx

end Binary64

end CssLex
