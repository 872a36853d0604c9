import CssLex.Number.Binary64
import Mathlib.Algebra.Order.Field.Power
import Mathlib.Algebra.Order.Field.Rat
import Mathlib.Order.Monotone.Basic
import Mathlib.Tactic.FieldSimp
import Mathlib.Tactic.Linarith
import Mathlib.Tactic.NormNum
import Mathlib.Tactic.Positivity
import Mathlib.Tactic.Ring

/-!
# CssLex — decimals are read to the nearest number

The bits below the sign, read as a natural number, stand for ever greater numbers (`valueOfBits`). A value
lies between two that follow each other, and `Binary64.roundRatio` takes the nearer one, or the even one of
two that are equally near.

* `Binary64.IsNearest`: no number is nearer to the value, and a tie goes to the even significand. Infinity
  stands here for the power of two that would come next, so that it is the nearest from half a step before.
* `Binary64.isNearest_ofDecimal`: every decimal is read to the nearest number.
-/

namespace CssLex

/-- The number that a decimal stands for. -/
def Decimal.value (d : Decimal) : ℚ :=
  d.digits * 10 ^ d.exponent

/-- The number that stands behind the sign with these bits. -/
def valueOfBits (bits : ℕ) : ℚ :=
  if bits / Nat.pow 2 52 = 0 then bits * 2 ^ (-1074 : ℤ)
  else (Nat.pow 2 52 + bits % Nat.pow 2 52 : ℕ) * 2 ^ ((bits / Nat.pow 2 52 : ℕ) - 1075 : ℤ)

namespace Binary64

/-- The number that is meant, of infinity the power of two that would come next. -/
def value (x : Binary64) : ℚ :=
  (if x.negative then -1 else 1) * valueOfBits x.magnitude

/-- No number is nearer to the value, and of several that are equally near this is the one with the even
significand. -/
structure IsNearest (x : Binary64) (v : ℚ) : Prop where
  nearest (y : Binary64) : |x.value - v| ≤ |y.value - v|
  even (y : Binary64) (hy : y.value ≠ x.value) (h : |y.value - v| = |x.value - v|) :
    x.significand % 2 = 0

end Binary64

/-! ## The order of the bits

Bits are counted on a grid: `u` for the unit and `k` for the significand. One bit more is one unit more, also
where the significand carries into the exponent, so the bits are in the order of what they stand for. -/

/-- Significands up to the next power of two, counted in units of one place. -/
theorem valueOfBits_grid {u k : ℕ} (hk : k ≤ 2 ^ 53) (hu : u = 0 ∨ 2 ^ 52 ≤ k) :
    valueOfBits (u * 2 ^ 52 + k) = k * 2 ^ ((u : ℤ) - 1074) := by
  have hpow : Nat.pow 2 52 = 2 ^ 52 := rfl
  rw [valueOfBits, hpow]
  rcases Nat.lt_or_ge k (2 ^ 52) with hsmall | hgreat
  · -- below the least normal magnitude the significand is all there is
    have hzero : u = 0 := by omega
    subst hzero
    have hdiv : (0 * 2 ^ 52 + k) / 2 ^ 52 = 0 := by omega
    rw [if_pos hdiv, Nat.zero_mul, Nat.zero_add]
    rfl
  · rcases Nat.lt_or_eq_of_le hk with hless | hcarry
    · have hdiv : (u * 2 ^ 52 + k) / 2 ^ 52 = u + 1 := by omega
      have hmod : 2 ^ 52 + (u * 2 ^ 52 + k) % 2 ^ 52 = k := by omega
      have hexponent : ((u + 1 : ℕ) : ℤ) - 1075 = u - 1074 := by omega
      rw [hdiv, if_neg (Nat.succ_ne_zero u), hmod, hexponent]
    · -- the significand carries, and the exponent takes it up
      subst hcarry
      have hdiv : (u * 2 ^ 52 + 2 ^ 53) / 2 ^ 52 = u + 2 := by omega
      have hmod : 2 ^ 52 + (u * 2 ^ 52 + 2 ^ 53) % 2 ^ 52 = 2 ^ 52 := by omega
      have hexponent : ((u + 2 : ℕ) : ℤ) - 1075 = (u - 1074) + 1 := by omega
      rw [hdiv, if_neg (Nat.succ_ne_zero _), hmod, hexponent, zpow_add_one₀ two_ne_zero]
      push_cast
      ring

/-- All bits are on a grid, with room for one more significand. -/
theorem exists_grid (bits : ℕ) :
    ∃ u k, u * 2 ^ 52 + k = bits ∧ k < 2 ^ 53 ∧ (u = 0 ∨ 2 ^ 52 ≤ k) := by
  rcases Nat.lt_or_ge bits (2 ^ 52) with hsmall | hgreat
  · exact ⟨0, bits, by omega, by omega, Or.inl rfl⟩
  · exact ⟨bits / 2 ^ 52 - 1, 2 ^ 52 + bits % 2 ^ 52, by omega, by omega, Or.inr (by omega)⟩

/-- Greater bits stand for greater numbers. -/
theorem strictMono_valueOfBits : StrictMono valueOfBits := by
  apply strictMono_nat_of_lt_succ
  intro bits
  obtain ⟨u, k, rfl, hk, hu⟩ := exists_grid bits
  have hnext : u = 0 ∨ 2 ^ 52 ≤ k + 1 := by omega
  rw [Nat.add_assoc, valueOfBits_grid hk.le hu, valueOfBits_grid hk hnext]
  have hunit : (0 : ℚ) < 2 ^ ((u : ℤ) - 1074) := zpow_pos two_pos _
  exact mul_lt_mul_of_pos_right (Nat.cast_lt.2 k.lt_succ_self) hunit

theorem valueOfBits_zero : valueOfBits 0 = 0 := by
  have hgrid := valueOfBits_grid (u := 0) (k := 0) (by omega) (Or.inl rfl)
  rwa [Nat.zero_mul, Nat.cast_zero, zero_mul] at hgrid

theorem valueOfBits_nonneg (bits : ℕ) : 0 ≤ valueOfBits bits := by
  rw [← valueOfBits_zero]
  exact strictMono_valueOfBits.monotone bits.zero_le

/-! ## The nearest bits

With the order known, the distances from a value are known too: they grow to both sides of the two bits around
it. Which of these two is the nearest therefore decides about all bits. -/

/-- Of the bits up to `top` none stand for a number that is nearer to the value, and if others stand for one
that is as near, these are even. -/
structure NearestBits (top : ℕ) (v : ℚ) (b : ℕ) : Prop where
  le : b ≤ top
  nearest {c : ℕ} (hc : c ≤ top) : |valueOfBits b - v| ≤ |valueOfBits c - v|
  even {c : ℕ} (hc : c ≤ top) (hne : c ≠ b) (h : |valueOfBits c - v| = |valueOfBits b - v|) :
    b % 2 = 0

section

variable {top m r : ℕ} {v : ℚ}

/-- Bits are nearest if all others are farther, or as far with even ones here. -/
theorem nearestBits_of_forall (hle : r ≤ top) (h : ∀ c ≤ top, c ≠ r →
    |valueOfBits r - v| < |valueOfBits c - v| ∨
      |valueOfBits r - v| = |valueOfBits c - v| ∧ r % 2 = 0) : NearestBits top v r := by
  refine ⟨hle, fun {c} hc => ?_, fun {c} hc hne heq => ?_⟩
  · rcases Decidable.eq_or_ne c r with heq | hne
    · rw [heq]
    · rcases h c hc hne with hless | ⟨hsame, _⟩
      · exact hless.le
      · exact hsame.le
  · rcases h c hc hne with hless | ⟨_, heven⟩
    · exact absurd heq.symm hless.ne
    · exact heven

/-- How far bits are off if the value lies between `m` and `m + 1`. -/
theorem distances_of_between (hlow : valueOfBits m ≤ v) (hhigh : v < valueOfBits (m + 1)) :
    |valueOfBits m - v| = v - valueOfBits m ∧
      |valueOfBits (m + 1) - v| = valueOfBits (m + 1) - v ∧
      (∀ c < m, v - valueOfBits m < |valueOfBits c - v|) ∧
      ∀ c > m + 1, valueOfBits (m + 1) - v < |valueOfBits c - v| := by
  refine ⟨?_, abs_of_pos (by linarith), fun c hc => ?_, fun c hc => ?_⟩
  · rw [abs_sub_comm]
    exact abs_of_nonneg (by linarith)
  · have hlt := strictMono_valueOfBits hc
    rw [abs_sub_comm, abs_of_nonneg (by linarith)]
    linarith
  · have hlt := strictMono_valueOfBits hc
    rw [abs_of_nonneg (by linarith)]
    linarith

/-- Of a value that is not below any bits the greatest are the nearest. -/
theorem nearestBits_top (h : valueOfBits top ≤ v) : NearestBits top v top := by
  apply nearestBits_of_forall (Nat.le_refl _)
  intro c hc hne
  have hlt := strictMono_valueOfBits (Nat.lt_of_le_of_ne hc hne)
  rw [abs_sub_comm, abs_of_nonneg (by linarith), abs_sub_comm, abs_of_nonneg (by linarith)]
  exact Or.inl (by linarith)

/-- Of the two bits around a value the nearer ones are the nearest of all, cut off at the greatest. -/
theorem nearestBits_of_between (hlow : valueOfBits m ≤ v) (hhigh : v < valueOfBits (m + 1))
    (hr : (r = m ∧ (v - valueOfBits m < valueOfBits (m + 1) - v ∨
          v - valueOfBits m = valueOfBits (m + 1) - v ∧ m % 2 = 0)) ∨
        (r = m + 1 ∧ (valueOfBits (m + 1) - v < v - valueOfBits m ∨
          valueOfBits (m + 1) - v = v - valueOfBits m ∧ m % 2 = 1))) :
    NearestBits top v (min top r) := by
  rcases Nat.le_total top m with htop | htop
  · have hmin : min top r = top := by omega
    rw [hmin]
    exact nearestBits_top ((strictMono_valueOfBits.monotone htop).trans hlow)
  obtain ⟨hm, hnext, hbelow, habove⟩ := distances_of_between hlow hhigh
  -- Which of the two was taken: all others are farther than it, and of the other one `hnear` says so.
  rcases hr with ⟨rfl, hnear⟩ | ⟨rfl, hnear⟩
  · have hmin : min top r = r := by omega
    rw [hmin]
    apply nearestBits_of_forall htop
    intro c _ hne
    have hside : c < r ∨ c = r + 1 ∨ r + 1 < c := by omega
    rw [hm]
    rcases hside with hc | rfl | hc
    · exact Or.inl (hbelow c hc)
    · rwa [hnext]
    · have hfar := habove c hc
      rcases hnear with h | ⟨h, _⟩ <;> exact Or.inl (by linarith)
  · rcases Nat.lt_or_eq_of_le htop with hroom | rfl
    · have hmin : min top (m + 1) = m + 1 := by omega
      rw [hmin]
      apply nearestBits_of_forall hroom
      intro c _ hne
      have hside : c < m ∨ c = m ∨ m + 1 < c := by omega
      rw [hnext]
      rcases hside with hc | rfl | hc
      · have hfar := hbelow c hc
        rcases hnear with h | ⟨h, _⟩ <;> exact Or.inl (by linarith)
      · rw [hm]
        exact hnear.imp_right fun h => ⟨h.1, by omega⟩
      · exact Or.inl (habove c hc)
    · -- the upper one is cut off
      have hmin : min m (m + 1) = m := by omega
      rw [hmin]
      exact nearestBits_top hlow

/-- Of two bits the greater are no farther from a value exactly if it is not below their middle. -/
theorem abs_sub_le_iff_of_lt {b c : ℕ} (h : c < b) (v : ℚ) :
    (|valueOfBits b - v| ≤ |valueOfBits c - v| ↔ valueOfBits b + valueOfBits c ≤ 2 * v) ∧
      (|valueOfBits c - v| ≤ |valueOfBits b - v| ↔ 2 * v ≤ valueOfBits b + valueOfBits c) := by
  have hlt := strictMono_valueOfBits h
  rw [← sq_le_sq, ← sq_le_sq]
  refine ⟨⟨fun hle => ?_, fun hle => ?_⟩, ⟨fun hle => ?_, fun hle => ?_⟩⟩ <;> nlinarith

/-- **Rounding is monotone.** The bits that are nearest to a greater value are not smaller. -/
theorem NearestBits.mono {w : ℚ} {b c : ℕ} (hb : NearestBits top v b) (hc : NearestBits top w c)
    (h : v ≤ w) : b ≤ c := by
  by_contra hlt
  rw [not_le] at hlt
  have hgreat := (abs_sub_le_iff_of_lt hlt v).1.1 (hb.nearest hc.le)
  have hsmall := (abs_sub_le_iff_of_lt hlt w).2.1 (hc.nearest hb.le)
  -- both values are in the middle, so both bits are even and others stand between them
  have hv : 2 * v = valueOfBits b + valueOfBits c := by linarith
  have hw : w = v := by linarith
  subst hw
  have htie : |valueOfBits c - w| = |valueOfBits b - w| :=
    le_antisymm ((abs_sub_le_iff_of_lt hlt w).2.2 hv.le) ((abs_sub_le_iff_of_lt hlt w).1.2 hv.ge)
  have hbeven := hb.even hc.le hlt.ne htie
  have hceven := hc.even hb.le hlt.ne' htie.symm
  have hbetween : c + 1 < b := by omega
  have hcloser := (abs_sub_le_iff_of_lt hbetween w).1.1 (hb.nearest (hbetween.le.trans hb.le))
  have hnext := strictMono_valueOfBits c.lt_succ_self
  rw [Nat.succ_eq_add_one] at hnext
  linarith

/-- Of the nearest bits there is one choice, for rounding is monotone both ways. -/
theorem NearestBits.unique {b c : ℕ} (hb : NearestBits top v b) (hc : NearestBits top v c) : b = c :=
  (hb.mono hc le_rfl).antisymm (hc.mono hb le_rfl)

/-- Bits are nearest to what they stand for. -/
theorem nearestBits_valueOfBits {b : ℕ} (h : b ≤ top) : NearestBits top (valueOfBits b) b := by
  apply nearestBits_of_forall h
  intro c _ hne
  rw [sub_self, abs_zero]
  exact Or.inl (abs_pos.2 (sub_ne_zero.2 (strictMono_valueOfBits.injective.ne hne)))

theorem nearestBits_zero (top : ℕ) : NearestBits top 0 0 := by
  have hnearest := nearestBits_valueOfBits (Nat.zero_le top)
  rwa [valueOfBits_zero] at hnearest

end

/-! ## Rounding

`Binary64.roundRatio` finds the power of two below a quotient, takes as many units of the last place as go
into it and rounds what is over. Each step has its own specification here. -/

/-- A power with an exponent of either sign as a quotient of natural numbers. -/
theorem zpow_eq_div {b : ℕ} (hb : b ≠ 0) (e : ℤ) :
    (b : ℚ) ^ e = (Nat.pow b e.toNat : ℕ) / (Nat.pow b (-e).toNat : ℕ) := by
  have hb' : (b : ℚ) ≠ 0 := Nat.cast_ne_zero.2 hb
  have he : e = (e.toNat : ℤ) - ((-e).toNat : ℤ) := by omega
  conv_lhs => rw [he]
  rw [zpow_sub₀ hb', zpow_natCast, zpow_natCast, Nat.pow_eq, Nat.pow_eq, Nat.cast_pow, Nat.cast_pow]

/-- A quotient in units of a power of two. -/
theorem div_zpow_eq {num den : ℕ} (e : ℤ) :
    (num : ℚ) / den / 2 ^ e =
      (num * Nat.pow 2 (-e).toNat : ℕ) / (den * Nat.pow 2 e.toNat : ℕ) := by
  have hpow := zpow_eq_div (b := 2) two_ne_zero e
  rw [Nat.cast_ofNat] at hpow
  rw [hpow, Nat.cast_mul, Nat.cast_mul, div_div_div_eq]

/-- A quotient is at least a power of two if that can be told from whole numbers. -/
theorem le_div_iff_scaled {num den : ℕ} (hd : den ≠ 0) (e : ℤ) :
    den * Nat.pow 2 e.toNat ≤ num * Nat.pow 2 (-e).toNat ↔ (2 : ℚ) ^ e ≤ num / den := by
  have hscaled : (0 : ℚ) < (den * Nat.pow 2 e.toNat : ℕ) :=
    Nat.cast_pos.2 (Nat.mul_pos (Nat.pos_of_ne_zero hd) (Nat.pow_pos two_pos))
  rw [← one_le_div₀ (zpow_pos two_pos e), div_zpow_eq, one_le_div₀ hscaled, Nat.cast_le]

/-- The whole logarithm of a number, in powers with integer exponents. -/
theorem log2_bounds {n : ℕ} (h : n ≠ 0) :
    (2 : ℚ) ^ (n.log2 : ℤ) ≤ n ∧ (n : ℚ) < 2 ^ ((n.log2 : ℤ) + 1) := by
  have hsucc : (n.log2 : ℤ) + 1 = (n.log2 + 1 : ℕ) := rfl
  rw [hsucc, zpow_natCast, zpow_natCast]
  exact ⟨mod_cast Nat.log2_self_le h, mod_cast Nat.lt_log2_self⟩

/-- The guess from the two logarithms is off by one at most, and one comparison puts it right. -/
theorem floorLog2_spec {num den : ℕ} (hn : num ≠ 0) (hd : den ≠ 0) :
    (2 : ℚ) ^ floorLog2 num den ≤ num / den ∧ (num : ℚ) / den < 2 ^ (floorLog2 num den + 1) := by
  have hden : (0 : ℚ) < den := Nat.cast_pos.2 (Nat.pos_of_ne_zero hd)
  obtain ⟨hnum, hnum'⟩ := log2_bounds hn
  obtain ⟨hdenom, hdenom'⟩ := log2_bounds hd
  -- the difference of the logarithms is off by less than one
  have hupper : (num : ℚ) / den < 2 ^ ((num.log2 : ℤ) - den.log2 + 1) := by
    rw [div_lt_iff₀ hden]
    calc (num : ℚ) < 2 ^ ((num.log2 : ℤ) - den.log2 + 1 + den.log2) := by
          rwa [sub_add_eq_add_sub, sub_add_cancel]
      _ = 2 ^ ((num.log2 : ℤ) - den.log2 + 1) * 2 ^ (den.log2 : ℤ) := zpow_add₀ two_ne_zero _ _
      _ ≤ 2 ^ ((num.log2 : ℤ) - den.log2 + 1) * den :=
          mul_le_mul_of_nonneg_left hdenom (zpow_nonneg zero_le_two _)
  have hlower : (2 : ℚ) ^ ((num.log2 : ℤ) - den.log2 - 1) ≤ num / den := by
    rw [le_div_iff₀ hden]
    calc (2 : ℚ) ^ ((num.log2 : ℤ) - den.log2 - 1) * den
        ≤ 2 ^ ((num.log2 : ℤ) - den.log2 - 1) * 2 ^ ((den.log2 : ℤ) + 1) :=
          mul_le_mul_of_nonneg_left hdenom'.le (zpow_nonneg zero_le_two _)
      _ = 2 ^ ((num.log2 : ℤ) - den.log2 - 1 + (den.log2 + 1)) := (zpow_add₀ two_ne_zero _ _).symm
      _ = 2 ^ (num.log2 : ℤ) := congrArg _ (by omega)
      _ ≤ num := hnum
  simp only [floorLog2, le_div_iff_scaled hd]
  split
  · next hguess => exact ⟨hguess, hupper⟩
  · next hguess =>
    rw [sub_add_cancel]
    exact ⟨hlower, not_le.1 hguess⟩

/-- A quotient is above its whole part by half of some `h`, which decides to which side it is rounded. -/
theorem roundHalfEven_spec {n d : ℕ} (hd : 0 < d) :
    ∃ h : ℚ, 0 ≤ h ∧ h < 2 ∧ (n : ℚ) / d = (n / d : ℕ) + h / 2 ∧
      (roundHalfEven n d = n / d ∧ (h < 1 ∨ h = 1 ∧ n / d % 2 = 0) ∨
        roundHalfEven n d = n / d + 1 ∧ (1 < h ∨ h = 1 ∧ n / d % 2 = 1)) := by
  have hdq : (0 : ℚ) < d := Nat.cast_pos.2 hd
  have hparts : (n : ℚ) = d * (n / d : ℕ) + (n % d : ℕ) := mod_cast (Nat.div_add_mod n d).symm
  refine ⟨(2 * (n % d) : ℕ) / d, by positivity, ?_, ?_, ?_⟩
  · rw [div_lt_iff₀ hdq]
    exact_mod_cast Nat.mul_lt_mul_of_pos_left (Nat.mod_lt n hd) two_pos
  · rw [div_eq_iff hdq.ne', Nat.cast_mul, Nat.cast_ofNat]
    field_simp
    linarith
  · rw [div_lt_one hdq, one_lt_div hdq, div_eq_one_iff_eq hdq.ne', Nat.cast_lt, Nat.cast_lt,
      Nat.cast_inj]
    simp only [roundHalfEven]
    split
    · next hup => exact Or.inr ⟨rfl, hup⟩
    · next hup => exact Or.inl ⟨rfl, by omega⟩

/-- In units of its last place a quotient has a significand of 53 bits, and of no fewer above the least
normal magnitude. -/
theorem significand_bounds {n d : ℕ} {e unit : ℤ} (hd : 0 < d) (hunit : unit = max (-1074) (e - 52))
    (hlow : (2 : ℚ) ^ e ≤ n / d * 2 ^ unit) (hhigh : (n : ℚ) / d * 2 ^ unit < 2 ^ (e + 1)) :
    n / d < 2 ^ 53 ∧ (unit = -1074 ∨ 2 ^ 52 ≤ n / d) := by
  have hstep : (0 : ℚ) < 2 ^ unit := zpow_pos two_pos _
  have hd' : (0 : ℚ) < d := Nat.cast_pos.2 hd
  have hpow (k : ℕ) : (2 : ℚ) ^ (unit + k) = 2 ^ k * 2 ^ unit := by
    rw [zpow_add₀ two_ne_zero, zpow_natCast, mul_comm]
  -- The unit is 52 places below the first bit, or it is the least unit there is and the quotient has fewer.
  constructor
  · have hle : (2 : ℚ) ^ (e + 1) ≤ 2 ^ (unit + (53 : ℕ)) :=
      zpow_le_zpow_right₀ one_le_two (by omega)
    rw [hpow] at hle
    have hlt : (n : ℚ) / d < 2 ^ 53 := lt_of_mul_lt_mul_right (hhigh.trans_le hle) hstep.le
    rw [div_lt_iff₀ hd'] at hlt
    exact (Nat.div_lt_iff_lt_mul hd).2 (mod_cast hlt)
  · rcases max_choice (-1074) (e - 52) with hmax | hmax
    · exact Or.inl (hunit.trans hmax)
    · right
      have he : e = unit + (52 : ℕ) := by omega
      rw [he, hpow] at hlow
      have hle : (2 : ℚ) ^ 52 ≤ n / d := le_of_mul_le_mul_right hlow hstep
      rw [le_div_iff₀ hd'] at hle
      exact (Nat.le_div_iff_mul_le hd).2 (mod_cast hle)

/-- Between two neighbours on a grid the parity of the bits is that of the significand. -/
theorem nearestBits_of_grid (top : ℕ) {base f r : ℕ} {h step : ℚ} (hbase : base % 2 = 0)
    (hstep : 0 < step) (hh : 0 ≤ h) (hh' : h < 2) (hlower : valueOfBits (base + f) = f * step)
    (hupper : valueOfBits (base + (f + 1)) = (f + 1 : ℕ) * step)
    (hr : r = f ∧ (h < 1 ∨ h = 1 ∧ f % 2 = 0) ∨ r = f + 1 ∧ (1 < h ∨ h = 1 ∧ f % 2 = 1)) :
    NearestBits top ((f + h / 2) * step) (min top (base + r)) := by
  -- the distances to both neighbours, in steps of the grid
  have hdown : (f + h / 2) * step - valueOfBits (base + f) = h / 2 * step := by
    rw [hlower]
    ring
  have hup : valueOfBits (base + f + 1) - (f + h / 2) * step = (1 - h / 2) * step := by
    rw [Nat.add_assoc, hupper]
    push_cast
    ring
  have hlow : 0 ≤ h / 2 * step := mul_nonneg (by linarith) hstep.le
  have hhigh : 0 < (1 - h / 2) * step := mul_pos (by linarith) hstep
  apply nearestBits_of_between (m := base + f)
  · linarith
  · linarith
  · rw [hdown, hup, mul_lt_mul_iff_of_pos_right hstep, mul_lt_mul_iff_of_pos_right hstep,
      mul_left_inj' hstep.ne', mul_left_inj' hstep.ne']
    rcases hr with ⟨rfl, hless | ⟨rfl, heven⟩⟩ | ⟨rfl, hless | ⟨rfl, hodd⟩⟩
    · exact Or.inl ⟨rfl, Or.inl (by linarith)⟩
    · exact Or.inl ⟨rfl, Or.inr ⟨by norm_num, by omega⟩⟩
    · exact Or.inr ⟨rfl, Or.inl (by linarith)⟩
    · exact Or.inr ⟨rfl, Or.inr ⟨by norm_num, by omega⟩⟩

/-- A quotient is rounded to the nearest bits. -/
theorem nearestBits_roundRatio (top : ℕ) {num den : ℕ} (hn : num ≠ 0) (hd : den ≠ 0) :
    NearestBits top (num / den) (min top (Binary64.roundRatio num den)) := by
  obtain ⟨hlow, hhigh⟩ := floorLog2_spec hn hd
  simp only [Binary64.roundRatio]
  generalize floorLog2 num den = e at *
  generalize hunit : max (-1074) (e - 52) = unit
  generalize hn' : num * Nat.pow 2 (-unit).toNat = n
  generalize hd' : den * Nat.pow 2 unit.toNat = d
  have hdpos : 0 < d := by
    rw [← hd']
    exact Nat.mul_pos (Nat.pos_of_ne_zero hd) (Nat.pow_pos two_pos)
  have hstep : (0 : ℚ) < 2 ^ unit := zpow_pos two_pos _
  have hscaled : (num : ℚ) / den = n / d * 2 ^ unit := by
    rw [← hn', ← hd', ← div_zpow_eq, div_mul_cancel₀ _ hstep.ne']
  rw [hscaled] at hlow hhigh ⊢
  -- the significand has the place that the unit gives it
  obtain ⟨hroom, hnormal⟩ := significand_bounds hdpos hunit.symm hlow hhigh
  have hplace : (((unit + 1074).toNat : ℕ) : ℤ) - 1074 = unit := by omega
  have hlower := valueOfBits_grid (u := (unit + 1074).toNat) hroom.le (by omega)
  have hupper := valueOfBits_grid (u := (unit + 1074).toNat) hroom (by omega)
  rw [hplace] at hlower hupper
  have hbase : (unit + 1074).toNat * 2 ^ 52 % 2 = 0 := by omega
  obtain ⟨h, hh, hh', hvalue, hcases⟩ := roundHalfEven_spec (n := n) hdpos
  rw [hvalue]
  exact nearestBits_of_grid top hbase hstep hh hh' hlower hupper hcases

/-! ## Decimals

A decimal is rounded as a quotient, unless it is so great or so small that this can be told from the place of
its point. The sign is put in front in the end and changes no distance (`abs_value_sub`). -/

namespace Decimal

variable {d : Decimal}

theorem value_nonneg (d : Decimal) : 0 ≤ d.value :=
  mul_nonneg (Nat.cast_nonneg _) (zpow_nonneg (by norm_num) _)

/-- A decimal is a quotient of natural numbers. -/
theorem value_eq_div (d : Decimal) :
    d.value = (d.digits * Nat.pow 10 d.exponent.toNat : ℕ) / (Nat.pow 10 (-d.exponent).toNat : ℕ) := by
  have hpow := zpow_eq_div (b := 10) (by norm_num) d.exponent
  rw [Nat.cast_ofNat] at hpow
  rw [value, hpow, Nat.cast_mul, mul_div_assoc]

/-- So many digits make less than the power of ten with so many zeros. -/
theorem digits_lt_pow (d : Decimal) : d.digits < 10 ^ d.digitCount := by
  have hpos : 0 < d.digitCount := List.length_pos_of_ne_nil Nat.toDigits_ne_nil
  exact (Nat.length_toDigits_le_iff (by norm_num) hpos).1 (Nat.le_refl _)

/-- And no less than the power before it, for the first digit is not zero. -/
theorem pow_le_digits (h : d.digits ≠ 0) : 10 ^ (d.digitCount - 1) ≤ d.digits := by
  have hpos : 0 < d.digitCount := List.length_pos_of_ne_nil Nat.toDigits_ne_nil
  rcases Nat.eq_or_lt_of_le hpos with hone | hmore
  · rw [← hone]
    exact Nat.pos_of_ne_zero h
  · refine Nat.le_of_not_lt fun hless => ?_
    have hle := (Nat.length_toDigits_le_iff (by norm_num) (by omega)).2 hless
    rw [← digitCount] at hle
    omega

/-- The point stands behind all digits before it. -/
theorem value_lt (d : Decimal) : d.value < 10 ^ d.point := by
  rw [value, point, zpow_add₀ (by norm_num), zpow_natCast]
  exact mul_lt_mul_of_pos_right (mod_cast d.digits_lt_pow) (zpow_pos (by norm_num) _)

/-- The first digit before the point is not zero. -/
theorem le_value (h : d.digits ≠ 0) : 10 ^ (d.point - 1) ≤ d.value := by
  have hpos : 0 < d.digitCount := List.length_pos_of_ne_nil Nat.toDigits_ne_nil
  have hplace : d.point - 1 = (d.digitCount - 1 : ℕ) + d.exponent := by
    rw [point]
    omega
  rw [value, hplace, zpow_add₀ (by norm_num), zpow_natCast]
  exact mul_le_mul_of_nonneg_right (mod_cast pow_le_digits h) (zpow_nonneg (by norm_num) _)

end Decimal

/-- What comes next behind the greatest finite number. -/
theorem valueOfBits_infinity : valueOfBits infinityBits = 2 ^ (1024 : ℤ) := by
  have hgrid := valueOfBits_grid (u := 2046) (k := 2 ^ 52) (by norm_num) (Or.inr (Nat.le_refl _))
  have hpow : (2 : ℚ) ^ (1024 : ℤ) = 2 ^ 52 * 2 ^ ((2046 : ℕ) - 1074 : ℤ) := by
    rw [← zpow_natCast, ← zpow_add₀ two_ne_zero]
    rfl
  rw [Nat.cast_pow, Nat.cast_ofNat, ← hpow] at hgrid
  exact hgrid

theorem valueOfBits_one : valueOfBits 1 = 2 ^ (-1074 : ℤ) := by
  have hgrid := valueOfBits_grid (u := 0) (k := 1) (by norm_num) (Or.inl rfl)
  rwa [Nat.cast_one, one_mul] at hgrid

/-- A decimal is rounded to the nearest bits, infinity being the greatest. -/
theorem nearestBits_roundDecimal (d : Decimal) :
    NearestBits infinityBits d.value (min infinityBits (Binary64.roundDecimal d)) := by
  have hfirst : (0 : ℚ) < 2 ^ (-1074 : ℤ) := zpow_pos two_pos _
  rw [Binary64.roundDecimal]
  -- The three ways of `roundDecimal` past the quotient come first: no digits at all, a point too far right
  -- for any finite number, and one too far left for any number but zero.
  split
  · next hzero =>
    have hvalue : d.value = 0 := by rw [Decimal.value, hzero, Nat.cast_zero, zero_mul]
    apply nearestBits_of_between (m := 0)
    · rw [valueOfBits_zero, hvalue]
    · rwa [valueOfBits_one, hvalue]
    · rw [valueOfBits_zero, valueOfBits_one, hvalue]
      exact Or.inl ⟨rfl, Or.inl (by linarith)⟩
  split
  · next hdigits hgreat =>
    have hpow : (2 : ℚ) ^ 1024 ≤ 10 ^ 310 := mod_cast (by decide +kernel : 2 ^ 1024 ≤ 10 ^ 310)
    have hle : (10 : ℚ) ^ (310 : ℤ) ≤ 10 ^ (d.point - 1) :=
      zpow_le_zpow_right₀ (by norm_num) (by omega)
    rw [Nat.min_self]
    apply nearestBits_top
    rw [valueOfBits_infinity]
    exact (hpow.trans hle).trans (Decimal.le_value hdigits)
  split
  · next hsmall =>
    have hpow : (2 : ℚ) * 2 ^ 1074 ≤ 10 ^ 326 := mod_cast (by decide +kernel : 2 * 2 ^ 1074 ≤ 10 ^ 326)
    have hle : (10 : ℚ) ^ d.point ≤ 10 ^ (-326 : ℤ) :=
      zpow_le_zpow_right₀ (by norm_num) (by omega)
    have hlt := d.value_lt
    have hnonneg := d.value_nonneg
    have hfar : 2 * (10 : ℚ) ^ (-326 : ℤ) ≤ 2 ^ (-1074 : ℤ) := by
      have htiny : (10 : ℚ) ^ (-326 : ℤ) = (10 ^ 326)⁻¹ := zpow_neg_coe_of_pos _ (by norm_num)
      have hunit : (2 : ℚ) ^ (-1074 : ℤ) = (2 ^ 1074)⁻¹ := zpow_neg_coe_of_pos _ (by norm_num)
      rw [htiny, hunit, ← div_eq_mul_inv, div_le_iff₀ (by positivity), inv_mul_eq_div,
        le_div_iff₀ (by positivity)]
      exact hpow
    apply nearestBits_of_between (m := 0)
    · rwa [valueOfBits_zero]
    · rw [valueOfBits_one]
      linarith
    · rw [valueOfBits_zero, valueOfBits_one]
      exact Or.inl ⟨rfl, Or.inl (by linarith)⟩
  · next hdigits _ _ =>
    rw [d.value_eq_div]
    apply nearestBits_roundRatio
    · exact Nat.mul_ne_zero hdigits (Nat.pow_pos (by norm_num)).ne'
    · exact (Nat.pow_pos (by norm_num)).ne'

namespace Binary64

/-- The significand is even where the bits are. -/
theorem significand_mod_two (x : Binary64) : x.significand % 2 = x.magnitude % 2 := by
  have hpow : Nat.pow 2 52 = 2 ^ 52 := rfl
  rw [significand, hpow]
  split <;> omega

/-- A number is as far from a value as its bits are if the signs agree, and else beyond zero. -/
theorem abs_value_sub (y : Binary64) (negative : Bool) {v : ℚ} (hv : 0 ≤ v) :
    |y.value - (if negative then -v else v)| =
      if y.negative = negative then |valueOfBits y.magnitude - v| else valueOfBits y.magnitude + v := by
  have hnonneg := valueOfBits_nonneg y.magnitude
  have hsum : 0 ≤ valueOfBits y.magnitude + v := add_nonneg hnonneg hv
  rw [value]
  cases y.negative <;> cases negative
  · show |1 * valueOfBits y.magnitude - v| = |valueOfBits y.magnitude - v|
    rw [one_mul]
  · show |1 * valueOfBits y.magnitude - -v| = valueOfBits y.magnitude + v
    rw [one_mul, sub_neg_eq_add, abs_of_nonneg hsum]
  · show |-1 * valueOfBits y.magnitude - v| = valueOfBits y.magnitude + v
    rw [neg_one_mul, ← neg_add', abs_neg, abs_of_nonneg hsum]
  · show |-1 * valueOfBits y.magnitude - -v| = |valueOfBits y.magnitude - v|
    rw [neg_one_mul, neg_sub_neg, abs_sub_comm]

theorem value_eq_zero {x : Binary64} (h : valueOfBits x.magnitude = 0) : x.value = 0 := by
  rw [value, h, mul_zero]

/-- Bits that are nearest to a magnitude are nearest behind its sign. -/
theorem isNearest_of_nearestBits {x : Binary64} {v : ℚ} (hv : 0 ≤ v)
    (h : NearestBits infinityBits v x.magnitude) : x.IsNearest (if x.negative then -v else v) := by
  have hzero := h.nearest (c := 0) (Nat.zero_le _)
  rw [valueOfBits_zero, zero_sub, abs_neg, abs_of_nonneg hv] at hzero
  have hx := abs_value_sub x x.negative hv
  rw [if_pos rfl] at hx
  refine ⟨fun y => ?_, fun y hy heq => ?_⟩
  · rw [hx, abs_value_sub y x.negative hv]
    split
    · exact h.nearest y.magnitude_le
    · have hnonneg := valueOfBits_nonneg y.magnitude
      linarith
  · rw [significand_mod_two]
    rw [hx, abs_value_sub y x.negative hv] at heq
    split at heq
    · next hsign =>
      refine h.even y.magnitude_le (fun hsame => hy ?_) heq
      rw [value, value, hsign, hsame]
    · -- only zero is no farther than the nearest bits on the other side
      have hnonneg := valueOfBits_nonneg y.magnitude
      have hyzero : valueOfBits y.magnitude = 0 := by linarith
      refine h.even (c := 0) (Nat.zero_le _) (fun hsame => hy ?_) ?_
      · rw [value_eq_zero hyzero, value_eq_zero]
        rw [← hsame, valueOfBits_zero]
      · rw [valueOfBits_zero, zero_sub, abs_neg, abs_of_nonneg hv, ← heq, hyzero, zero_add]

/-- **Every decimal is read to the nearest number.** -/
theorem isNearest_ofDecimal (negative : Bool) (d : Decimal) :
    (ofDecimal negative d).IsNearest (if negative then -d.value else d.value) :=
  isNearest_of_nearestBits d.value_nonneg (nearestBits_roundDecimal d)

/-- Only the value of a decimal counts where it is read. -/
theorem ofDecimal_congr (negative : Bool) {d e : Decimal} (h : d.value = e.value) :
    ofDecimal negative d = ofDecimal negative e := by
  have hd := nearestBits_roundDecimal d
  rw [h] at hd
  have hsame : (ofDecimal negative d).magnitude = (ofDecimal negative e).magnitude :=
    hd.unique (nearestBits_roundDecimal e)
  rw [ofDecimal, ofDecimal, mk.injEq]
  exact ⟨rfl, hsame⟩

/-- Two numbers are the same, or both are zero. -/
theorem forgetZeroSign_eq_iff {x y : Binary64} : x.forgetZeroSign = y.forgetZeroSign ↔
    x.magnitude = y.magnitude ∧ (x.isZero = false → x.negative = y.negative) := by
  cases x with
  | mk xn xm _ =>
  cases y with
  | mk yn ym _ =>
  simp only [forgetZeroSign, isZero]
  rcases Nat.eq_zero_or_pos xm with rfl | hx
  · rcases Nat.eq_zero_or_pos ym with rfl | hy
    · simp
    · simp [hy.ne', hy.ne]
  · rcases Nat.eq_zero_or_pos ym with rfl | hy
    · simp [hx.ne']
    · simp [hx.ne', hy.ne', and_comm]

/-- The sign is all that the bits leave out. -/
theorem abs_value (x : Binary64) : |x.value| = valueOfBits x.magnitude := by
  have hdist := abs_value_sub x x.negative (Rat.le_refl (a := 0))
  simpa [abs_of_nonneg (valueOfBits_nonneg _)] using hdist

/-- Zero is nearer than infinity to all values below half of it. -/
theorem IsNearest.finite {x : Binary64} {v : ℚ} (h : x.IsNearest v) (hv : |v| < 2 ^ (1023 : ℤ)) :
    x.magnitude ≠ infinityBits := by
  intro hinfinite
  let zero : Binary64 := ⟨false, 0, Nat.zero_le _⟩
  have hzero : |x.value - v| ≤ |v| := by
    have hnearest := h.nearest zero
    rwa [value_eq_zero (x := zero) valueOfBits_zero, zero_sub, abs_neg] at hnearest
  have hfar := abs_sub_abs_le_abs_sub x.value v
  have hdouble : (2 : ℚ) ^ (1024 : ℤ) = 2 * 2 ^ (1023 : ℤ) := zpow_one_add₀ two_ne_zero 1023
  rw [abs_value, hinfinite, valueOfBits_infinity, hdouble] at hfar
  linarith

end Binary64

end CssLex
