import CrossEdition.Decimal.Literal
import Mathlib.Tactic.Common
import Mathlib.Tactic.Positivity
import Mathlib.Tactic.Ring

/-!
# Rounding decimal numbers

The double of a decimal number depends on its value only, not on how many zeros its
coefficient ends in, and doubles with at most 53 bits are not changed by rounding.

Results:
* `ofRatio_mul_mul`: a ratio may be reduced before it is rounded.
* `toDouble_eq_ofRatio`: without a positive exponent a decimal number is rounded as one
  ratio, the shortcut for tiny numbers included.
* `toDouble_trailing`: zeros at the end of a fraction do not count.
* `ofInt_eq`: whole numbers up to `2 ^ 53` are exact.
* `truncate_ofInt`: they are not changed by cutting off a fraction.
-/

namespace CrossEdition

theorem unitsPerOne_pos : 0 < unitsPerOne := by
  unfold unitsPerOne
  exact Nat.pow_pos (by decide)

theorem overflow_pos : 0 < overflow := by
  unfold overflow
  exact Nat.pow_pos (by decide)

/-! ## Ratios -/

theorem roundHalfEven_mul_mul (n d : Nat) {k : Nat} (hk : 0 < k) :
    roundHalfEven (n * k) (d * k) = roundHalfEven n d := by
  have hq : n * k / (d * k) = n / d := Nat.mul_div_mul_right n d hk
  have hr : n * k % (d * k) = n % d * k := Nat.mul_mod_mul_right k n d
  have h1 : 2 * (n % d * k) < d * k ↔ 2 * (n % d) < d := by
    rw [← Nat.mul_assoc]; exact Nat.mul_lt_mul_right hk
  have h2 : d * k < 2 * (n % d * k) ↔ d < 2 * (n % d) := by
    rw [← Nat.mul_assoc]; exact Nat.mul_lt_mul_right hk
  simp only [roundHalfEven, hq, hr, h1, h2]

theorem roundUnits_mul_mul (n d : Nat) {k : Nat} (hk : 0 < k) :
    roundUnits (n * k) (d * k) = roundUnits n d := by
  simp only [roundUnits, Nat.mul_div_mul_right n d hk]
  rw [show d * k * 2 ^ (Nat.log2 (n / d) - 52) = d * 2 ^ (Nat.log2 (n / d) - 52) * k by ring,
    roundHalfEven_mul_mul _ _ hk]

theorem Double.ofRatio_mul_mul (negative : Bool) (n d : Nat) {k : Nat} (hk : 0 < k) :
    ofRatio negative (n * k) (d * k) = ofRatio negative n d := by
  simp only [ofRatio, roundUnits_mul_mul n d hk]

/-- Less than half a unit is rounded to nothing. -/
theorem roundUnits_of_lt_half {n d : Nat} (h : 2 * n < d) : roundUnits n d = 0 := by
  have hq : n / d = 0 := Nat.div_eq_of_lt (by omega)
  have hr : n % d = n := Nat.mod_eq_of_lt (by omega)
  simp [roundUnits, roundHalfEven, hq, hr, h]

theorem Double.ofRatio_of_lt_half {negative : Bool} {n d : Nat} (h : 2 * n < d) :
    ofRatio negative n d = zero negative := by
  simp only [ofRatio, roundUnits_of_lt_half h, zero, overflow_pos, dite_true]

theorem Double.ofRatio_ne_nan (negative : Bool) (n d : Nat) : ofRatio negative n d ≠ nan := by
  unfold ofRatio
  split <;> simp

/-- A number with at most 53 bits in front of its shift is not changed by rounding. -/
theorem roundUnits_exact {mantissa shift : Nat} (h : mantissa ≤ 2 ^ 53) :
    roundUnits (mantissa * 2 ^ shift) 1 = mantissa * 2 ^ shift := by
  -- a bit can be moved to the shift of the one number that has too many
  wlog hlt : mantissa < 2 ^ 53 generalizing mantissa shift
  · obtain rfl : mantissa = 2 ^ 53 := Nat.le_antisymm h (Nat.le_of_not_lt hlt)
    have hmove : 2 ^ 53 * 2 ^ shift = 2 ^ 52 * 2 ^ (shift + 1) := by rw [Nat.pow_succ 2 shift]; ring
    rw [hmove]
    exact this (by decide) (by decide)
  rcases Nat.eq_zero_or_pos mantissa with rfl | hpos
  · simp [roundUnits, roundHalfEven]
  have hne : mantissa * 2 ^ shift ≠ 0 := by positivity
  have hlog : Nat.log2 (mantissa * 2 ^ shift) < 53 + shift := by
    rw [Nat.log2_lt hne, Nat.pow_add]
    exact Nat.mul_lt_mul_of_pos_right hlt (Nat.two_pow_pos shift)
  -- the bits that rounding cuts off are among those of the shift
  obtain ⟨r, hr⟩ : ∃ r, shift = r + (Nat.log2 (mantissa * 2 ^ shift) - 52) :=
    ⟨shift - (Nat.log2 (mantissa * 2 ^ shift) - 52), by omega⟩
  generalize hs : Nat.log2 (mantissa * 2 ^ shift) - 52 = s at hr
  have hm : mantissa * 2 ^ shift = mantissa * 2 ^ r * 2 ^ s := by rw [hr, Nat.pow_add]; ring
  rw [roundUnits, Nat.div_one, hs, Nat.one_mul, hm, roundHalfEven_mul _ (Nat.two_pow_pos s)]

theorem whole_lt_overflow {n : Nat} (h : n ≤ 2 ^ 53) : n * unitsPerOne < overflow := by
  calc n * unitsPerOne ≤ 2 ^ 53 * unitsPerOne := Nat.mul_le_mul_right _ h
    _ < overflow := by
        unfold unitsPerOne overflow
        rw [← Nat.pow_add]
        exact Nat.pow_lt_pow_right (by decide) (by decide)

/-- The representation of a whole number up to `2 ^ 53`. -/
theorem representable_whole {n : Nat} (h : n ≤ 2 ^ 53) : Representable (n * unitsPerOne) :=
  representable_of_lt h (whole_lt_overflow h)

namespace Double

theorem ofInt_eq {n : Int} (h : n.natAbs ≤ 2 ^ 53) :
    ofInt n = finite (n < 0) (n.natAbs * unitsPerOne) (representable_whole h) := by
  have hr : roundUnits (n.natAbs * unitsPerOne) 1 = n.natAbs * unitsPerOne := roundUnits_exact h
  simp only [ofInt, ofRatio, hr, whole_lt_overflow h, dite_true]

theorem truncate_ofInt {n : Nat} (h : n ≤ 2 ^ 53) : (ofInt n).truncate = n := by
  have hq : n * unitsPerOne / unitsPerOne = n := Nat.mul_div_cancel n unitsPerOne_pos
  rw [ofInt_eq (by simpa using h)]
  simp only [truncate, Int.natAbs_natCast, hq, clampInt64]
  norm_num
  omega

theorem zero_le_ofInt {n : Nat} (h : n ≤ 2 ^ 53) :
    (zero false).le (ofInt n) = true ∧ (ofInt n).lt (zero false) = false := by
  have hs : (ofInt n).scaled? = some ((n * unitsPerOne : Nat) : Int) := by
    rw [ofInt_eq (by simpa using h)]
    rfl
  have hz : (zero false).scaled? = some 0 := rfl
  have hle : (0 : Int) ≤ ((n * unitsPerOne : Nat) : Int) := Int.natCast_nonneg _
  generalize ((n * unitsPerOne : Nat) : Int) = x at hs hle
  simp only [le, lt, compare?, hs, hz, Option.bind_eq_bind, Option.bind_some]
  rcases Int.lt_or_eq_of_le hle with hlt | rfl
  · have h₁ : compare 0 x = .lt := compare_lt_iff_lt.2 hlt
    have h₂ : compare x 0 = .gt := compare_gt_iff_gt.2 hlt
    simp [h₁, h₂]
  · simp

end Double

/-! ## Decimal numbers -/

namespace Decimal

theorem two_pow_le_ten_pow (k : Nat) : 2 ^ (3 * k) ≤ 10 ^ k := by
  rw [Nat.pow_mul]
  exact Nat.pow_le_pow_left (by decide) k

/-- A number that the shortcut takes for zero is less than half a unit. -/
theorem lt_half_of_tiny {c k : Nat} (h : (c.log2 : Int) + 3 * -(k : Int) < -1080) :
    2 * (c * unitsPerOne) < 10 ^ k := by
  have hc : c < 2 ^ (c.log2 + 1) := Nat.lt_log2_self
  calc 2 * (c * unitsPerOne) < 2 * (2 ^ (c.log2 + 1) * unitsPerOne) :=
        Nat.mul_lt_mul_of_pos_left (Nat.mul_lt_mul_of_pos_right hc unitsPerOne_pos) (by decide)
    _ = 2 ^ (c.log2 + 1 + 1074 + 1) := by
        rw [Nat.pow_succ _ (c.log2 + 1 + 1074), Nat.pow_add _ (c.log2 + 1), Nat.mul_comm]
        rfl
    _ ≤ 2 ^ (3 * k) := Nat.pow_le_pow_right (by decide) (by omega)
    _ ≤ 10 ^ k := two_pow_le_ten_pow k

/-- A decimal number with `k` digits behind its point, as one ratio. -/
theorem toDouble_eq_ofRatio (negative : Bool) (c k : Nat) :
    toDouble ⟨negative, c, -k⟩ = .ofRatio negative (c * unitsPerOne) (10 ^ k) := by
  have hk : 0 < 10 ^ k := by positivity
  unfold toDouble
  split_ifs with h0 h1 h2 h3
  · simp only at h0
    rw [h0, Nat.zero_mul, Double.ofRatio_of_lt_half (by omega)]
  · simp only at h1
    omega
  · exact (Double.ofRatio_of_lt_half (lt_half_of_tiny h2)).symm
  · have : k = 0 := by simp only at h3; omega
    simp [this]
  · simp

/-- A whole number is rounded as such. -/
theorem toDouble_whole (k : Int) : toDouble ⟨k < 0, k.natAbs, 0⟩ = .ofInt k := by
  simpa [Double.ofInt] using toDouble_eq_ofRatio (k < 0) k.natAbs 0

theorem toDouble_ne_nan (d : Decimal) : d.toDouble ≠ .nan := by
  unfold toDouble
  split_ifs
  · simp [Double.zero]
  · simp
  · simp [Double.zero]
  · exact Double.ofRatio_ne_nan _ _ _
  · exact Double.ofRatio_ne_nan _ _ _

/-- Zeros at the end of a fraction do not count. -/
theorem toDouble_trailing (negative : Bool) (c k j : Nat) :
    toDouble ⟨negative, c * 10 ^ j, -(k + j : Nat)⟩ = toDouble ⟨negative, c, -k⟩ := by
  rw [toDouble_eq_ofRatio, toDouble_eq_ofRatio, Nat.pow_add,
    show c * 10 ^ j * unitsPerOne = c * unitsPerOne * 10 ^ j by ring,
    Double.ofRatio_mul_mul _ _ _ (by positivity)]

/-- A zero has no sign that comparing could see. -/
theorem scaled?_toDouble_zero (negative : Bool) (k : Nat) :
    (toDouble ⟨negative, 0, -k⟩).scaled? = some 0 := by
  simp [toDouble, Double.zero, Double.scaled?]

end Decimal

end CrossEdition
