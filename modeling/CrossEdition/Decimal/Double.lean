import CrossEdition.Text.Basic

/-!
# Doubles

Numbers of double precision, held exactly: a finite number is a sign and a whole
number of *units*, each `2 ^ -1074`. Every operation computes its exact result and
rounds it once, to the nearest number that has at most 53 significant bits, a half
to the even neighbour.

Results:
* `roundUnits_eq`: what rounding gives has at most 53 significant bits, so `ofRatio`
  builds doubles only.
* `roundHalfEven_mul`: a whole number is not changed by rounding.
-/

namespace CrossEdition

/-- A power of natural numbers is the one that is computed, also beside powers in general. -/
@[default_instance 100000]
instance (priority := high) natPow : Pow Nat Nat :=
  @instPowNat Nat instNatPowNat

/-- The number of units in one. -/
def unitsPerOne : Nat := 2 ^ 1074

/-- The least number of units that is too large for a finite double. -/
def overflow : Nat := 2 ^ 2098

/-- Whether a number of units is the magnitude of a double: at most 53 bits, shifted
    by at most 2045 places. -/
def Representable (units : Nat) : Prop :=
  ∃ mantissa shift, mantissa < 2 ^ 53 ∧ shift ≤ 2045 ∧ units = mantissa * 2 ^ shift

/-- A number of double precision. -/
inductive Double where
  | nan
  | infinite (negative : Bool)
  | finite (negative : Bool) (units : Nat) (representable : Representable units)
deriving DecidableEq

/-! ## Rounding -/

/-- `numerator / denominator` rounded to the nearest whole number, a half to the
    even neighbour. -/
def roundHalfEven (numerator denominator : Nat) : Nat :=
  let quotient := numerator / denominator
  let twice := 2 * (numerator % denominator)
  if twice < denominator then quotient
  else if denominator < twice then quotient + 1
  else quotient + quotient % 2

/-- `numerator / denominator` rounded to the nearest number with at most 53
    significant bits. -/
def roundUnits (numerator denominator : Nat) : Nat :=
  let shift := Nat.log2 (numerator / denominator) - 52
  roundHalfEven numerator (denominator * 2 ^ shift) * 2 ^ shift

theorem roundHalfEven_le (numerator denominator : Nat) :
    roundHalfEven numerator denominator ≤ numerator / denominator + 1 := by
  have := Nat.mod_lt (numerator / denominator) (show 0 < 2 by decide)
  simp only [roundHalfEven]
  split
  · omega
  · split <;> omega

theorem roundHalfEven_mul (n : Nat) {denominator : Nat} (h : 0 < denominator) :
    roundHalfEven (n * denominator) denominator = n := by
  simp [roundHalfEven, Nat.mul_div_cancel _ h, h]

/-- Rounding leaves at most 53 bits in front of its shift. -/
theorem roundUnits_eq (numerator denominator : Nat) :
    ∃ mantissa shift, mantissa ≤ 2 ^ 53 ∧
      roundUnits numerator denominator = mantissa * 2 ^ shift := by
  refine ⟨_, Nat.log2 (numerator / denominator) - 52, ?_, rfl⟩
  refine Nat.le_trans (roundHalfEven_le _ _) ?_
  have hlog : numerator / denominator < 2 ^ (Nat.log2 (numerator / denominator) + 1) :=
    Nat.lt_log2_self
  have hle : numerator / denominator
      < 2 ^ 53 * 2 ^ (Nat.log2 (numerator / denominator) - 52) := by
    rw [← Nat.pow_add]
    exact Nat.lt_of_lt_of_le hlog (Nat.pow_le_pow_right (by decide) (by omega))
  rw [← Nat.div_div_eq_div_mul]
  have := (Nat.div_lt_iff_lt_mul (Nat.two_pow_pos (Nat.log2 (numerator / denominator) - 52))).2 hle
  omega

/-- A number with at most 53 significant bits below `overflow` is the magnitude of a
    double. -/
theorem representable_of_lt {mantissa shift : Nat} (hm : mantissa ≤ 2 ^ 53)
    (h : mantissa * 2 ^ shift < overflow) : Representable (mantissa * 2 ^ shift) := by
  unfold overflow at h
  rcases Nat.eq_zero_or_pos mantissa with rfl | hpos
  · exact ⟨0, 0, by decide, by decide, by simp⟩
  rcases Nat.lt_or_ge shift 2046 with hs | hs
  · rcases Nat.lt_or_eq_of_le hm with hm | rfl
    · exact ⟨mantissa, shift, hm, by omega, rfl⟩
    · have hlt : 53 + shift < 2098 := by
        rw [← Nat.pow_add] at h
        exact (Nat.pow_lt_pow_iff_right (show 1 < 2 by decide)).1 h
      refine ⟨2 ^ 52, shift + 1, by decide, by omega, ?_⟩
      rw [Nat.pow_succ 2 shift]
      omega
  · have hlt : mantissa * 2 ^ (shift - 2045) < 2 ^ 53 := by
      have h' : mantissa * 2 ^ (shift - 2045) * 2 ^ 2045 < 2 ^ 53 * 2 ^ 2045 := by
        rw [Nat.mul_assoc, ← Nat.pow_add, ← Nat.pow_add, Nat.sub_add_cancel (by omega),
          show 53 + 2045 = 2098 from rfl]
        exact h
      exact Nat.lt_of_mul_lt_mul_right h'
    refine ⟨mantissa * 2 ^ (shift - 2045), 2045, hlt, by decide, ?_⟩
    rw [Nat.mul_assoc, ← Nat.pow_add, Nat.sub_add_cancel (by omega)]

theorem representable_roundUnits {numerator denominator : Nat}
    (h : roundUnits numerator denominator < overflow) :
    Representable (roundUnits numerator denominator) := by
  obtain ⟨mantissa, shift, hm, he⟩ := roundUnits_eq numerator denominator
  rw [he] at h ⊢
  exact representable_of_lt hm h

theorem representable_zero : Representable 0 :=
  ⟨0, 0, by decide, by decide, rfl⟩

namespace Double

/-- The double nearest to `± numerator / denominator` units; infinite from
    `overflow` units on. -/
def ofRatio (negative : Bool) (numerator denominator : Nat) : Double :=
  if h : roundUnits numerator denominator < overflow then
    finite negative (roundUnits numerator denominator) (representable_roundUnits h)
  else infinite negative

/-- Zero with a sign. -/
def zero (negative : Bool) : Double :=
  finite negative 0 representable_zero

/-- The double nearest to a whole number. -/
def ofInt (n : Int) : Double :=
  ofRatio (n < 0) (n.natAbs * unitsPerOne) 1

/-! ## Order -/

/-- The number in units, with the infinities beyond all finite numbers; NaN has
    none. -/
def scaled? : Double → Option Int
  | nan => none
  | infinite negative => some (if negative then -(overflow : Int) else overflow)
  | finite negative units _ => some (if negative then -units else units)

/-- How two numbers compare; NaN compares with nothing. Both zeros are equal. -/
def compare? (x y : Double) : Option Ordering := do
  let a ← x.scaled?
  let b ← y.scaled?
  some (compare a b)

/-- Whether `x < y`. -/
def lt (x y : Double) : Bool :=
  x.compare? y = some .lt

/-- Whether `x ≤ y`. -/
def le (x y : Double) : Bool :=
  x.compare? y = some .lt || x.compare? y = some .eq

/-! ## Arithmetic -/

/-- The same magnitude with the opposite sign. -/
def neg : Double → Double
  | nan => nan
  | infinite negative => infinite (!negative)
  | finite negative units h => finite (!negative) units h

/-- The magnitude. -/
def abs : Double → Double
  | nan => nan
  | infinite _ => infinite false
  | finite _ units h => finite false units h

/-- The rounded sum. Opposite infinities have none, and a zero sum is negative only
    if both terms are. -/
def add : Double → Double → Double
  | nan, _ => nan
  | _, nan => nan
  | infinite a, infinite b => if a = b then infinite a else nan
  | infinite a, finite .. => infinite a
  | finite .., infinite b => infinite b
  | finite a m _, finite b n _ =>
    let sum : Int := (if a then -(m : Int) else m) + (if b then -(n : Int) else n)
    if sum = 0 then zero (a && b) else ofRatio (sum < 0) sum.natAbs 1

/-- The rounded difference. -/
def sub (x y : Double) : Double :=
  x.add y.neg

/-- The rounded half. -/
def half : Double → Double
  | nan => nan
  | infinite negative => infinite negative
  | finite negative units _ => ofRatio negative units 2

/-! ## Whole numbers -/

/-- Whether the number is finite and whole. -/
def isWhole : Double → Bool
  | finite _ units _ => units % unitsPerOne = 0
  | _ => false

/-- `n`, or the nearer end of the range of signed 64-bit numbers if it lies outside. -/
def clampInt64 (n : Int) : Int :=
  max (-((2 ^ 63 : Nat) : Int)) (min n ((2 ^ 63 : Nat) - 1))

/-- The number without its fraction as a signed 64-bit number; the nearer end of
    their range if it lies outside, and zero for NaN. -/
def truncate : Double → Int
  | nan => 0
  | infinite negative => clampInt64 (if negative then -((2 ^ 64 : Nat) : Int) else (2 ^ 64 : Nat))
  | finite negative units _ =>
    let whole : Int := (units / unitsPerOne : Nat)
    clampInt64 (if negative then -whole else whole)

/-- The nearest whole number, a half away from zero, as a signed 64-bit number in
    the same sense. -/
def round : Double → Int
  | nan => 0
  | infinite negative => clampInt64 (if negative then -((2 ^ 64 : Nat) : Int) else (2 ^ 64 : Nat))
  | finite negative units _ =>
    let whole : Int := ((units + unitsPerOne / 2) / unitsPerOne : Nat)
    clampInt64 (if negative then -whole else whole)

/-! ## Bit patterns -/

/-- The 64 bits of the number in the interchange format: sign, eleven bits of
    exponent, 52 bits of fraction. -/
def bits : Double → Nat
  | nan => 0x7ff8000000000000
  | infinite negative => signBit negative + 0x7ff0000000000000
  | finite negative units _ =>
    let shift := Nat.log2 units - 52
    let fraction := units / 2 ^ shift
    signBit negative + if fraction < 2 ^ 52 then fraction else shift * 2 ^ 52 + fraction
where
  /-- The bit that a sign takes. -/
  signBit (negative : Bool) : Nat := if negative then 2 ^ 63 else 0

end Double

end CrossEdition
