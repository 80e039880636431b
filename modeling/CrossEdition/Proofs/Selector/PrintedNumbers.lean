import CrossEdition.Proofs.Decimal.WholeNumbers
import CrossEdition.Proofs.Selector.Intervals
import Mathlib.Algebra.Field.Rat
import Mathlib.Tactic.FieldSimp

/-!
# Printed numbers and ranges

A numeral denotes a rational number, and its normalized spelling denotes the same one exactly, not
only one that is rounded to the same double. A range that is printed is read again with ends on the
same sides and of the same values, be it as a range or as the one number that both its ends are.

Results:
* `toRat_decimal_normal`: normalizing a numeral keeps its number.
* `endsShort_normal`: no zero ends its fraction, and no point ends it.
* `same_of_scaled`: doubles that compare as equal differ in the sign of a zero at most.
* `numbers_reread`: numerals and ranges survive printing.
-/

namespace CrossEdition

/-! ## The number of a numeral -/

namespace Decimal

/-- The rational number that a decimal number is. -/
def toRat (d : Decimal) : ℚ :=
  (if d.negative then -1 else 1) * (d.coefficient * 10 ^ d.exponent)

/-- Zeros at the end of a fraction do not count. -/
theorem toRat_trailing (negative : Bool) (c k j : Nat) :
    toRat ⟨negative, c * 10 ^ j, -(k + j : Nat)⟩ = toRat ⟨negative, c, -k⟩ := by
  have h : ((c * 10 ^ j : Nat) : ℚ) * 10 ^ (-((k + j : Nat) : Int)) =
      c * 10 ^ (-(k : Int)) := by
    rw [Nat.cast_mul, zpow_neg, zpow_neg, zpow_natCast, zpow_natCast, pow_add]
    push_cast
    field_simp
  simp only [toRat, h]

theorem toRat_zero (negative : Bool) (k : Int) : toRat ⟨negative, 0, k⟩ = 0 := by
  simp [toRat]

end Decimal

namespace Numeral

/-- The rational number that a numeral denotes. -/
def toRat? (t : Text) : Option ℚ :=
  (decimal? t).map Decimal.toRat

/-- Whether a text with a point ends neither in the point nor in a zero. -/
def EndsShort (t : Text) : Prop :=
  '.' ∈ t → ∀ c ∈ t.getLast?, c ≠ '0' ∧ c ≠ '.'

namespace Spelling

/-- Normalizing keeps the number of a numeral. -/
theorem toRat_decimal_normal (s : Spelling) : s.normal.decimal.toRat = s.decimal.toRat := by
  cases hp : s.part with
  | none => rw [normal_of_none hp]
  | some part =>
    obtain ⟨k, hd⟩ := s.exists_decimal_eq hp
    rw [hd, Decimal.toRat_trailing, normal_of_some hp]
    generalize Text.dropEndWhile (· = '0') part = q
    split_ifs with hq hw
    · rfl
    · -- all digits were zeros
      simp only [ne_eq, not_not] at hq
      rw [hq, hw]
      exact (Decimal.toRat_zero _ 0).trans (Decimal.toRat_zero _ _).symm
    · simp only [ne_eq, not_not] at hq
      rw [hq, List.append_nil]
      simp [decimal, digits]

theorem endsShort_of_none {s : Spelling} (h : s.Valid) (hp : s.part = none) :
    EndsShort s.text := by
  rw [text, hp, Option.map_none, Option.getD_none, List.append_nil]
  exact fun hm => absurd hm h.point_notMem

/-- What normalizing leaves behind the point ends in a digit other than zero. -/
theorem endsShort_normal {s : Spelling} (h : s.Valid) : EndsShort s.normal.text := by
  have hv := valid_normal h
  cases hp : s.part with
  | none => exact endsShort_of_none hv (by rw [normal_of_none hp, hp])
  | some part =>
    have hn := normal_of_some hp
    split_ifs at hn with hq hw
    · rw [hn] at hv ⊢
      intro _ c hc
      simp only [text, Option.map_some, Option.getD_some] at hc
      rw [List.getLast?_append_of_ne_nil _ (by simp), List.getLast?_append_of_ne_nil _ (by simp),
        List.getLast?_cons_of_ne_nil hq] at hc
      have hzero := Text.last_dropEndWhile (· = '0') part c hc
      refine ⟨of_decide_eq_false hzero, ?_⟩
      rintro rfl
      exact notMem_of_digits (hv.part rfl) (List.mem_of_getLast? hc)
    · rw [hn]
      exact fun hm => absurd hm (by decide)
    · exact endsShort_of_none hv (by rw [hn])

end Spelling

theorem Spelling.Valid.toRat?_text {s : Spelling} (h : s.Valid) :
    toRat? s.text = some s.decimal.toRat := by
  rw [toRat?, h.decimal?_text, Option.map_some]

end Numeral

/-! ## The ends of a range -/

namespace Double

/-- Whether two doubles are the same number, where the two zeros are one. -/
def Same (x y : Double) : Prop :=
  x = y ∨ (x.scaled? = some 0 ∧ y.scaled? = some 0)

theorem lt_overflow {units : Nat} (h : Representable units) : units < overflow := by
  obtain ⟨mantissa, shift, hm, hs, rfl⟩ := h
  have hle : 53 + shift ≤ 2098 := by omega
  calc mantissa * 2 ^ shift < 2 ^ 53 * 2 ^ shift :=
        Nat.mul_lt_mul_of_pos_right hm (Nat.two_pow_pos shift)
    _ = 2 ^ (53 + shift) := (Nat.pow_add 2 53 shift).symm
    _ ≤ overflow := by
        unfold overflow
        gcongr
        decide

/-- Doubles that compare as equal are the same number. -/
theorem same_of_scaled {x y : Double} {n : Int} (hx : x.scaled? = some n)
    (hy : y.scaled? = some n) : x.Same y := by
  have ho := overflow_pos
  rcases eq_or_ne n 0 with rfl | hn
  · exact .inr ⟨hx, hy⟩
  refine .inl ?_
  cases x with
  | nan => simp [scaled?] at hx
  | infinite a =>
    cases y with
    | nan => simp [scaled?] at hy
    | infinite b =>
      rw [scaled?_infinite, Option.some.injEq] at hx hy
      generalize overflow = o at *
      cases a <;> cases b <;> simp_all <;> omega
    | finite b m hm =>
      have := lt_overflow hm
      rw [scaled?_infinite, Option.some.injEq] at hx
      simp only [scaled?, Option.some.injEq] at hy
      generalize overflow = o at *
      split_ifs at hx hy <;> omega
  | finite a m hm =>
    have := lt_overflow hm
    simp only [scaled?, Option.some.injEq] at hx
    cases y with
    | nan => simp [scaled?] at hy
    | infinite b =>
      rw [scaled?_infinite, Option.some.injEq] at hy
      generalize overflow = o at *
      split_ifs at hx hy <;> omega
    | finite b k hk =>
      simp only [scaled?, Option.some.injEq] at hy
      refine finite_congr ?_ ?_
      · cases a <;> cases b <;> simp_all <;> omega
      · split_ifs at hx hy <;> omega

end Double

namespace Bounds

/-- Ends of the same value in units are absent together, or are the same number. -/
theorem sameNumbers_of_scaled {o o' : Option Text}
    (ho : ∀ t ∈ o, Numeral.isNumeral t = true) (ho' : ∀ t ∈ o', Numeral.isNumeral t = true)
    (h : o.bind Numeral.scaled? = o'.bind Numeral.scaled?) :
    o.isSome = o'.isSome ∧
      Option.Rel Double.Same (o.bind Numeral.value?) (o'.bind Numeral.value?) := by
  cases o with
  | none =>
    obtain rfl : o' = none := (bind_eq_none ho').1.1 h.symm
    exact ⟨rfl, .none⟩
  | some a =>
    cases o' with
    | none => exact absurd ((bind_eq_none ho).1.1 h) (Option.some_ne_none a)
    | some b =>
      have ha := ho a rfl
      obtain ⟨n, hn⟩ := Numeral.exists_scaled ((Numeral.trim_of_isNumeral ha).symm ▸ ha)
      obtain ⟨x, hx, hxn⟩ := Option.bind_eq_some_iff.1 hn
      have hn' : Numeral.scaled? b = some n := h.symm.trans hn
      obtain ⟨y, hy, hyn⟩ := Option.bind_eq_some_iff.1 hn'
      refine ⟨rfl, ?_⟩
      rw [Option.bind_some, Option.bind_some, hx, hy]
      exact .some (Double.same_of_scaled hxn hyn)

end Bounds

/-! ## Printing and reading again -/

namespace Value

/-- Numbers and ranges survive printing. A normalized numeral is a numeral for exactly the same
    number, without needless zeros and points, and normalizing it again changes nothing. The text
    of a range is read as a number or a range with ends on the same sides and of the same
    values. -/
theorem numbers_reread :
    (∀ t, Numeral.isNumeral t = true →
      (∃ q, Numeral.toRat? t = some q ∧ Numeral.toRat? (Numeral.normalize t) = some q) ∧
        Numeral.isNumeral (Numeral.normalize t) = true ∧
        Numeral.EndsShort (Numeral.normalize t) ∧
        Numeral.normalize (Numeral.normalize t) = Numeral.normalize t) ∧
    ∀ t b, Bounds.ofText? t = some b → ∃ r, (read b.text).bounds? = some r ∧
      (r.min.isSome = b.min.isSome ∧ Option.Rel Double.Same r.minValue? b.minValue?) ∧
      (r.max.isSome = b.max.isSome ∧ Option.Rel Double.Same r.maxValue? b.maxValue?) := by
  constructor
  · intro t ht
    obtain ⟨s, hs, rfl⟩ := Numeral.isNumeral_iff_spelling.1 ht
    have hn := hs.normalize_text
    refine ⟨⟨_, hs.toRat?_text, ?_⟩, Numeral.normalize_isNumeral ht, ?_,
      Numeral.normalize_normalize _⟩
    · rw [hn, (Numeral.Spelling.valid_normal hs).toRat?_text,
        Numeral.Spelling.toRat_decimal_normal]
    · rw [hn]
      exact Numeral.Spelling.endsShort_normal hs
  · intro t b hb
    have hf : (range b).Faithful := Bounds.numeric_of_ofText? hb
    have hi : (range b).reread.interval? = some b.interval :=
      hf.interval?_reread_range (Bounds.ofText?_hasBound hb)
    obtain ⟨r, hr, hrb⟩ := Option.map_eq_some_iff.1 hi
    have hnr : r.Numeric := (faithful_reread (range b)).numeric hr
    have hnb : b.Numeric := hf
    exact ⟨r, hr,
      Bounds.sameNumbers_of_scaled (fun t ht => hnr t (.inl ht)) (fun t ht => hnb t (.inl ht))
        (congrArg Interval.lower hrb),
      Bounds.sameNumbers_of_scaled (fun t ht => hnr t (.inr ht)) (fun t ht => hnb t (.inr ht))
        (congrArg Interval.upper hrb)⟩

/-- Zeros on both sides of a point, and points in a row of which only two separate the ends. -/
theorem numbers_reread_beside_points :
    let t : Text := "-007.500"
    let b : Bounds := ⟨some ".50", some ".70"⟩
    (Numeral.isNumeral t = true ∧
      ∃ q, Numeral.toRat? t = some q ∧ Numeral.toRat? "-007.5" = some q) ∧
    Bounds.ofText? ".50...70" = some b ∧ b.text = ".5...7" ∧
      ∃ r, (read ".5...7").bounds? = some r ∧
        Option.Rel Double.Same r.minValue? b.minValue? ∧
        Option.Rel Double.Same r.maxValue? b.maxValue? := by
  intro t b
  have ht : Numeral.isNumeral t = true := by decide
  have hn : Numeral.normalize t = "-007.5" := by decide
  have hb : Bounds.ofText? ".50...70" = some b := by decide
  have hbt : b.text = ".5...7" := by decide +kernel
  have hnumber := (numbers_reread.1 t ht).1
  obtain ⟨r, hr, ⟨-, hlo⟩, -, hhi⟩ := numbers_reread.2 _ b hb
  rw [hn] at hnumber
  rw [hbt] at hr
  exact ⟨⟨ht, hnumber⟩, hb, hbt, r, hr, hlo, hhi⟩

end Value

end CrossEdition
