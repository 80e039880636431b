import CrossEdition.Proofs.Decimal.Printing

/-!
# Whole numbers

A whole number below `2 ^ 53` is known by what comparing sees of it, and its text is that of
the integer. A minus sign in front of a numeral without a sign negates its value.

Results:
* `Double.eq_ofInt_of_scaled`: a number that compares like a whole one is that one.
* `Double.exists_eq_ofInt`: the positive whole numbers below `2 ^ 53`.
* `Double.text_ofInt`: the text of a whole number.
* `Numeral.value?_minus`, `Numeral.value?_ofInt`: numerals with a minus sign.
-/

namespace CrossEdition

namespace Double

variable {n : Int} {x : Double}

theorem finite_congr {negative negative' : Bool} {units units' : Nat} {h : Representable units}
    {h' : Representable units'} (hs : negative = negative') (hu : units = units') :
    finite negative units h = finite negative' units' h' := by
  subst hs hu
  rfl

theorem scaled?_infinite (negative : Bool) :
    (infinite negative).scaled? = some (if negative then -(overflow : Int) else overflow) :=
  rfl

/-- Comparing two numbers is comparing them in units. -/
theorem compare?_of_scaled {y : Double} {a b : Int} (hx : x.scaled? = some a)
    (hy : y.scaled? = some b) : x.compare? y = some (compare a b) := by
  rw [compare?, hx, hy]
  rfl

theorem lt_iff_of_scaled {y : Double} {a b : Int} (hx : x.scaled? = some a)
    (hy : y.scaled? = some b) : x.lt y = true ↔ a < b := by
  rw [lt, compare?_of_scaled hx hy, decide_eq_true_iff, Option.some.injEq, compare_lt_iff_lt]

theorem le_iff_of_scaled {y : Double} {a b : Int} (hx : x.scaled? = some a)
    (hy : y.scaled? = some b) : x.le y = true ↔ a ≤ b := by
  rw [le, compare?_of_scaled hx hy, Bool.or_eq_true, decide_eq_true_iff, decide_eq_true_iff,
    Option.some.injEq, Option.some.injEq, compare_lt_iff_lt, Std.LawfulEqCmp.compare_eq_iff_eq,
    Int.le_iff_lt_or_eq]

theorem scaled?_ofInt (h : n.natAbs ≤ 2 ^ 53) :
    (ofInt n).scaled? = some (n * (unitsPerOne : Int)) := by
  rw [ofInt_eq h]
  simp only [scaled?, decide_eq_true_eq, Option.some.injEq]
  generalize unitsPerOne = u
  split_ifs with hn
  · rw [Nat.cast_mul, Int.ofNat_natAbs_of_nonpos (Int.le_of_lt hn), Int.neg_mul, Int.neg_neg]
  · rw [Nat.cast_mul, Int.natAbs_of_nonneg (Int.not_lt.1 hn)]

/-- A number other than zero that compares like a whole one is that one. -/
theorem eq_ofInt_of_scaled (h : x.scaled? = some (n * (unitsPerOne : Int))) (hn : n ≠ 0)
    (hlt : n.natAbs ≤ 2 ^ 53) : x = ofInt n := by
  have hu := unitsPerOne_pos
  have habs : ∀ {negative : Bool} {m : Nat},
      (if negative then -(m : Int) else m) = n * (unitsPerOne : Int) →
        m = n.natAbs * unitsPerOne ∧ negative = decide (n < 0) := by
    intro negative m he
    have hm : m = n.natAbs * unitsPerOne := by
      rw [← Int.natAbs_natCast unitsPerOne, ← Int.natAbs_mul, ← he]
      cases negative <;> simp
    have hpos : 0 < n.natAbs * unitsPerOne := Nat.mul_pos (Int.natAbs_pos.2 hn) hu
    have hsign : n < 0 ↔ n * (unitsPerOne : Int) < 0 := by
      rw [← Int.mul_lt_mul_right (Int.natCast_pos.2 hu), Int.zero_mul]
    refine ⟨hm, ?_⟩
    rw [← hm] at hpos
    rw [Bool.eq_iff_iff, decide_eq_true_iff, hsign, ← he]
    cases negative
    · simp
    · simpa using hpos
  rw [ofInt_eq hlt]
  cases x with
  | nan => exact absurd (Option.isSome_of_eq_some h) Bool.false_ne_true
  | infinite negative =>
    rw [scaled?_infinite, Option.some.injEq] at h
    exact ((whole_lt_overflow hlt).ne (habs h).1.symm).elim
  | finite negative units hr =>
    simp only [scaled?, Option.some.injEq] at h
    obtain ⟨hm, hs⟩ := habs h
    exact finite_congr hs hm

theorem abs_ofInt (h : n.natAbs ≤ 2 ^ 53) : (ofInt n).abs = ofInt n.natAbs := by
  rw [ofInt_eq h, ofInt_eq (n := (n.natAbs : Int)) (by rwa [Int.natAbs_natCast])]
  have hn : decide ((n.natAbs : Int) < 0) = false := decide_eq_false (by omega)
  simp only [abs, hn, Int.natAbs_natCast]

theorem neg_ofInt (h : n.natAbs ≤ 2 ^ 53) (hn : n ≠ 0) : (ofInt n).neg = ofInt (-n) := by
  rw [ofInt_eq h, ofInt_eq (n := -n) (by simpa using h)]
  have hs : (!decide (n < 0)) = decide (-n < 0) := by
    rw [Bool.eq_iff_iff, Bool.not_eq_true', decide_eq_false_iff_not, decide_eq_true_iff]
    omega
  simp only [neg, hs, Int.natAbs_neg]

/-- Whole numbers compare with zero like the integers. -/
theorem compare?_ofInt_zero (h : n.natAbs ≤ 2 ^ 53) :
    (ofInt n).compare? (zero false) = some (compare n 0) := by
  have hu : (0 : Int) < (unitsPerOne : Int) := Int.natCast_pos.2 unitsPerOne_pos
  have hz : (zero false).scaled? = some 0 := rfl
  rw [compare?_of_scaled (scaled?_ofInt h) hz]
  generalize (unitsPerOne : Int) = u at hu
  congr 1
  rcases Int.lt_trichotomy n 0 with hn | rfl | hn
  · rw [compare_lt_iff_lt.2 hn, compare_lt_iff_lt.2 (Int.mul_neg_of_neg_of_pos hn hu)]
  · rw [Int.zero_mul]
  · rw [compare_gt_iff_gt.2 hn, compare_gt_iff_gt.2 (Int.mul_pos hn hu)]

theorem smallInt?_ofInt (h : n.natAbs < 2 ^ 53) : (ofInt n).smallInt? = some n := by
  have hu := unitsPerOne_pos
  rw [ofInt_eq (Nat.le_of_lt h)]
  simp only [smallInt?]
  generalize unitsPerOne = u at hu
  rw [Nat.mul_div_cancel _ hu, Nat.mul_mod_left, if_pos ⟨rfl, h⟩]
  simp only [decide_eq_true_eq, Option.some.injEq]
  split_ifs with hn
  · rw [Int.ofNat_natAbs_of_nonpos (Int.le_of_lt hn), Int.neg_neg]
  · rw [Int.natAbs_of_nonneg (Int.not_lt.1 hn)]

theorem text_of_smallInt? (h : x.smallInt? = some n) : x.text = .ofInt n := by
  unfold text
  rw [h]

/-- The text of a whole number is that of the integer. -/
theorem text_ofInt (h : n.natAbs < 2 ^ 53) : (ofInt n).text = .ofInt n :=
  text_of_smallInt? (smallInt?_ofInt h)

/-- A whole number from one on and below `2 ^ 53` is one of the positive integers there. -/
theorem exists_eq_ofInt (hw : x.isWhole = true) (hone : (ofInt 1).le x = true)
    (hlt : x.lt (ofInt (2 ^ 53)) = true) : ∃ k : Nat, 0 < k ∧ k < 2 ^ 53 ∧ x = ofInt k := by
  have h₁ : (ofInt 1).scaled? = some (1 * (unitsPerOne : Int)) := scaled?_ofInt (by decide)
  have h₂ : (ofInt (2 ^ 53)).scaled? = some (2 ^ 53 * (unitsPerOne : Int)) :=
    scaled?_ofInt (by decide)
  cases x with
  | nan => exact absurd hw Bool.false_ne_true
  | infinite => exact absurd hw Bool.false_ne_true
  | finite negative units hr =>
    simp only [isWhole, decide_eq_true_eq] at hw
    obtain ⟨j, hj⟩ : (unitsPerOne : Int) ∣ if negative then -(units : Int) else units := by
      have hd := Int.natCast_dvd_natCast.2 (Nat.dvd_of_mod_eq_zero hw)
      cases negative with
      | false => exact hd
      | true => exact Int.dvd_neg.2 hd
    have hx : (finite negative units hr).scaled? = some (j * (unitsPerOne : Int)) := by
      rw [Int.mul_comm, ← hj]
      rfl
    have hu : 0 < (unitsPerOne : Int) := Int.natCast_pos.2 unitsPerOne_pos
    have hj₁ := Int.le_of_mul_le_mul_right ((le_iff_of_scaled h₁ hx).1 hone) hu
    have hj₂ := Int.lt_of_mul_lt_mul_right ((lt_iff_of_scaled hx h₂).1 hlt) (Int.le_of_lt hu)
    obtain ⟨k, rfl⟩ := Int.eq_ofNat_of_zero_le (Int.le_trans (by decide) hj₁)
    exact ⟨k, by omega, by omega, eq_ofInt_of_scaled hx (by omega) (by omega)⟩

theorem isWhole_ofInt (h : n.natAbs ≤ 2 ^ 53) : (ofInt n).isWhole = true := by
  rw [ofInt_eq h]
  simp only [isWhole, decide_eq_true_eq]
  generalize unitsPerOne = u
  exact Nat.mul_mod_left ..

theorem one_le_ofInt {k : Nat} (hk : 0 < k) (hlt : k ≤ 2 ^ 53) : (ofInt 1).le (ofInt k) = true := by
  rw [le_iff_of_scaled (scaled?_ofInt (by decide)) (scaled?_ofInt (by rwa [Int.natAbs_natCast]))]
  exact Int.mul_le_mul_of_nonneg_right (by omega) (Int.natCast_nonneg _)

/-! ## Signs -/

/-- A number from one on is positive. -/
theorem exists_scaled_of_one_le (h : (ofInt 1).le x = true) : ∃ a, x.scaled? = some a ∧ 0 < a := by
  have h₁ : (ofInt 1).scaled? = some (1 * (unitsPerOne : Int)) := scaled?_ofInt (by decide)
  have hu : 0 < (unitsPerOne : Int) := Int.natCast_pos.2 unitsPerOne_pos
  cases hx : x.scaled? with
  | none =>
    rw [le, compare?, h₁, hx] at h
    exact absurd h Bool.false_ne_true
  | some a =>
    have ha := (le_iff_of_scaled h₁ hx).1 h
    exact ⟨a, rfl, by omega⟩

/-- An infinite number is not zero. -/
theorem compare?_infinite_zero (negative : Bool) :
    (infinite negative).compare? (zero false) ≠ some .eq := by
  have hz : (zero false).scaled? = some 0 := rfl
  have ho : (overflow : Int) ≠ 0 := Int.natCast_ne_zero.2 overflow_pos.ne'
  rw [compare?_of_scaled (x := infinite negative) rfl hz]
  generalize (overflow : Int) = o at ho
  cases negative <;> simp [ho]

/-- The text of a finite number is a numeral. -/
theorem isNumeral_text_finite {negative : Bool} {units : Nat} (h : Representable units) :
    Numeral.isNumeral (finite negative units h).text = true := by
  unfold text
  split
  · exact Numeral.isNumeral_ofInt _
  · next hn => exact absurd hn (by simp)
  · next hn => exact absurd hn (by simp)
  · split_ifs
    · exact Numeral.isNumeral_layout (.inr (.inl rfl)) _
    · exact Numeral.isNumeral_layout (.inl rfl) _

theorem scaled?_neg (x : Double) : x.neg.scaled? = x.scaled?.map (-·) := by
  cases x with
  | nan => rfl
  | infinite negative =>
    rw [neg, scaled?_infinite, scaled?_infinite]
    generalize (overflow : Int) = o
    cases negative <;> simp
  | finite negative units h => cases negative <;> simp [neg, scaled?]

theorem ofRatio_not (negative : Bool) (n d : Nat) :
    ofRatio (!negative) n d = (ofRatio negative n d).neg := by
  unfold ofRatio
  split_ifs <;> rfl

end Double

/-- The sign of a decimal number is that of its double. -/
theorem Decimal.toDouble_not (negative : Bool) (c : Nat) (e : Int) :
    toDouble ⟨!negative, c, e⟩ = (toDouble ⟨negative, c, e⟩).neg := by
  simp only [toDouble, Double.ofRatio_not]
  split_ifs <;> rfl

theorem Decimal.scaled?_toDouble_nonneg (c : Nat) (e : Int) :
    ∃ a, (toDouble ⟨false, c, e⟩).scaled? = some a ∧ 0 ≤ a := by
  have hratio : ∀ n d, ∃ a, (Double.ofRatio false n d).scaled? = some a ∧ 0 ≤ a := by
    intro n d
    unfold Double.ofRatio
    split_ifs
    · exact ⟨_, rfl, Int.natCast_nonneg _⟩
    · exact ⟨_, rfl, Int.natCast_nonneg _⟩
  unfold toDouble
  split_ifs
  · exact ⟨0, rfl, Int.le_refl 0⟩
  · exact ⟨_, rfl, Int.natCast_nonneg _⟩
  · exact ⟨0, rfl, Int.le_refl 0⟩
  · exact hratio ..
  · exact hratio ..

namespace Numeral

variable {t : Text}

/-- A numeral begins with its sign. -/
theorem Spelling.Valid.head_text_iff {s : Spelling} (h : s.Valid) {c : Char}
    (hc : c = '-' ∨ c = '+') : s.text.head? = some c ↔ s.sign = [c] := by
  rcases h.sign with hs | hs | hs
  · have hbody : ∀ d ∈ s.text.head?, d ≠ '-' ∧ d ≠ '+' := by
      rw [text, hs, List.nil_append]
      exact fun d hd => ne_sign_of_body (h.head_body d hd)
    refine iff_of_false (fun hd => ?_) (by simp [hs])
    obtain ⟨h₁, h₂⟩ := hbody c hd
    exact hc.elim h₁ h₂
  all_goals simp [text, hs, eq_comm]

/-- A minus sign in front of a numeral without a sign negates its value. -/
theorem value?_minus (h : isNumeral t = true) (hs : t.head? ≠ some '-' ∧ t.head? ≠ some '+') :
    isNumeral ('-' :: t) = true ∧ value? ('-' :: t) = (value? t).map Double.neg := by
  obtain ⟨s, hv, rfl⟩ := isNumeral_iff_spelling.1 h
  rw [ne_eq, ne_eq, hv.head_text_iff (.inl rfl), hv.head_text_iff (.inr rfl)] at hs
  have hsign : s.sign = [] := (hv.sign.resolve_right fun hm => hm.elim hs.1 hs.2)
  have hn : Spelling.Valid ⟨['-'], s.whole, s.part⟩ := ⟨.inr (.inl rfl), hv.digits, hv.ne_nil⟩
  have ht : '-' :: s.text = Spelling.text ⟨['-'], s.whole, s.part⟩ := by
    rw [Spelling.text, Spelling.text, hsign]
    rfl
  refine ⟨isNumeral_iff_spelling.2 ⟨_, hn, ht⟩, ?_⟩
  rw [ht, hn.value?_text, hv.value?_text, Option.map_some, Spelling.decimal, Spelling.decimal,
    hsign, ← Decimal.toDouble_not]
  rfl

/-- Two signs in a row are no numeral. -/
theorem not_isNumeral_minus_plus (t : Text) : isNumeral ('-' :: '+' :: t) = false := by
  by_contra hn
  rw [Bool.not_eq_false] at hn
  obtain ⟨s, hv, hs⟩ := isNumeral_iff_spelling.1 hn
  have hsign := (hv.head_text_iff (.inl rfl)).1 (hs ▸ rfl)
  rw [Spelling.text, hsign, List.singleton_append, List.cons.injEq] at hs
  exact (Spelling.ne_sign_of_body (hv.head_body '+' (hs.2 ▸ rfl))).2 rfl

theorem head_ofNat (n : Nat) :
    (Text.ofNat n).head? ≠ some '-' ∧ (Text.ofNat n).head? ≠ some '+' := by
  constructor <;>
    exact fun h => absurd (Text.isDigit_of_mem_ofNat (List.mem_of_mem_head? h)) (by decide)

/-- The text of an integer has its value. -/
theorem value?_ofInt {n : Int} (h : n.natAbs ≤ 2 ^ 53) :
    value? (Text.ofInt n) = some (.ofInt n) := by
  have hnum : isNumeral (Text.ofNat n.natAbs) = true := by
    have hi := isNumeral_ofInt (n.natAbs : Int)
    rwa [Text.ofInt, if_neg (by omega), Int.natAbs_natCast] at hi
  unfold Text.ofInt
  split_ifs with hn
  · rw [(value?_minus hnum (head_ofNat _)).2, value?_ofNat, Option.map_some,
      Double.neg_ofInt (by rwa [Int.natAbs_natCast]) (by omega),
      Int.ofNat_natAbs_of_nonpos (Int.le_of_lt hn), Int.neg_neg]
  · rw [value?_ofNat, Int.natAbs_of_nonneg (Int.not_lt.1 hn)]

/-- Of the values of numerals the infinite ones are those whose magnitude is no numeral in
    writing. -/
theorem eq_infinite_of_value? {n : Double} (h : value? t = some n)
    (hn : isNumeral n.abs.text = false) : ∃ negative, n = .infinite negative := by
  obtain ⟨d, -, rfl⟩ := Option.map_eq_some_iff.1 h
  cases hd : d.toDouble with
  | nan => exact absurd hd (Decimal.toDouble_ne_nan d)
  | infinite negative => exact ⟨negative, rfl⟩
  | finite negative units hr =>
    rw [hd, Double.abs, Double.isNumeral_text_finite] at hn
    exact Bool.noConfusion hn

theorem value?_trim (t : Text) : value? (Text.trim t) = value? t := by
  rw [value?, value?, Text.trim_trim]

/-- The spelling of a number with a positive value has no minus sign, and normalizing does not
    change its sign. -/
theorem exists_positive {a : Int} (h : scaled? t = some a) (ha : 0 < a) :
    ∃ s : Spelling, s.Valid ∧ Text.trim t = s.text ∧ normalize t = s.normal.text ∧
      s.sign ≠ ['-'] ∧ s.normal.sign = s.sign := by
  obtain ⟨x, hx, hxa⟩ := Option.bind_eq_some_iff.1 h
  obtain ⟨s, hv, ht, hn⟩ := exists_normal (isNumeral_trim hx)
  have hscaled : s.decimal.toDouble.scaled? = some a := by
    rw [← value?_trim, ht, hv.value?_text] at hx
    rwa [Option.some.inj hx]
  refine ⟨s, hv, ht, hn, fun hs => ?_, ?_⟩
  · -- a number with a minus sign is at most zero
    obtain ⟨b, hb, hle⟩ := Decimal.scaled?_toDouble_nonneg (natOfDigits s.digits)
      (-((s.part.getD []).length : Int))
    have hneg : s.decimal = ⟨!false, natOfDigits s.digits, -((s.part.getD []).length : Int)⟩ := by
      rw [Spelling.decimal, hs]
      rfl
    rw [hneg, Decimal.toDouble_not, Double.scaled?_neg, hb, Option.map_some,
      Option.some.injEq] at hscaled
    omega
  · cases hp : s.part with
    | none => rw [Spelling.normal_of_none hp]
    | some part =>
      rw [Spelling.normal_of_some hp]
      split_ifs with hq hw
      · rfl
      · -- without other digits the number is zero
        have hz := Spelling.scaled_decimal_normal s
        rw [Spelling.normal_of_some hp, if_neg hq, if_pos hw, hscaled] at hz
        exact absurd (Option.some.inj ((Decimal.scaled?_toDouble_zero false 0).symm.trans hz))
          (Int.ne_of_lt ha)
      · rfl

/-- Normalizing a positive number does not change its sign. -/
theorem head_normalize {a : Int} (h : scaled? t = some a) (ha : 0 < a) :
    (normalize t).head? ≠ some '-' ∧
      ((normalize t).head? = some '+' ↔ (Text.trim t).head? = some '+') := by
  obtain ⟨s, hv, ht, hn, hminus, hsign⟩ := exists_positive h ha
  have hv' := Spelling.valid_normal hv
  rw [ht, hn, ne_eq, hv'.head_text_iff (.inl rfl), hv'.head_text_iff (.inr rfl),
    hv.head_text_iff (.inr rfl), hsign]
  exact ⟨hminus, Iff.rfl⟩

end Numeral

end CrossEdition
