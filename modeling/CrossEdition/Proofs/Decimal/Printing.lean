import CrossEdition.Decimal.Shortest
import CrossEdition.Proofs.Decimal.Spelling

/-!
# Printed numbers

The decimal text of a number is a numeral, as long as the number is finite.

Results:
* `natOfDigits_ofNat`: the digits of a natural number denote it.
* `isNumeral_ofInt`: the text of a whole number is a numeral.
* `value?_ofNat`: the text of a natural number has its value.
* `Double.text_cases`: the text of a double is a numeral or one of three words.
-/

namespace CrossEdition

namespace Text

theorem isDigit_of_mem_ofNat {n : Nat} {c : Char} (h : c ∈ ofNat n) : c.isDigit = true :=
  Nat.isDigit_of_mem_toDigits (by decide) (by decide) h

theorem ofNat_ne_nil (n : Nat) : ofNat n ≠ [] :=
  Nat.toDigits_ne_nil

end Text

theorem natOfDigits_ofNat (n : Nat) : natOfDigits (Text.ofNat n) = n := by
  have h := Nat.ofDigitChars_toDigits (b := 10) (n := n) (by decide) (by decide)
  rw [Nat.ofDigitChars_eq_foldl] at h
  exact h

namespace Numeral

/-- Digits with a sign in front are a numeral. -/
theorem isNumeral_digits {sign digits : Text} (hs : sign = [] ∨ sign = ['-'] ∨ sign = ['+'])
    (hd : ∀ c ∈ digits, c.isDigit = true) (hne : digits ≠ []) :
    isNumeral (sign ++ digits) = true := by
  refine isNumeral_iff_spelling.2 ⟨⟨sign, digits, none⟩, ⟨hs, ?_, ?_⟩, by simp [Spelling.text]⟩
  · simpa [Spelling.digits] using hd
  · simpa [Spelling.digits] using hne

/-- So are digits around a point. -/
theorem isNumeral_point {sign whole part : Text} (hs : sign = [] ∨ sign = ['-'] ∨ sign = ['+'])
    (hw : ∀ c ∈ whole, c.isDigit = true) (hp : ∀ c ∈ part, c.isDigit = true)
    (hne : whole ++ part ≠ []) : isNumeral (sign ++ (whole ++ '.' :: part)) = true := by
  refine isNumeral_iff_spelling.2
    ⟨⟨sign, whole, some part⟩, ⟨hs, ?_, hne⟩, by simp [Spelling.text]⟩
  intro c hc
  rcases List.mem_append.1 hc with hc | hc
  · exact hw c hc
  · exact hp c hc

theorem isNumeral_ofInt (n : Int) : isNumeral (Text.ofInt n) = true := by
  have hd : ∀ c ∈ Text.ofNat n.natAbs, c.isDigit = true := fun c hc => Text.isDigit_of_mem_ofNat hc
  unfold Text.ofInt
  split_ifs
  · exact isNumeral_digits (.inr (.inl rfl)) hd (Text.ofNat_ne_nil _)
  · exact isNumeral_digits (.inl rfl) hd (Text.ofNat_ne_nil _)

theorem value?_ofNat (n : Nat) : value? (Text.ofNat n) = some (.ofInt n) := by
  have hs : Spelling.Valid ⟨[], Text.ofNat n, none⟩ :=
    ⟨.inl rfl, by simpa [Spelling.digits] using fun c => Text.isDigit_of_mem_ofNat,
      by simpa [Spelling.digits] using Text.ofNat_ne_nil n⟩
  have hd : (⟨[], Text.ofNat n, none⟩ : Spelling).decimal =
      ⟨(n : Int) < 0, (n : Int).natAbs, 0⟩ := by
    simp [Spelling.decimal, Spelling.digits, natOfDigits_ofNat]
  have hv := hs.value?_text
  rw [hd, Decimal.toDouble_whole] at hv
  simpa [Spelling.text] using hv

theorem isNumeral_layout {sign : Text} (hs : sign = [] ∨ sign = ['-'] ∨ sign = ['+'])
    (d : Shortest.Digits) : isNumeral (sign ++ d.layout) = true := by
  have hd : ∀ c ∈ Text.ofNat d.digits, c.isDigit = true := fun c hc => Text.isDigit_of_mem_ofNat hc
  have hne := Text.ofNat_ne_nil d.digits
  have hz : ∀ n, ∀ c ∈ List.replicate n '0', c.isDigit = true := by
    intro n c hc
    rw [List.eq_of_mem_replicate hc]
    decide
  unfold Shortest.Digits.layout
  simp only
  split_ifs with hp hl
  · refine isNumeral_digits hs ?_ (by simp [hne])
    intro c hc
    rcases List.mem_append.1 hc with hc | hc
    · exact hd c hc
    · exact hz _ c hc
  · refine isNumeral_point hs (fun c hc => hd c (List.mem_of_mem_take hc))
      (fun c hc => hd c (List.mem_of_mem_drop hc)) ?_
    rwa [List.take_append_drop]
  · refine @isNumeral_point sign ['0'] _ hs (by simp) ?_ (by simp)
    intro c hc
    rcases List.mem_append.1 hc with hc | hc
    · exact hz _ c hc
    · exact hd c hc

end Numeral

/-- The text of a double is a numeral, or a word for a number that is not finite. -/
theorem Double.text_cases (x : Double) :
    Numeral.isNumeral x.text = true ∨ x.text ∈ (["NaN", "inf", "-inf"] : List Text) := by
  unfold text
  split
  · exact .inl (Numeral.isNumeral_ofInt _)
  · exact .inr (by decide)
  · split_ifs
    · exact .inr (by decide)
    · exact .inr (by decide)
  · left
    split_ifs
    · exact Numeral.isNumeral_layout (.inr (.inl rfl)) _
    · exact Numeral.isNumeral_layout (.inl rfl) _

end CrossEdition
