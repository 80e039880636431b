import CrossEdition.Text.Basic

/-!
# Blank characters

The characters with the Unicode property White_Space, and trimming by it.

Results:
* `trim_eq_self`: a text whose ends are not blank is already trimmed.
-/

namespace CrossEdition.Text

/-- The ranges of code points with the property White_Space. -/
def blankRanges : List (Nat × Nat) :=
  [(0x09, 0x0d), (0x20, 0x20), (0x85, 0x85), (0xa0, 0xa0), (0x1680, 0x1680), (0x2000, 0x200a),
    (0x2028, 0x2029), (0x202f, 0x202f), (0x205f, 0x205f), (0x3000, 0x3000)]

/-- Whether a character is white space. -/
def isBlank (c : Char) : Bool :=
  blankRanges.any fun (first, last) => first ≤ c.toNat && c.toNat ≤ last

/-- The text without blanks at its start. -/
def trimStart (t : Text) : Text :=
  t.dropWhile isBlank

/-- The text without blanks at its end. -/
def trimEnd (t : Text) : Text :=
  dropEndWhile isBlank t

/-- The text without blanks at either end. -/
def trim (t : Text) : Text :=
  trimEnd (trimStart t)

/-! ## Lemmas -/

/-- Nothing is trimmed from a text whose first and last characters are not blank. -/
theorem trim_eq_self {t : Text} (hs : ∀ c ∈ t.head?, isBlank c = false)
    (he : ∀ c ∈ t.getLast?, isBlank c = false) : trim t = t := by
  have h₁ : trimStart t = t := by
    cases t with
    | nil => rfl
    | cons c r => simp [trimStart, hs c (by simp)]
  have h₂ : (t.reverse).dropWhile isBlank = t.reverse := by
    cases h : t.reverse with
    | nil => rfl
    | cons c r =>
      have : t.getLast? = some c := by simp [← List.head?_reverse, h]
      simp [he c (by simp [this])]
  simp [trim, trimEnd, dropEndWhile, h₁, h₂]

end CrossEdition.Text
