import CrossEdition.Decimal.Literal
import CrossEdition.Text.Blank

/-!
# Numerals

A number as parameters spell it: a decimal literal made of digits, points and signs
only, so without a power of ten and without words. Numerals are compared by value
and kept in their own spelling.

Results:
* `isNumeral_iff`: a numeral is a decimal literal of those characters.
* `value?_isSome`: a text has a value exactly when it is a numeral up to blanks.
-/

namespace CrossEdition

namespace Numeral

/-- Whether a character may stand in a numeral. -/
def isNumeralChar (c : Char) : Bool :=
  c.isDigit || c = '.' || c = '-' || c = '+'

/-- The decimal number that a numeral denotes. -/
def decimal? (t : Text) : Option Decimal :=
  if t.all isNumeralChar then Decimal.ofText? t else none

/-- Whether a text is a numeral. -/
def isNumeral (t : Text) : Bool :=
  (decimal? t).isSome

/-- The number that a numeral denotes; blanks around it do not count. -/
def value? (t : Text) : Option Double :=
  (decimal? (Text.trim t)).map Decimal.toDouble

/-- How two numerals compare by value. -/
def compare? (a b : Text) : Option Ordering := do
  let x ← value? a
  let y ← value? b
  x.compare? y

/-- A numeral without needless zeros and point at the end of its fraction: `9.00`
    becomes `9` and `9.50` becomes `9.5`. Of other texts only the blanks around them
    are removed. -/
def normalize (t : Text) : Text :=
  let t := Text.trim t
  if isNumeral t && t.contains '.' then
    let short := Text.dropEndWhile (· = '.') (Text.dropEndWhile (· = '0') t)
    if short = "" ∨ short = "-" ∨ short = "+" then "0" else short
  else t

/-- The texts that are numerals, each with its value. -/
def valued (ts : List Text) : List (Text × Double) :=
  ts.filterMap fun t => (value? t).map (t, ·)

/-- The first of the numerals that no later one beats, where one beats another if it
    compares to it as `wanted`. Texts that are no numerals do not take part. -/
def best? (wanted : Ordering) (ts : List Text) : Option Text :=
  match valued ts with
  | [] => none
  | first :: rest =>
    some (rest.foldl (fun best t => if t.2.compare? best.2 = some wanted then t else best) first).1

/-- The first spelling of the greatest numeral. -/
def greatest? (ts : List Text) : Option Text :=
  best? .gt ts

/-- The first spelling of the least numeral. -/
def least? (ts : List Text) : Option Text :=
  best? .lt ts

/-! ## Lemmas -/

theorem isNumeral_iff {t : Text} :
    isNumeral t = true ↔ t.all isNumeralChar = true ∧ (Decimal.ofText? t).isSome = true := by
  by_cases h : t.all isNumeralChar = true <;> simp [isNumeral, decimal?, h]

theorem value?_isSome {t : Text} : (value? t).isSome = isNumeral (Text.trim t) := by
  simp [value?, isNumeral]

end Numeral

end CrossEdition
