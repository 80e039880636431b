import CrossEdition.Decimal.Double

/-!
# Decimal literals

Reading a number that is written in decimal: an optional sign, digits with at most
one point among them, at least one digit, and an optional power of ten. A literal
denotes an exact decimal number, and a double is what that number rounds to.

Results:
* `splitSign_append`: splitting off the sign loses nothing.
* `natOfDigits_append`: the value of digits is positional.
-/

namespace CrossEdition

/-- The number `± coefficient · 10 ^ exponent`. -/
structure Decimal where
  negative : Bool
  coefficient : Nat
  exponent : Int
deriving DecidableEq, Repr

/-- The number that decimal digits denote. -/
def natOfDigits (digits : Text) : Nat :=
  digits.foldl (fun n d => 10 * n + (d.toNat - '0'.toNat)) 0

/-- Whether there is a minus sign in front, and the text without its sign. -/
def splitSign : Text → Bool × Text
  | '-' :: rest => (true, rest)
  | '+' :: rest => (false, rest)
  | rest => (false, rest)

namespace Decimal

/-- The digits after a point, if the text begins with one, and what follows them. -/
def fraction : Text → Text × Text
  | '.' :: rest => (rest.takeWhile Char.isDigit, rest.dropWhile Char.isDigit)
  | rest => ([], rest)

/-- The power of ten that the rest of a literal gives: none for the empty rest, else
    `e` and a whole number. -/
def exponent? : Text → Option Int
  | [] => some 0
  | c :: rest =>
    let (negative, digits) := splitSign rest
    if (c = 'e' ∨ c = 'E') ∧ digits ≠ [] ∧ digits.all Char.isDigit then
      some (if negative then -natOfDigits digits else natOfDigits digits)
    else none

/-- The decimal number that a literal denotes. -/
def ofText? (t : Text) : Option Decimal :=
  let (negative, body) := splitSign t
  let whole := body.takeWhile Char.isDigit
  let (part, rest) := fraction (body.dropWhile Char.isDigit)
  if whole = [] ∧ part = [] then none
  else (exponent? rest).map fun e => ⟨negative, natOfDigits (whole ++ part), e - part.length⟩

/-- The double nearest to a decimal number. Powers of ten that leave the range of
    doubles whatever the coefficient are decided without computing them. -/
def toDouble (d : Decimal) : Double :=
  if d.coefficient = 0 then .zero d.negative
  else if 310 < d.exponent then .infinite d.negative
  else if (d.coefficient.log2 : Int) + 3 * d.exponent < -1080 then .zero d.negative
  else if 0 ≤ d.exponent then
    .ofRatio d.negative (d.coefficient * 10 ^ d.exponent.toNat * unitsPerOne) 1
  else .ofRatio d.negative (d.coefficient * unitsPerOne) (10 ^ (-d.exponent).toNat)

end Decimal

/-- The double that a literal denotes. Besides decimal literals these are the words
    for infinity and NaN, in any case. -/
def Double.ofText? (t : Text) : Option Double :=
  let (negative, body) := splitSign t
  let word := body.map Char.toLower
  if word = "nan" then some .nan
  else if word = "inf" ∨ word = "infinity" then some (.infinite negative)
  else (Decimal.ofText? t).map Decimal.toDouble

/-! ## Lemmas -/

/-- A text is its sign, if any, and the rest that `splitSign` gives. -/
theorem splitSign_append (t : Text) :
    t = (splitSign t).2 ∨ t = '-' :: (splitSign t).2 ∨ t = '+' :: (splitSign t).2 := by
  unfold splitSign
  split <;> simp

theorem natOfDigits_append (s t : Text) :
    natOfDigits (s ++ t) = natOfDigits s * 10 ^ t.length + natOfDigits t := by
  have h : ∀ (t : Text) (n : Nat),
      t.foldl (fun n d => 10 * n + (d.toNat - '0'.toNat)) n =
        n * 10 ^ t.length + natOfDigits t := by
    intro t
    induction t with
    | nil => simp [natOfDigits]
    | cons d t ih =>
      intro n
      simp only [natOfDigits, List.foldl_cons, List.length_cons] at ih ⊢
      rw [ih, ih (10 * 0 + _), Nat.pow_succ]
      simp only [Nat.add_mul, Nat.mul_zero, Nat.zero_add]
      rw [Nat.mul_comm 10 n, Nat.mul_assoc, Nat.mul_comm 10, Nat.add_assoc]
  simp only [natOfDigits, List.foldl_append]
  exact h t _

end CrossEdition
