import CrossEdition.Bounds

/-!
# Parameter values

The value side of a selector parameter, classified by its spelling.

Results:
* `read_hasBound`: a range that was read has at least one end.
-/

namespace CrossEdition

/-- The value of a parameter. -/
inductive Value where
  /-- A number in its own spelling. -/
  | scalar (text : Text)
  | range (bounds : Bounds)
  /-- Text in braces or brackets, kept as it is. -/
  | compound (text : Text)
  /-- Any other text. -/
  | literal (text : Text)
deriving DecidableEq, Repr

namespace Value

/-- Reads a value; blanks around it do not count. -/
def read (t : Text) : Value :=
  let t := Text.trim t
  if t.head? = some '{' ∨ t.head? = some '[' then compound t
  else if (Text.cutDots t).isSome then
    match Bounds.ofText? t with
    | some bounds => range bounds
    | none => literal t
  else if Numeral.isNumeral t then scalar t
  else literal t

/-- The text of a value. -/
def text : Value → Text
  | scalar t | compound t | literal t => t
  | range bounds => bounds.text

/-- A numeric value as a range; a number `n` is the range from `n` to `n`. -/
def bounds? : Value → Option Bounds
  | scalar t => some (.exact t)
  | range bounds => some bounds
  | _ => none

/-- The numeral of a value that is a single number. -/
def numeral? : Value → Option Text
  | scalar t => some t
  | _ => none

theorem read_hasBound {t : Text} {b : Bounds} (h : read t = range b) : b.hasBound = true := by
  simp only [read] at h
  repeat' split at h
  all_goals simp_all
  exact Bounds.ofText?_hasBound ‹_›

end Value

end CrossEdition
