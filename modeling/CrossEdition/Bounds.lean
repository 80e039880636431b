import CrossEdition.Decimal.Numeral

/-!
# Bounds

A range of numbers by its two ends, each a numeral in its own spelling or absent. An
absent end leaves the range unbounded on that side.

Results:
* `ofText?_hasBound`: bounds that were read have at least one end.
* `merge?_eq_none_iff`: merging fails only for no ranges at all.
-/

namespace CrossEdition

/-- The two ends of a range. -/
structure Bounds where
  min : Option Text
  max : Option Text
deriving DecidableEq, Repr

namespace Bounds

/-- The range that holds one number only. -/
def exact (t : Text) : Bounds :=
  ⟨some t, some t⟩

/-- Whether at least one end is present. -/
def hasBound (b : Bounds) : Bool :=
  b.min.isSome || b.max.isSome

/-- One side of a range: nothing if it is blank, else a numeral. -/
def side? (t : Text) : Option (Option Text) :=
  let t := Text.trim t
  if t = [] then some none
  else if Numeral.isNumeral t then some (some t)
  else none

/-- Reads `a..b`, `a..` or `..b`. -/
def ofText? (t : Text) : Option Bounds := do
  let (before, after) ← Text.cutDots t
  let bounds : Bounds := ⟨← side? before, ← side? after⟩
  if bounds.hasBound then some bounds else none

/-- What is said of a text that is no range. -/
def malformed (t : Text) : Text :=
  "malformed range '" ++ t ++ "'"

/-- The number at the lower end. -/
def minValue? (b : Bounds) : Option Double :=
  b.min.bind Numeral.value?

/-- The number at the upper end. -/
def maxValue? (b : Bounds) : Option Double :=
  b.max.bind Numeral.value?

/-- The distance between the ends; none for an unbounded range. -/
def span? (b : Bounds) : Option Double := do
  let hi ← b.maxValue?
  let lo ← b.minValue?
  some (hi.sub lo).abs

/-- The text of a range. Ends of equal value are written once, as a single number. -/
def text (b : Bounds) : Text :=
  match b.min, b.max with
  | some lo, some hi =>
    if Numeral.compare? lo hi = some .eq then Numeral.normalize lo
    else Numeral.normalize lo ++ ".." ++ Numeral.normalize hi
  | some lo, none => Numeral.normalize lo ++ ".."
  | none, some hi => ".." ++ Numeral.normalize hi
  | none, none => ".."

/-! ## Merging -/

/-- The least range that contains all of them: on each side the outermost end, or
    none if any range has none. -/
def hull (bs : List Bounds) : Bounds where
  min := if bs.any (·.minValue?.isNone) then none else Numeral.least? (bs.filterMap (·.min))
  max := if bs.any (·.maxValue?.isNone) then none else Numeral.greatest? (bs.filterMap (·.max))

/-- Whether `b` is wider than `a`. An unbounded range is wider than any other. -/
def wider (b a : Bounds) : Bool :=
  match a.span?, b.span? with
  | none, _ => false
  | some _, none => true
  | some s, some t => s.lt t

/-- One range for several: their hull, or else the first of the widest. -/
def merge? (asHull : Bool) : List Bounds → Option Bounds
  | [] => none
  | first :: rest =>
    if asHull then some (hull (first :: rest))
    else some (rest.foldl (fun best b => if b.wider best then b else best) first)

/-! ## Lemmas -/

theorem ofText?_hasBound {t : Text} {b : Bounds} (h : ofText? t = some b) : b.hasBound = true := by
  simp only [ofText?, Option.bind_eq_bind, Option.bind_eq_some_iff] at h
  obtain ⟨_, _, _, _, _, _, h⟩ := h
  split at h
  · simp_all
  · simp at h

theorem merge?_eq_none_iff {asHull : Bool} {bs : List Bounds} :
    merge? asHull bs = none ↔ bs = [] := by
  cases bs <;> cases asHull <;> simp [merge?]

end Bounds

end CrossEdition
