import CrossEdition.Decimal.Double

/-!
# Shortest decimal digits

The text of a double: the fewest significant digits that only this double rounds to,
of those the nearest, and of two equally near the larger. They are laid out
positionally, without a power of ten, at any size. Whole numbers below `2 ^ 53` come
out as integers.
-/

namespace CrossEdition

namespace Shortest

/-- The reals that round to a number of units, as bounds in quarters of a unit, and
    whether the bounds are among them. The gap below a power of two is half the gap
    above it. -/
structure Interval where
  low : Nat
  high : Nat
  closed : Bool

/-- The reals that round to `units`. -/
def interval (units : Nat) : Interval :=
  let shift := Nat.log2 units - 52
  let mantissa := units / 2 ^ shift
  let below := if mantissa = 2 ^ 52 ∧ 0 < shift then 2 ^ shift else 2 * 2 ^ shift
  ⟨4 * units - below, 4 * units + 2 * 2 ^ shift, mantissa % 2 = 0⟩

/-- A candidate `digits · 10 ^ place` for the text of a number. -/
structure Digits where
  digits : Nat
  place : Int
deriving DecidableEq, Repr

/-- The points of the grid `10 ^ place` next to `units` that round to it, the nearer
    first, the larger first if both are equally near. -/
def candidate? (units : Nat) (place : Int) : Option Digits :=
  let i := interval units
  let scale := 10 ^ (-place).toNat
  let step := 4 * unitsPerOne * 10 ^ place.toNat
  let value := 4 * units * scale
  let hits (n : Nat) : Bool :=
    if i.closed then i.low * scale ≤ n * step && n * step ≤ i.high * scale
    else i.low * scale < n * step && n * step < i.high * scale
  let down := value / step
  let rest := value % step
  let near := if step ≤ 2 * rest then [down + 1, down] else [down, down + 1]
  (near.find? hits).map fun n => ⟨n, place⟩

/-- The number of decimal digits in front of the point of `units`: the least `p`
    with `units` below `10 ^ p`, found upwards from `p`. -/
def pointPlace (units : Nat) : Nat → Int → Int
  | 0, p => p
  | fuel + 1, p =>
    if units * 10 ^ (-p).toNat < unitsPerOne * 10 ^ p.toNat then p
    else pointPlace units fuel (p + 1)

/-- The same digits without zeros at their end, at most `fuel` of them. -/
def stripZeros : Nat → Digits → Digits
  | 0, d => d
  | fuel + 1, d => if d.digits % 10 = 0 then stripZeros fuel ⟨d.digits / 10, d.place + 1⟩ else d

/-- The shortest digits that round to `units`. Seventeen always suffice. -/
def digits (units : Nat) : Digits :=
  let start : Int := (Nat.log2 units - 1074 : Int) * 30103 / 100000 - 1
  let p := pointPlace units 4 start
  let found := (List.range 17).findSome? fun n => candidate? units (p - (n + 1 : Nat))
  stripZeros 17 (found.getD ⟨0, 0⟩)

/-- Digits in positional notation. -/
def Digits.layout (d : Digits) : Text :=
  let text := Text.ofNat d.digits
  if 0 ≤ d.place then text ++ List.replicate d.place.toNat '0'
  else
    let after := (-d.place).toNat
    if after < text.length then
      text.take (text.length - after) ++ '.' :: text.drop (text.length - after)
    else '0' :: '.' :: List.replicate (after - text.length) '0' ++ text

end Shortest

namespace Double

/-- The whole number, if it is one of magnitude below `2 ^ 53`. -/
def smallInt? : Double → Option Int
  | finite negative units _ =>
    let whole : Int := (units / unitsPerOne : Nat)
    if units % unitsPerOne = 0 ∧ units / unitsPerOne < 2 ^ 53 then
      some (if negative then -whole else whole)
    else none
  | _ => none

/-- The text of a number. A zero has no sign. -/
def text (x : Double) : Text :=
  match x.smallInt?, x with
  | some n, _ => .ofInt n
  | none, nan => "NaN"
  | none, infinite negative => if negative then "-inf" else "inf"
  | none, finite negative units _ =>
    (if negative then ['-'] else []) ++ (Shortest.digits units).layout

end Double

end CrossEdition
