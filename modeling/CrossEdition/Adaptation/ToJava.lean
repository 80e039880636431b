import CrossEdition.Item.ToNbt
import CrossEdition.Adaptation.Basic
import CrossEdition.Selector.Score
import CrossEdition.Decimal.Shortest

/-!
# Adapting to Java

Bedrock's parameters in Java's terms: bounds become ranges, `m` becomes `gamemode`,
`c` becomes limit and order, `hasitem` becomes `nbt`, and negated scores are taken
out.

Results:
* `replaceVariable_java`: what is left is a variable that Java knows.
-/

namespace CrossEdition

namespace Selector

/-- Replaces a variable that only Bedrock knows by all players. -/
def replaceVariable (s : Selector) : Noted Selector :=
  if s.head.isBedrockOnly then do
    Noted.note (.bedrockVariable s.head.text)
    pure { s with head := .allPlayers }
  else pure s

/-! ## Ranges -/

/-- The numerals of all parameters with this name. -/
def numerals (s : Selector) (name : Text) : List Text :=
  (s.values name).filterMap Value.numeral?

/-- Whether a parameter is a bound of a quantity with a numeric value. -/
def isBound (pair : RangePair) (p : Parameter) : Bool :=
  (p.name = pair.min || p.name = pair.max) && p.value.numeral?.isSome

/-- Joins the bounds of one quantity into a range: the least lower and the greatest
    upper bound. -/
def joinRange (pair : RangePair) (s : Selector) : Selector :=
  let bounds : Bounds :=
    ⟨Numeral.least? (s.numerals pair.min), Numeral.greatest? (s.numerals pair.max)⟩
  let rest := { s with parameters := s.parameters.filter fun p => !isBound pair p }
  if bounds.hasBound then rest.push pair.java bounds.text else rest

/-! ## Game modes -/

/-- The `gamemode` parameter that an `m` parameter becomes. Unknown modes are kept
    as they are. -/
def gamemodeOfMode (p : Parameter) : Noted (Option (List Parameter)) :=
  if p.name = "m" then
    let (negation, mode) := splitNegation p.value.text
    let gamemode (mode : Text) := some [Parameter.ofTexts "gamemode" (negation ++ mode)]
    if mode ∈ (["s", "0", "survival"] : List Text) then pure (gamemode "survival")
    else if mode ∈ (["c", "1", "creative"] : List Text) then pure (gamemode "creative")
    else if mode ∈ (["a", "2", "adventure"] : List Text) then pure (gamemode "adventure")
    else if mode ∈ (["d", "5", "default"] : List Text) then
      ⟨gamemode "survival", [.defaultMode p.value.text negation]⟩
    else pure (gamemode mode)
  else pure none

/-! ## Limit and order -/

/-- Splits `c` into limit and order. A negative count picks the furthest, a positive
    one the nearest, unless the variable picks at random. -/
def splitCount (s : Selector) : Noted Selector :=
  let counts := s.values "c"
  if counts = [] then pure s
  else
    let rest := s.erase "c"
    match (Numeral.greatest? (counts.filterMap Value.numeral?)).bind Numeral.value? with
    | none => do
      Noted.note .invalidCount
      pure rest
    | some n =>
      if n.compare? (.zero false) = some .eq then do
        Noted.note .zeroCount
        pure rest
      else
        let limited := rest.push "limit" n.abs.text
        if n.lt (.zero false) then pure (limited.push "sort" "furthest")
        else if s.head = .randomPlayer then pure limited
        else pure (limited.push "sort" "nearest")

/-! ## Items and scores -/

/-- Replaces all `hasitem` parameters by the `nbt` parameters that look for their
    items. -/
def itemsToNbt (s : Selector) : Noted Selector :=
  if s.has "hasitem" then do
    let found ← Item.toNbt ((s.values "hasitem").map Value.text)
    pure ((s.erase "hasitem").append (found.map (Parameter.ofTexts "nbt")))
  else pure s

/-- The `scores` parameter without its negated entries, if it has any. -/
def positiveScores (p : Parameter) : Noted (Option (List Parameter)) :=
  let negated := Score.negated p.value
  if p.name = "scores" ∧ negated ≠ [] then
    let kept := (Score.entries p.value).filter fun entry => !Score.isNegated entry
    ⟨some (if kept = [] then [] else [.ofTexts "scores" (Score.text kept)]),
      negated.map fun (name, value) => .negatedScore name value⟩
  else pure none

/-- The selector in Java's terms. -/
def toJava (s : Selector) : Noted Selector := do
  let s ← s.replaceVariable
  let s ← s.dropExclusive .java
  let s := rangePairs.foldl (fun s pair => s.joinRange pair) s
  let s ← s.displace gamemodeOfMode
  let s ← s.splitCount
  let s ← s.itemsToNbt
  s.displace positiveScores

theorem replaceVariable_java (s : Selector) :
    (replaceVariable s).value.head.isBedrockOnly = false := by
  unfold replaceVariable
  split
  · show Variable.isBedrockOnly .allPlayers = false
    decide
  · simp_all

end Selector

end CrossEdition
