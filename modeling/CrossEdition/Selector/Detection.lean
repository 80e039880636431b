import CrossEdition.Selector.Basic
import CrossEdition.Selector.Score

/-!
# Detecting the dialect of a selector

A variable that only Bedrock knows decides at once. Otherwise the parameters that
only one edition knows are counted; a selector without any is universal. Spaces
around `=` or in front of a comma count for Bedrock, and so does a tie.
-/

namespace CrossEdition

namespace Selector

/-- The number of parameters that only Java knows. -/
def javaHints (s : Selector) : Nat :=
  s.parameters.countP (·.name ∈ Dialect.javaNames)

/-- The number of parameters that only Bedrock knows, and of score maps with a
    negation. -/
def bedrockHints (s : Selector) : Nat :=
  s.parameters.countP (·.name ∈ Dialect.bedrockNames)
    + s.parameters.countP fun p : Parameter => p.name = "scores" && Score.negated p.value ≠ []

/-- Whether a parameter list has a space next to `=` or in front of a comma. -/
def looselySpaced : Text → Bool
  | a :: b :: rest =>
    (a = ' ' && (b = '=' || b = ',')) || (a = '=' && b = ' ') || looselySpaced (b :: rest)
  | _ => false

/-- The dialect that so many hints stand for. -/
def dialectOf (java bedrock : Nat) (loose : Bool) : Dialect :=
  if java = 0 ∧ bedrock = 0 then .universal
  else if bedrock + loose.toNat < java then .java
  else .bedrock

/-- The dialect of a selector. -/
def detect (t : Text) : Noted Dialect := do
  let t := Text.trim t
  let s ← read t
  if s.head.isBedrockOnly then pure .bedrock
  else
    match body? t with
    | none => pure .universal
    | some body =>
      let dialect := dialectOf s.javaHints s.bedrockHints (looselySpaced body)
      if dialect = .universal then pure dialect
      else do
        let bedrock := s.bedrockHints + (looselySpaced body).toNat
        Noted.note (.detected dialect t s.javaHints bedrock)
        pure dialect

end Selector

end CrossEdition
