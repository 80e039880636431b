import CrossEdition.Text.Basic

/-!
# Dialects

The two editions spell target selectors in different dialects; a selector that uses
only what both share is universal. This module holds the vocabulary of each dialect:
which parameter names belong to it, which of them the other edition cannot express
at all, and how repeated parameters merge.

Results:
* `mergeRule_rangePairs`: the three names of a range pair merge as range, minimum
  and maximum.
-/

namespace CrossEdition

/-- The edition a selector is written for. -/
inductive Dialect where
  | java
  | bedrock
  | universal
deriving DecidableEq, Repr

namespace Dialect

/-- The name of a dialect. -/
def name : Dialect → Text
  | java => "java"
  | bedrock => "bedrock"
  | universal => "universal"

/-- Parameter names that only Java knows. -/
def javaNames : List Text :=
  ["distance", "x_rotation", "y_rotation", "nbt", "team", "limit", "sort", "predicate",
    "advancements", "level", "gamemode", "attributes"]

/-- Parameter names that only Bedrock knows. -/
def bedrockNames : List Text :=
  ["r", "rm", "rx", "rxm", "ry", "rym", "hasitem", "family", "l", "lm", "m", "haspermission",
    "has_property", "c"]

/-- Selector variables that only Bedrock knows. -/
def bedrockVariables : List Text :=
  ["@initiator", "@c", "@v"]

/-! ## Parameters without a counterpart -/

/-- Java parameters that Bedrock cannot express, each with the reason. -/
def javaExclusive : List (Text × Text) :=
  [("predicate", "Bedrock has no predicate system"),
    ("advancements", "Bedrock has no advancement system"),
    ("team", "Bedrock has no team system")]

/-- Bedrock parameters that Java cannot express, each with the reason. -/
def bedrockExclusive : List (Text × Text) :=
  [("haspermission", "Java has no player permission filter"),
    ("has_property", "Java has no entity property filter"),
    ("family", "Java has no entity families; use type instead")]

/-- Why a parameter cannot be expressed in the target dialect, if it cannot. -/
def dropReason? (name : Text) : Dialect → Option Text
  | bedrock => javaExclusive.lookup name
  | java => bedrockExclusive.lookup name
  | universal => none

end Dialect

/-! ## Convertible ranges -/

/-- One quantity that Java writes as a range and Bedrock as two bounds. -/
structure RangePair where
  /-- Java's name of the range. -/
  java : Text
  /-- Bedrock's name of the lower bound. -/
  min : Text
  /-- Bedrock's name of the upper bound. -/
  max : Text
  /-- Whether a single number in Java bounds the quantity on both sides; else only
      from above. -/
  scalarIsExact : Bool
deriving DecidableEq, Repr

/-- The quantities that both editions bound. -/
def rangePairs : List RangePair :=
  [⟨"distance", "rm", "r", false⟩, ⟨"x_rotation", "rxm", "rx", true⟩,
    ⟨"y_rotation", "rym", "ry", true⟩, ⟨"level", "lm", "l", true⟩]

/-! ## Repeated parameters -/

/-- How several occurrences of one parameter become one. -/
inductive MergeRule where
  | max
  | min
  | range
  | keepAll
deriving DecidableEq, Repr

namespace MergeRule

/-- The name of a rule. -/
def name : MergeRule → Text
  | max => "max"
  | min => "min"
  | range => "range"
  | keepAll => "keep-all"

end MergeRule

/-- Parameters of which the greatest occurrence counts. -/
def maxNames : List Text :=
  ["x", "y", "z", "dx", "dy", "dz", "r", "rx", "ry", "l", "c", "limit"]

/-- Parameters of which the least occurrence counts. -/
def minNames : List Text :=
  ["rm", "rxm", "rym", "lm"]

/-- Parameters whose occurrences merge as ranges. -/
def rangeNames : List Text :=
  ["distance", "x_rotation", "y_rotation", "level"]

/-- How the occurrences of a parameter merge. Repetition has a meaning for all that
    are not listed. -/
def mergeRule (name : Text) : MergeRule :=
  if name ∈ maxNames then .max
  else if name ∈ minNames then .min
  else if name ∈ rangeNames then .range
  else .keepAll

theorem mergeRule_rangePairs : ∀ p ∈ rangePairs,
    mergeRule p.java = .range ∧ mergeRule p.min = .min ∧ mergeRule p.max = .max := by
  decide

end CrossEdition
