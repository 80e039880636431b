import CrossEdition.Selector.Parameter
import CrossEdition.Dialect

/-!
# Merging repeated parameters

Of a parameter that occurs more than once, the rule of its name decides what the
occurrences become. They stay as they are if their repetition has a meaning or if
one of their values does not fit the rule.

Results:
* `mergedValue?_of_keepAll`: parameters whose repetition has a meaning never merge.
-/

namespace CrossEdition

namespace Parameter

/-- The one value that several become under a rule, if all of them fit it. -/
def mergeValues? (asHull : Bool) (values : List Value) : MergeRule → Option Value
  | .max =>
    if values.all (·.numeral?.isSome) then
      (Numeral.greatest? (values.filterMap Value.numeral?)).map .scalar
    else none
  | .min =>
    if values.all (·.numeral?.isSome) then
      (Numeral.least? (values.filterMap Value.numeral?)).map .scalar
    else none
  | .range =>
    if values.all (·.bounds?.isSome) then
      (Bounds.merge? asHull (values.filterMap Value.bounds?)).map .range
    else none
  | .keepAll => none

/-- The value that all parameters with a name become, if there are several and they
    merge. -/
def mergedValue? (asHull : Bool) (ps : List Parameter) (name : Text) : Option Value :=
  let values := valuesOf name ps
  if 1 < values.length then mergeValues? asHull values (mergeRule name) else none

/-- The parameters with repeated ones merged. A merged parameter stands where its
    name first occurs. -/
def mergeDuplicates (asHull : Bool) (ps : List Parameter) : List Parameter :=
  go [] ps
where
  /-- The parameters from some place on, given the names in front of it that were
      merged. -/
  go (seen : List Text) : List Parameter → List Parameter
    | [] => []
    | p :: rest =>
      if p.name ∈ seen then go seen rest
      else
        match mergedValue? asHull ps p.name with
        | none => p :: go seen rest
        | some value => ⟨p.name, value⟩ :: go (p.name :: seen) rest

theorem mergedValue?_of_keepAll {asHull : Bool} {ps : List Parameter} {name : Text}
    (h : mergeRule name = .keepAll) : mergedValue? asHull ps name = none := by
  simp [mergedValue?, mergeValues?, h]

end Parameter

end CrossEdition
