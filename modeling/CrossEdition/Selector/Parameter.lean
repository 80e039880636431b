import CrossEdition.Value

/-!
# Parameters

A parameter of a selector: a name and a value, written `name=value`. A selector may
hold a name more than once.
-/

namespace CrossEdition

/-- A parameter of a selector. -/
structure Parameter where
  name : Text
  value : Value
deriving DecidableEq, Repr

namespace Parameter

/-- The parameter with this name whose value is spelled `value`. -/
def ofTexts (name value : Text) : Parameter :=
  ⟨name, .read value⟩

/-- The text of a parameter. -/
def text (p : Parameter) : Text :=
  p.name ++ '=' :: p.value.text

/-- The values of all parameters with this name, in order. -/
def valuesOf (name : Text) (ps : List Parameter) : List Value :=
  ps.filterMap fun p => if p.name = name then some p.value else none

/-- The parameters with other names. -/
def without (name : Text) (ps : List Parameter) : List Parameter :=
  ps.filter (·.name ≠ name)

end Parameter

end CrossEdition
