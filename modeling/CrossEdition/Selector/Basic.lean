import CrossEdition.Note
import CrossEdition.Selector.Variable
import CrossEdition.Text.Nesting

/-!
# Target selectors

A selector is a variable and a list of parameters, written `@a[name=value,…]`.
Reading is lenient: what is no parameter is left out, the closing bracket may be
missing, and nothing behind it counts.
-/

namespace CrossEdition

/-- A target selector. -/
structure Selector where
  head : Variable
  parameters : List Parameter
deriving DecidableEq, Repr

namespace Selector

/-- The inside of the first bracket of a text, up to the bracket that closes it or
    to the end. -/
def body? (t : Text) : Option Text :=
  (Text.cut '[' t).map fun (_, inside) => (Text.breakTop (· = ']') .outside inside).1

/-- The parameter that an entry of a parameter list spells. An entry without `=`
    spells none, and so does one without a name. -/
def parameter? (entry : Text) : Noted (Option Parameter) :=
  match Text.cut '=' entry with
  | none => pure none
  | some (name, value) =>
    if Text.trim name = [] then do
      Noted.note (.unnamedEntry entry)
      pure none
    else pure (some (.ofTexts (Text.trim name) value))

/-- Reads a selector. -/
def read (t : Text) : Noted Selector := do
  let t := Text.trim t
  let head := ((Text.cut '[' t).map (·.1)).getD t
  let entries := ((body? t).map (Text.splitTop ',' .outside)).getD []
  let parameters ← Noted.all (entries.map parameter?)
  pure ⟨.ofText (Text.trim head), parameters.filterMap id⟩

/-- The text of a selector. Without parameters it has no brackets. -/
def text (s : Selector) : Text :=
  if s.parameters = [] then s.head.text
  else s.head.text ++ '[' :: Text.join "," (s.parameters.map Parameter.text) ++ [']']

/-! ## Parameters by name -/

/-- Whether a parameter with this name is present. -/
def has (s : Selector) (name : Text) : Bool :=
  s.parameters.any (·.name = name)

/-- The values of all parameters with this name. -/
def values (s : Selector) (name : Text) : List Value :=
  Parameter.valuesOf name s.parameters

/-- The selector without the parameters of this name. -/
def erase (s : Selector) (name : Text) : Selector :=
  { s with parameters := Parameter.without name s.parameters }

/-- The selector with more parameters behind its own. -/
def append (s : Selector) (ps : List Parameter) : Selector :=
  { s with parameters := s.parameters ++ ps }

/-- The selector with one more parameter behind its own. -/
def push (s : Selector) (name value : Text) : Selector :=
  s.append [.ofTexts name value]

end Selector

end CrossEdition
