import CrossEdition.Selector.Parameter
import CrossEdition.Text.Nesting

/-!
# Score maps

The entries `name=value` of a `scores` parameter. Bedrock allows a value to be
negated by a `!` in front of it.
-/

namespace CrossEdition

namespace Score

/-- The entries of a score map. Its outermost braces, however many there are in a
    row, do not count. -/
def entries : Value → List (Text × Text)
  | .compound t =>
    let inside := Text.dropEndWhile (· = '}') ((Text.trim t).dropWhile (· = '{'))
    (Text.splitTop ',' .outside inside).filterMap fun entry =>
      (Text.cut '=' entry).map fun (name, value) => (Text.trim name, Text.trim value)
  | _ => []

/-- Whether an entry is negated. -/
def isNegated (entry : Text × Text) : Bool :=
  entry.2.head? = some '!'

/-- The negated entries of a score map. -/
def negated (value : Value) : List (Text × Text) :=
  (entries value).filter isNegated

/-- The text of the map with these entries. -/
def text (entries : List (Text × Text)) : Text :=
  '{' :: Text.join "," (entries.map fun (name, value) => name ++ '=' :: value) ++ ['}']

end Score

end CrossEdition
