import CrossEdition.Text.Basic

/-!
# Message components

A chat message is a list of components: plain text, the key of a text in the
reader's language with its arguments, scores, or selectors. Contents are texts in a
grammar of their own kind.
-/

namespace CrossEdition

/-- What the content of a component means. -/
inductive ComponentKind where
  | text
  | translate
  | score
  | selector
deriving DecidableEq, Repr

namespace ComponentKind

/-- The key of a kind. -/
def key : ComponentKind → Text
  | text => "text"
  | translate => "translate"
  | score => "score"
  | selector => "selector"

/-- The kind with this key. -/
def ofKey? (key : Text) : Option ComponentKind :=
  [text, translate, score, selector].find? (·.key = key)

theorem ofKey?_key (k : ComponentKind) : ofKey? k.key = some k := by
  cases k <;> decide

end ComponentKind

/-- A component of a message. Only keys of texts carry arguments. -/
structure Component where
  kind : ComponentKind
  content : Text
  arguments : List Text
deriving DecidableEq, Repr

namespace Component

/-- The key of arguments. -/
def argumentKey : Text := "with"

/-- A component without arguments. -/
def plain (kind : ComponentKind) (content : Text) : Component :=
  ⟨kind, content, []⟩

/-- The visible text of a component: its content and then its arguments. -/
def visible (c : Component) : Text :=
  c.content ++ c.arguments.flatten

end Component

end CrossEdition
