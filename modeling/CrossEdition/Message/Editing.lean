import CrossEdition.Message.Buffer

/-!
# Editing messages

Typing into a message. Positions count the visible characters of all components,
contents in front of arguments, and new text flows into the component under the
cursor.
-/

namespace CrossEdition

namespace Buffer

/-- A text with another one put in at a position, or at its end if the position lies
    behind it. -/
def splice (t : Text) (position : Nat) (new : Text) : Text :=
  t.take position ++ new ++ t.drop position

/-- The arguments with a text put in at a position counted across them; nothing if
    the position lies behind all of them. -/
def spliceArguments (new : Text) : List Text → Nat → Option (List Text)
  | [], _ => none
  | a :: rest, position =>
    if position < a.length then some (splice a position new :: rest)
    else (spliceArguments new rest (position - a.length)).map (a :: ·)

/-- The component with a text put in at a visible position. A component of the
    active kind takes the text into its content, at its end for a position in the
    arguments. -/
def spliceComponent (active : ComponentKind) (new : Text) (c : Component) (position : Nat) :
    Component :=
  if c.kind = active ∨ position < c.content.length then
    { c with content := splice c.content (min position c.content.length) new }
  else
    match spliceArguments new c.arguments (position - c.content.length) with
    | some arguments => { c with arguments := arguments }
    | none => { c with content := c.content ++ new }

/-- The message with a text put in at a visible position; nothing if the position
    lies at the end of the message or behind it. -/
def spliceMessage (active : ComponentKind) (new : Text) : List Component → Nat →
    Option (List Component)
  | [], _ => none
  | c :: rest, position =>
    if position < c.visible.length then some (spliceComponent active new c position :: rest)
    else (spliceMessage active new rest (position - c.visible.length)).map (c :: ·)

/-- The message with a text at its end, in its last component if that has the active
    kind and no arguments, else in a new one. -/
def appendText (active : ComponentKind) (new : Text) : List Component → List Component
  | [] => [.plain active new]
  | [c] =>
    if c.kind = active ∧ c.arguments = [] then [{ c with content := c.content ++ new }]
    else [c, .plain active new]
  | c :: rest => c :: appendText active new rest

/-- The buffer with a text put in at a position. Without an active kind, or for
    plain text, the position counts the characters of the buffer itself. -/
def insert (buffer : Text) (position : Nat) (new : Text) (active : Option ComponentKind) :
    Noted Text :=
  if new = [] then pure buffer
  else
    match active with
    | none | some .text => pure (splice buffer position new)
    | some kind => do
      let cs ← read buffer
      pure (write ((spliceMessage kind new cs position).getD (appendText kind new cs)))

end Buffer

end CrossEdition
