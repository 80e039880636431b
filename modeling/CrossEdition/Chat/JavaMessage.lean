import CrossEdition.Chat.Formatting
import CrossEdition.Chat.Part
import CrossEdition.Json.Printer

/-!
# Messages for Java

The parts of a message as Java's tree of chat components. The children of a
component inherit its style, so only a part without style may hold the others.
-/

namespace CrossEdition

namespace JavaMessage

/-- The entries that give a component its style. -/
def styleEntries (s : Style) : List (Text × Json) :=
  let flag (key : Text) (on : Bool) : List (Text × Json) := if on then [(key, .bool true)] else []
  (s.color.map fun c => (("color" : Text), Json.string c.name)).toList
    ++ flag "bold" s.bold
    ++ flag "italic" s.italic
    ++ flag "underlined" s.underlined
    ++ flag "strikethrough" s.strikethrough
    ++ flag "obfuscated" s.obfuscated

/-- The component of text in one style. -/
def runObject (r : Formatting.Run) : Json :=
  .object (("text", .string r.text) :: styleEntries r.style)

/-- The keys that give a component a style. -/
def styleKeys : List Text :=
  ["color", "bold", "italic", "underlined", "strikethrough", "obfuscated"]

/-- Whether a component has a style of its own. -/
def hasStyle (j : Json) : Bool :=
  styleKeys.any fun key => (j.get? key).isSome

/-- A text component without text. -/
def empty : Json :=
  .single "text" (.string [])

/-- One component for several: the first with the others as its children, or, if the
    first has a style, an empty one with all of them. -/
def assemble : List Json → Json
  | [] => empty
  | [part] => part
  | first :: rest =>
    if hasStyle first then empty.insert "extra" (.array (first :: rest))
    else first.insert "extra" (.array rest)

/-- The component of an argument, which is a plain string if it has no style. -/
def argument (mode : MnMode) (t : Text) : Json :=
  match Formatting.runs mode t with
  | [] => .string []
  | [run] => if run.style = .plain then .string run.text else assemble [runObject run]
  | runs => assemble (runs.map runObject)

/-- The component of a score. -/
def scoreObject (name objective : Text) : Json :=
  .single "score" (.object [("name", .string name), ("objective", .string objective)])

/-- The component of a translated text. Its key has the style of its first run, and its
    arguments stand in a list if there are any. -/
def translateObject (mode : MnMode) (key : Text) (arguments : List Text) : Json :=
  let runs := Formatting.runs mode key
  let style := (runs.head?.map (·.style)).getD .plain
  let shown : List (Text × Json) :=
    if arguments = [] then [] else [("with", .array (arguments.map (argument mode)))]
  .object (("translate", .string (Formatting.runText runs)) :: (shown ++ styleEntries style))

/-- The components of a part. -/
def components (mode : MnMode) : Part → List Json
  | .text t => (Formatting.runs mode t).map runObject
  | .translate key arguments => [translateObject mode key arguments]
  | .score name objective => [scoreObject name objective]
  | .selector conversion separator =>
    [.object (("selector", .string conversion.java)
      :: (separator.map fun s => (("separator" : Text), Json.string s)).toList)]

/-- The text of a part that is text. -/
def text? : Part → Option Text
  | .text t => some t
  | _ => none

/-- The message of parts. If all of them are text, formatting runs on from one to
    the next. -/
def ofParts (mode : MnMode) (ps : List Part) : Json :=
  if ps.all (text? · |>.isSome) then
    assemble ((Formatting.runs mode (ps.filterMap text?).flatten).map runObject)
  else assemble (ps.flatMap (components mode))

/-- A message for Java, with the reminders about its selectors. -/
def encode (settings : Settings) (cs : List Component) : Noted (Text × List Text) := do
  let parts ← Part.ofComponents settings cs
  pure ((ofParts settings.mnMode parts).print, Part.javaReminders parts)

end JavaMessage

end CrossEdition
