import CrossEdition.Chat.JavaMessage

/-!
# Messages for Bedrock

The parts of a message as Bedrock's flat `rawtext`. Empty text is left out, but the
list is never empty.
-/

namespace CrossEdition

namespace BedrockMessage

/-- A text item. -/
def textObject (mode : MnMode) (t : Text) : Json :=
  .single "text" (.string (Formatting.bedrockText mode t))

/-- The item of a translated text, with its arguments if there are any. -/
def translateObject (mode : MnMode) (key : Text) (arguments : List Text) : Json :=
  .object (("translate", .string (Formatting.bedrockText mode key))
    :: if arguments = [] then []
      else [("with", .single "rawtext" (.array (arguments.map (textObject mode))))])

/-- The item of a part, unless it is empty text. -/
def item? (mode : MnMode) : Part → Option Json
  | .text t => if t = [] then none else some (textObject mode t)
  | .translate key arguments => some (translateObject mode key arguments)
  | .score name objective => some (JavaMessage.scoreObject name objective)
  | .selector conversion _ => some (.single "selector" (.string conversion.bedrock))

/-- The items of parts. -/
def items (mode : MnMode) (ps : List Part) : List Json :=
  match ps.filterMap (item? mode) with
  | [] => [JavaMessage.empty]
  | found => found

/-- The message of parts. -/
def ofParts (mode : MnMode) (ps : List Part) : Json :=
  .single "rawtext" (.array (items mode ps))

/-- A message for Bedrock, with the reminders about its selectors and their
    separators. -/
def encode (settings : Settings) (cs : List Component) : Noted (Text × List Text) := do
  let parts ← Part.ofComponents settings cs
  let separated := cs.any Part.hasSeparator
  if separated then
    Noted.note .separatorsIgnored
  let reminders := Part.bedrockReminders parts
    ++ if separated then Note.separatorsIgnored.reminder?.toList else []
  pure ((ofParts settings.mnMode parts).print, reminders.eraseDups)

end BedrockMessage

end CrossEdition
