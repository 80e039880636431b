import CrossEdition.Adaptation.ToBedrock
import CrossEdition.Adaptation.ToJava
import CrossEdition.Selector.Detection

/-!
# Converting selectors

A selector for both editions: the edition it was written for gets it as it is, the
other one gets it in its own terms. A selector that holds parameters of both
editions can be written out for each of them instead.
-/

namespace CrossEdition

/-- How `§m` and `§n` are understood, which are formats in Java and colors in
    Bedrock. -/
inductive MnMode where
  /-- As formats in Java. -/
  | font
  /-- As colors in both editions. -/
  | color
  /-- As colors in Bedrock only; a suffix `_f` or `_c` asks for the format or the
      color in Java. -/
  | suffix
deriving DecidableEq, Repr

/-- The settings of a conversion. -/
structure Settings where
  /-- Whether repeated ranges become their hull; else the widest counts. -/
  mergeToHull : Bool
  /-- Whether a selector may hold parameters of both editions. -/
  mixedEditions : Bool
  mnMode : MnMode
deriving DecidableEq, Repr

/-- The settings that hold unless others are asked for. -/
def Settings.standard : Settings :=
  ⟨false, false, .font⟩

/-- A selector for both editions, with the reminders for each. -/
structure Conversion where
  java : Text
  bedrock : Text
  javaReminders : List Text
  bedrockReminders : List Text
  /-- Whether some edition gets another text than the one given. -/
  converted : Bool
deriving DecidableEq, Repr

namespace Selector

/-- The selector in the terms of the target dialect. Repeated parameters are merged
    before, so that a repeated range is one range when it is split, and again
    behind, for parameters that met on the way. -/
def adapt (target : Dialect) (asHull : Bool) (s : Selector) : Noted Selector := do
  let s := s.mergeDuplicates asHull
  let s ← match target with
    | .bedrock => s.toBedrock
    | .java => s.toJava
    | .universal => pure s
  pure (s.mergeDuplicates asHull)

/-- The text of a selector in the terms of the target dialect. -/
def filter (target : Dialect) (settings : Settings) (t : Text) : Noted Text := do
  let s ← read t
  let s ← s.adapt target settings.mergeToHull
  pure s.text

/-- Whether a selector holds parameters of both editions. -/
def isMixed (s : Selector) : Bool :=
  s.parameters.any (·.name ∈ Dialect.javaNames)
    && s.parameters.any (·.name ∈ Dialect.bedrockNames)

/-- A selector with parameters of both editions, written out for each of them. -/
def convertMixed (s : Selector) (given : Text) : Noted Conversion := do
  let java := s.adapt .java true
  let bedrock := s.adapt .bedrock true
  let j ← java
  let b ← bedrock
  pure {
    java := j.text
    bedrock := b.text
    javaReminders := java.reminders ++ Note.mixedMode.reminder?.toList
    bedrockReminders := bedrock.reminders ++ Note.mixedMode.reminder?.toList
    converted := j.text ≠ given ∨ b.text ≠ given }

/-- A selector for both editions, written for the edition that is not the target. -/
def convert (target : Dialect) (settings : Settings) (t : Text) : Noted Conversion := do
  let t := Text.trim t
  let s ← read t
  if settings.mixedEditions && s.isMixed then s.convertMixed t
  else
    match target with
    | .universal => pure ⟨t, t, [], [], false⟩
    | .java => do
      let java := filter .java settings t
      let j ← java
      pure ⟨j, t, java.reminders, [], j ≠ t⟩
    | .bedrock => do
      let bedrock := filter .bedrock settings t
      let b ← bedrock
      pure ⟨t, b, [], bedrock.reminders, t ≠ b⟩

/-- A selector for both editions, written for the edition that it is detected to be
    for. -/
def convertDetected (settings : Settings) (t : Text) : Noted Conversion := do
  match ← detect t with
  | .java => convert .bedrock settings t
  | .bedrock => convert .java settings t
  | .universal => convert .universal settings t

end Selector

end CrossEdition
