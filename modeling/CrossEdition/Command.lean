import CrossEdition.Chat.BedrockMessage
import CrossEdition.Json.Reader
import CrossEdition.Message.Buffer

/-!
# Commands

The `tellraw` commands of both editions for a selector and a message, and a check of
Java's.

Results:
* `validate_ok_iff`: a command is valid exactly when its parts are there, its
  selector has the shape of a Java selector, and its message is JSON.
-/

namespace CrossEdition

/-- The commands for both editions, with all reminders. -/
structure Commands where
  java : Text
  bedrock : Text
  reminders : List Text
deriving DecidableEq, Repr

namespace Command

/-- The command that shows a message to the players of a selector. -/
def tellraw (selector message : Text) : Text :=
  "tellraw " ++ selector ++ ' ' :: message

/-- The commands that show a message, given as a buffer, to the players of a
    selector. A blank selector means all players. The reminders about the selector
    come first, and none comes twice. -/
def generate (settings : Settings) (selector buffer : Text) : Noted Commands := do
  let selector := Text.trim selector
  let target ← Selector.convertDetected settings (if selector = [] then "@a" else selector)
  let cs ← Buffer.read buffer
  let (java, javaReminders) ← JavaMessage.encode settings cs
  let (bedrock, bedrockReminders) ← BedrockMessage.encode settings cs
  pure {
    java := tellraw target.java java
    bedrock := tellraw target.bedrock bedrock
    reminders := (target.javaReminders ++ target.bedrockReminders ++ javaReminders
      ++ bedrockReminders).eraseDups }

/-! ## Validation -/

/-- Why a text is no command for Java. -/
inductive Invalid where
  | noTellraw
  | incomplete
  | noSelector (selector : Text)
  | unsupportedSelector (selector : Text)
  | message (error : Json.Error)
deriving DecidableEq, Repr

namespace Invalid

/-- The short name of a kind of fault. -/
def code : Invalid → Text
  | message _ => "json-parse-error"
  | _ => "tellraw-invalid-command"

/-- What is said of a fault. -/
def text : Invalid → Text
  | noTellraw => "command must start with 'tellraw '"
  | incomplete => "expected 'tellraw <selector> <json>'"
  | noSelector selector => "selector '" ++ selector ++ "' must start with '@'"
  | unsupportedSelector selector => "unsupported selector '" ++ selector ++ "'"
  | message error => "invalid JSON: " ++ error.message

end Invalid

/-- Whether a text is one of Java's variables, perhaps with parameters in brackets. -/
def isJavaSelector : Text → Bool
  | '@' :: c :: rest =>
    c ∈ "aprsen".toList
      && (rest = [] || (rest.head? = some '[' && rest.getLast? = some ']' && 1 < rest.length))
  | _ => false

/-- The selector and the message of a command, which a blank outside quotes and
    brackets parts. -/
def parts (t : Text) : Text × Text :=
  let (selector, message) := Text.breakTop Text.isBlank .outside (Text.trimStart t)
  (selector, Text.trim message)

/-- Checks that a text is `tellraw`, a Java selector and JSON. -/
def validate (t : Text) : Except Invalid Unit :=
  match Text.after? "tellraw " (Text.trim t) with
  | none => .error .noTellraw
  | some rest =>
    let (selector, message) := parts rest
    if selector = [] ∨ message = [] then .error .incomplete
    else if selector.head? ≠ some '@' then .error (.noSelector selector)
    else if !isJavaSelector selector then .error (.unsupportedSelector selector)
    else
      match Json.read message with
      | .ok _ => .ok ()
      | .error e => .error (.message e)

theorem validate_ok_iff {t rest : Text} (h : Text.after? "tellraw " (Text.trim t) = some rest) :
    validate t = .ok () ↔ (parts rest).2 ≠ [] ∧ isJavaSelector (parts rest).1 = true
      ∧ ∃ j, Json.read (parts rest).2 = .ok j := by
  have hs : isJavaSelector (parts rest).1 = true →
      (parts rest).1 ≠ [] ∧ (parts rest).1.head? = some '@' := by
    intro h
    unfold isJavaSelector at h
    split at h <;> simp_all
  simp only [validate, h]
  by_cases hm : (parts rest).2 = []
  · simp [hm]
  by_cases hj : isJavaSelector (parts rest).1 = true
  · cases hr : Json.read (parts rest).2 <;> simp [hm, hj, hs hj]
  · split
    · simp [hj]
    · split
      · simp [hj]
      · simp [hj]

end Command

end CrossEdition
