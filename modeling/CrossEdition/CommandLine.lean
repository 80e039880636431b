import CrossEdition.Command

/-!
# The command line

What the program does for its arguments and its input, as a value: the exit code,
what it writes, and what it logs.
-/

namespace CrossEdition

namespace CommandLine

/-- How the program is called. -/
def usage : Text :=
  "usage: tellraw [-v] [--mn font|color|suffix] [--mixed-merge] [--mixed-mode]"
    ++ " <selector> [message]\n"
    ++ "       tellraw [-v] validate <command>\n\n"
    ++ "With no message, the message buffer is read from stdin."

/-- The settings and words that arguments give. -/
structure Arguments where
  settings : Settings
  verbose : Bool
  words : List Text
deriving DecidableEq, Repr

/-- The mode of `m` and `n` with this name. -/
def mnMode? (t : Text) : Option MnMode :=
  if t = "font" then some .font
  else if t = "color" then some .color
  else if t = "suffix" ∨ t = "mn_cf" then some .suffix
  else none

/-- The name of a mode. -/
def mnModeName : MnMode → Text
  | .font => "font"
  | .color => "color"
  | .suffix => "suffix"

/-- Reads arguments behind some that were read. Options may stand anywhere in front
    of `--`. -/
def readArguments (a : Arguments) : List Text → Except Text Arguments
  | [] => .ok a
  | word :: rest =>
    if word = "-v" ∨ word = "--verbose" then readArguments { a with verbose := true } rest
    else if word = "--mixed-merge" then
      readArguments { a with settings := { a.settings with mergeToHull := true } } rest
    else if word = "--mixed-mode" then
      readArguments { a with settings := { a.settings with mixedEditions := true } } rest
    else if word = "--mn" then
      match rest with
      | [] => .error "--mn needs a value"
      | name :: rest =>
        match mnMode? name with
        | some mode => readArguments { a with settings := { a.settings with mnMode := mode } } rest
        | none => .error ("unknown --mn mode '" ++ name ++ "'")
    else if word = "-h" ∨ word = "--help" then .error usage
    else if word = "--" then .ok { a with words := a.words ++ rest }
    else readArguments { a with words := a.words ++ [word] } rest

/-- The settings and words of arguments, or what is wrong with them. -/
def arguments (words : List Text) : Except Text Arguments :=
  readArguments ⟨.standard, false, []⟩ words

/-- What a run of the program leaves behind. -/
structure Outcome where
  code : Nat
  output : Text
  errors : Text
  records : List (Level × Text)
deriving DecidableEq, Repr

/-- A text as a line. -/
def line (t : Text) : Text :=
  t ++ ['\n']

/-- Whether the message has to be read from the input. -/
def needsInput (words : List Text) : Bool :=
  match arguments words with
  | .ok ⟨_, _, [_]⟩ => true
  | _ => false

/-- Generates the commands for a selector and a message. -/
def generate (a : Arguments) (selector message : Text) : Outcome :=
  let commands := Command.generate a.settings selector message
  { code := 0
    output := line commands.value.java ++ line commands.value.bedrock
    errors := commands.value.reminders.flatMap fun r => line ("warning: " ++ r)
    records := if a.verbose then commands.records else [] }

/-- Whether a character ends a line. -/
def isLineEnd (c : Char) : Bool :=
  c = '\r' || c = '\n'

/-- Runs the program. The input is given as text, or not at all if it is not UTF-8. -/
def run (words : List Text) (input : Option Text) : Outcome :=
  match arguments words with
  | .error message => ⟨2, [], line message, []⟩
  | .ok a =>
    match a.words with
    | [] => ⟨2, [], line usage, []⟩
    | selector :: message =>
      if selector = "validate" ∧ message ≠ [] then
        match Command.validate (Text.join " " message) with
        | .ok () => ⟨0, line "ok", [], []⟩
        | .error e => ⟨1, [], line (e.code ++ ": " ++ e.text), []⟩
      else if message = [] then
        match input with
        | none =>
          ⟨1, [], line "failed to read stdin: stream did not contain valid UTF-8", []⟩
        | some buffer => generate a selector (Text.dropEndWhile isLineEnd buffer)
      else generate a selector (Text.join " " message)

end CommandLine

end CrossEdition
