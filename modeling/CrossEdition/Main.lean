import CrossEdition.CommandLine

/-!
# The program

Reads the arguments and, if the message is not among them, the standard input. What to
do with them is decided elsewhere.
-/

namespace CrossEdition.Main

/-- Everything left to read from a stream, behind what was read from it. -/
partial def readAll (stream : IO.FS.Stream) (before : ByteArray) : IO ByteArray := do
  let bytes ← stream.read 65536
  if bytes.isEmpty then pure before else readAll stream (before ++ bytes)

/-- The standard input as text, if it is UTF-8. -/
def readInput : IO (Option Text) := do
  let bytes ← readAll (← IO.getStdin) .empty
  pure ((String.fromUTF8? bytes).map String.toList)

/-- Runs the program on its arguments. -/
def run (args : List String) : IO UInt32 := do
  let words := args.map String.toList
  let input ← if CommandLine.needsInput words then readInput else pure none
  let outcome := CommandLine.run words input
  for (level, message) in outcome.records do
    IO.eprintln (String.ofList (level.name ++ ": " ++ message))
  IO.print (String.ofList outcome.output)
  IO.eprint (String.ofList outcome.errors)
  pure outcome.code.toUInt32

end CrossEdition.Main

/-- Runs the program. -/
def main (args : List String) : IO UInt32 :=
  CrossEdition.Main.run args
