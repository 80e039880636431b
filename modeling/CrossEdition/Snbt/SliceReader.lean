import CrossEdition.Json.ByteReader
import CrossEdition.Snbt.Reader
import CrossEdition.Text.Slice

/-!
# Reading stringified NBT by slices

The reader once more, by a position in the input. All that it sees of the input are slices of it,
from the position on or back to an earlier one, and it moves by the number of bytes that a
character takes: the one that it saw, the one that it was told to look for, or two where it found
the mark of a typed array. Nothing keeps the position between two characters, and a slice from
any other place fails. The reader keeps all positions at which it stood.
-/

namespace CrossEdition

namespace Snbt

open Json (Path)

/-- Why nothing was read. -/
inductive SliceError where
  /-- What is said of the text, too. -/
  | ofText (e : Error)
  /-- An end of a slice stands inside a character or behind the end, or they stand out of order. -/
  | brokenSlice
deriving DecidableEq, Repr

/-- A reader by slices, which keeps its path also where it fails. -/
abbrev SliceReader := EStateM SliceError Path

namespace SliceReader

/-! ## Leaves -/

/-- Fails as the reader of texts would. -/
def fail {α : Type} (problem : Problem) (offset : Nat) : SliceReader α :=
  throw (.ofText ⟨problem, offset⟩)

/-- Where the reader stands. -/
def position : SliceReader Nat := do
  return (← get).position

/-- Steps over `n` bytes. -/
def advance (n : Nat) : SliceReader Unit :=
  modify (Path.advance n)

variable (input : Text)

/-- The slice from `start` to `stop`. -/
def slice (start stop : Nat) : SliceReader Text :=
  match input.slice? start stop with
  | some part => return part
  | none => throw .brokenSlice

/-- What is ahead. -/
def remaining : SliceReader Text := do
  slice input (← position) input.byteLength

/-- The next character. -/
def peek : SliceReader (Option Char) := do
  return (← remaining input).head?

/-- Steps over the next character if it is `ch`, and tells whether it did. -/
def eat (ch : Char) : SliceReader Bool := do
  if (← peek input) = some ch then do advance ch.utf8Size; return true else return false

/-- Steps over all characters in a row that satisfy `p`, following at most `fuel` of them. -/
def skipUpTo (p : Char → Bool) : Nat → SliceReader Unit
  | 0 => do fail .tooDeep (← position)
  | fuel + 1 => do
    match ← peek input with
    | none => return ()
    | some c => if p c then do advance c.utf8Size; skipUpTo p fuel else return ()

/-- Steps over all characters in a row that satisfy `p`. -/
def skip (p : Char → Bool) : SliceReader Unit :=
  skipUpTo input p (input.length + 1)

/-- Steps over blanks. -/
def skipBlanks : SliceReader Unit :=
  skip input Text.isBlank

/-- Steps over `ch`, which may follow blanks. -/
def expect (ch : Char) : SliceReader Unit := do
  skipBlanks input
  if ← eat input ch then return () else fail (.expected ch) (← position)

/-- The content of a string from behind its opening quote, which stands at `start`, to behind its
    closing quote, following at most `fuel` characters. -/
def quotedContent (quote : Char) (start : Nat) : Nat → SliceReader Text
  | 0 => fail .tooDeep start
  | fuel + 1 => do
    match ← peek input with
    | none => fail .unterminatedString start
    | some c => do
      advance c.utf8Size
      if c = quote then return []
      else if c = '\\' then
        match ← peek input with
        | none => fail .unterminatedString start
        | some d => do
          advance d.utf8Size
          return d :: (← quotedContent quote start fuel)
      else return c :: (← quotedContent quote start fuel)

/-- The quoted string at the position. -/
def readQuoted (quote : Char) : SliceReader Text := do
  let start ← position
  advance quote.utf8Size
  quotedContent input quote start (input.length + 1)

/-- The key at the position that is all characters in a row that satisfy `p`. -/
def readBareKey (p : Char → Bool) : SliceReader Text := do
  let start ← position
  skip input p
  let stop ← position
  if stop = start then fail .expectedKey start else slice input start stop

/-- The key at the position, which may follow blanks. -/
def readKey (separator : Char) : SliceReader Text := do
  skipBlanks input
  match ← peek input with
  | some '"' => readQuoted input '"'
  | some '\'' => readQuoted input '\''
  | _ => readBareKey input fun c => isBareChar c && c ≠ separator

/-- The unquoted value at the position. -/
def readWord : SliceReader Tag := do
  let start ← position
  skip input isWordChar
  let word := Text.trim (← slice input start (← position))
  if word = [] then fail .expectedValue start else return .value word

/-- Steps over `mark` if it is ahead. -/
def skipMark (mark : Text) : SliceReader Unit := do
  if mark.isPrefixOf (← remaining input) then advance 2 else return ()

/-- Steps over the marks that are ahead; each may occur once, in this order. -/
def skipArrayMarks : SliceReader Unit :=
  arrayMarks.forM (skipMark input)

/-! ## Trees -/

variable (separator : Char)

mutual

/-- The tree at the position, following at most `fuel` steps into it. -/
def readTag : Nat → SliceReader Tag
  | 0 => do fail .tooDeep (← position)
  | fuel + 1 => do
    skipBlanks input
    match ← peek input with
    | none => fail .unexpectedEnd (← position)
    | some '{' => do
      expect input '{'
      skipBlanks input
      if ← eat input '}' then return .compound []
      else return .compound (← readEntries fuel)
    | some '[' => do
      expect input '['
      skipArrayMarks input
      skipBlanks input
      if ← eat input ']' then return .list []
      else return .list (← readItems fuel)
    | some '"' => return .string (← readQuoted input '"')
    | some '\'' => return .string (← readQuoted input '\'')
    | some _ => readWord input

/-- One or more entries of a compound and its closing brace. -/
def readEntries : Nat → SliceReader (List (Text × Tag))
  | 0 => do fail .tooDeep (← position)
  | fuel + 1 => do
    let key ← readKey input separator
    expect input separator
    let tag ← readTag fuel
    skipBlanks input
    if ← eat input ',' then return (key, tag) :: (← readEntries fuel)
    else do
      expect input '}'
      return [(key, tag)]

/-- One or more items of a list and its closing bracket. -/
def readItems : Nat → SliceReader (List Tag)
  | 0 => do fail .tooDeep (← position)
  | fuel + 1 => do
    let tag ← readTag fuel
    skipBlanks input
    if ← eat input ',' then return tag :: (← readItems fuel)
    else do
      expect input ']'
      return [tag]

end

/-- The tree that the input spells. -/
def readAll : SliceReader Tag := do
  let tag ← readTag input separator (2 * input.length + 2)
  skipBlanks input
  let stop ← position
  if stop < input.byteLength then fail .trailingContent stop else return tag

end SliceReader

/-- The tree that a text spells, and all positions at which the reader stood. -/
def readSlices (separator : Char) (input : Text) : Except SliceError Tag × List Nat :=
  match SliceReader.readAll input separator .start with
  | .ok tag s => (.ok tag, s.positions)
  | .error e s => (.error e, s.positions)

end Snbt

end CrossEdition
