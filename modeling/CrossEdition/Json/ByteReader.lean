import CrossEdition.Json.Reader
import CrossEdition.Text.Utf8

/-!
# Reading JSON from bytes

The reader once more, on bytes and by positions in them. It decides by single bytes, each taken
for the character with its code, and looks at several only where a string holds a character of
more than one byte, behind `\u` and in words and numbers. Nothing is said of the bytes: they may
be those of no text, and a position may come to stand inside a character. The reader keeps all
positions at which it stood.
-/

namespace CrossEdition

namespace Json

/-- Why bytes are no JSON value. -/
inductive ByteError where
  /-- What would be said of a text, too. -/
  | ofText (e : Error)
  /-- The bytes at a place in a string are no character. -/
  | brokenString
  /-- The bytes of a number are no text. -/
  | brokenNumber
deriving DecidableEq, Repr

/-- What is said of an error. -/
def ByteError.message : ByteError → Text
  | ofText e => e.message
  | brokenString => "Invalid UTF-8 in JSON string"
  | brokenNumber => "Invalid number encoding"

/-- A byte, as the character with its code. -/
def byteChar (b : UInt8) : Char :=
  Char.ofNat b.toNat

/-- The number of bytes that a character takes by its first byte. What begins no character counts
    as a byte of its own. -/
def charWidth (first : Char) : Nat :=
  let n := first.toNat
  if 0xc0 ≤ n ∧ n ≤ 0xdf then 2
  else if 0xe0 ≤ n ∧ n ≤ 0xef then 3
  else if 0xf0 ≤ n ∧ n ≤ 0xf7 then 4
  else 1

/-! ## Paths -/

/-- Where a reader stands in its bytes, and where it stood before, the latest first. -/
structure Path where
  position : Nat
  earlier : List Nat
deriving DecidableEq, Repr

namespace Path

/-- The path of a reader that has not moved. -/
def start : Path :=
  ⟨0, []⟩

/-- All positions of a path. -/
def positions (s : Path) : List Nat :=
  s.position :: s.earlier

/-- The path with one more step, over `n` bytes. -/
def advance (n : Nat) (s : Path) : Path :=
  ⟨s.position + n, s.positions⟩

/-- The path with a step over each byte in a row that satisfies `p`, of those that are ahead. -/
def skip (p : Char → Bool) : Bytes → Path → Path
  | [], s => s
  | b :: ahead, s => if p (byteChar b) then skip p ahead (s.advance 1) else s

end Path

/-- A reader of bytes, which keeps its path also where it fails. -/
abbrev ByteReader := EStateM ByteError Path

namespace ByteReader

/-! ## Leaves -/

/-- Fails as the reader of texts would. -/
def fail {α : Type} (e : Error) : ByteReader α :=
  throw (.ofText e)

/-- Steps over `n` bytes. -/
def advance (n : Nat) : ByteReader Unit :=
  modify (Path.advance n)

variable (input : Bytes)

/-- The byte that is `n` bytes ahead. -/
def look (n : Nat) : ByteReader (Option Char) := do
  return input[(← get).position + n]?.map byteChar

/-- The next `n` bytes, if there are so many. -/
def window? (n : Nat) : ByteReader (Option Bytes) := do
  let bytes := (input.drop (← get).position).take n
  return if bytes.length = n then some bytes else none

/-- Steps over all bytes in a row that satisfy `p`. -/
def skip (p : Char → Bool) : ByteReader Unit :=
  modify fun s => s.skip p (input.drop s.position)

/-- Steps over the next byte if it satisfies `p`, and tells whether it did. -/
def eat (p : Char → Bool) : ByteReader Bool := do
  match ← look input 0 with
  | some c => if p c then do advance 1; return true else return false
  | none => return false

/-- Goes on with `x` behind the next byte if that satisfies `p`. -/
def optionally (p : Char → Bool) (x : ByteReader Unit) : ByteReader Unit := do
  if ← eat input p then x else return ()

/-- Steps over blanks. -/
def skipBlanks : ByteReader Unit :=
  skip input isBlank

/-- Steps over `ch`, which may follow blanks. -/
def expect (ch : Char) : ByteReader Unit := do
  skipBlanks input
  if ← eat input (· = ch) then return ()
  else fail (.expected ch (← look input 0) (← get).position)

/-- The number that the next four bytes denote. -/
def readHex : ByteReader Nat := do
  match ← window? input 4 with
  | none => fail .endInHex
  | some bytes =>
    match Text.ofUtf8? bytes with
    | none => fail .brokenHex
    | some digits =>
      match hexNumber? digits with
      | none => fail (.invalidHex digits)
      | some n => do advance 4; return n

/-- The character of a code behind `\u`. A high surrogate takes the code behind it with it, if
    there is one. -/
def readCode : ByteReader Char := do
  let n ← readHex input
  if 0xd800 ≤ n ∧ n ≤ 0xdbff then
    if (← look input 0) = some '\\' ∧ (← look input 1) = some 'u' then do
      advance 2
      let low ← readHex input
      return pairChar n low
    else return replacement
  else return codeChar n

/-- The character of a string whose first byte is `first`. -/
def readChar (first : Char) : ByteReader Text := do
  match ← window? input (charWidth first) with
  | none => throw .brokenString
  | some bytes =>
    match Text.ofUtf8? bytes with
    | none => throw .brokenString
    | some t => do advance (charWidth first); return t

/-- The character of an escape, from behind its backslash. -/
def readEscape : ByteReader Char := do
  match ← look input 0 with
  | none => fail .endInEscape
  | some 'u' => do
    advance 1
    readCode input
  | some e =>
    match shortEscape? e with
    | none => fail (.unknownEscape e)
    | some ch => do
      advance 1
      return ch

/-- The content of a string from behind its opening quote to behind its closing quote, following
    at most `fuel` characters. -/
def stringContent : Nat → ByteReader Text
  | 0 => fail .tooDeep
  | fuel + 1 => do
    match ← look input 0 with
    | none => fail .unterminatedString
    | some '"' => do
      advance 1
      return []
    | some '\\' => do
      advance 1
      let ch ← readEscape input
      let t ← stringContent fuel
      return ch :: t
    | some first => do
      let ch ← readChar input first
      let t ← stringContent fuel
      return ch ++ t

/-- The string at the position, which may follow blanks. -/
def readString : ByteReader Text := do
  expect input '"'
  stringContent input (input.length + 1)

/-- Steps over the longest row of bytes that looks like a number. -/
def scanNumber : ByteReader Unit := do
  optionally input (· = '-') (return ())
  skip input Char.isDigit
  optionally input (· = '.') (skip input Char.isDigit)
  optionally input (fun c => c = 'e' || c = 'E') do
    optionally input (fun c => c = '+' || c = '-') (return ())
    skip input Char.isDigit

/-- The number at the position. -/
def readNumber : ByteReader Double := do
  let start := (← get).position
  scanNumber input
  let stop := (← get).position
  match Text.ofUtf8? ((input.drop start).take (stop - start)) with
  | none => throw .brokenNumber
  | some literal =>
    match Decimal.ofText? literal with
    | none => fail (.invalidNumber literal)
    | some d => return d.toDouble

/-- Steps over a word. -/
def readWord (word : Text) : ByteReader Unit := do
  if (← window? input word.utf8.length) = some word.utf8 then advance word.utf8.length
  else fail (.unexpectedToken (← get).position)

/-! ## Values -/

mutual

/-- The value at the position, following at most `fuel` steps into it. -/
def readValue : Nat → ByteReader Json
  | 0 => fail .tooDeep
  | fuel + 1 => do
    skipBlanks input
    match ← look input 0 with
    | none => fail .unexpectedEnd
    | some '{' => do
      advance 1
      skipBlanks input
      if ← eat input (· = '}') then return .object []
      else do
        let entries ← readEntries fuel
        return .object entries
    | some '[' => do
      advance 1
      skipBlanks input
      if ← eat input (· = ']') then return .array []
      else do
        let items ← readItems fuel
        return .array items
    | some '"' => do
      let t ← readString input
      return .string t
    | some 't' => do
      readWord input "true"
      return .bool true
    | some 'f' => do
      readWord input "false"
      return .bool false
    | some 'n' => do
      readWord input "null"
      return .null
    | some ch =>
      if ch = '-' ∨ ch.isDigit then do
        let n ← readNumber input
        return .number n
      else fail (.unexpectedCharacter ch (← get).position)

/-- One or more entries of an object and its closing brace. -/
def readEntries : Nat → ByteReader (List (Text × Json))
  | 0 => fail .tooDeep
  | fuel + 1 => do
    let key ← readString input
    expect input ':'
    let value ← readValue fuel
    skipBlanks input
    if ← eat input (· = ',') then do
      let entries ← readEntries fuel
      return (key, value) :: entries
    else do
      expect input '}'
      return [(key, value)]

/-- One or more items of an array and its closing bracket. -/
def readItems : Nat → ByteReader (List Json)
  | 0 => fail .tooDeep
  | fuel + 1 => do
    let item ← readValue fuel
    skipBlanks input
    if ← eat input (· = ',') then do
      let items ← readItems fuel
      return item :: items
    else do
      expect input ']'
      return [item]

end

/-- The value that the bytes spell. -/
def readAll : ByteReader Json := do
  let value ← readValue input (2 * input.length + 2)
  skipBlanks input
  let position := (← get).position
  if position < input.length then fail (.trailingContent position) else return value

end ByteReader

/-- The value that bytes spell, and all positions at which the reader stood. -/
def readBytes (input : Bytes) : Except ByteError Json × List Nat :=
  match ByteReader.readAll input .start with
  | .ok value s => (.ok value, s.positions)
  | .error e s => (.error e, s.positions)

end Json

end CrossEdition
