import CrossEdition.Decimal.Literal
import CrossEdition.Json.Basic
import CrossEdition.Text.Cursor

/-!
# Reading JSON

Reads one value that fills the whole text up to blanks. Numbers are decimal literals
that begin with a digit or a minus sign, and control characters may stand in
strings. Messages count bytes of UTF-8 and show single bytes, each as the character
with its code.
-/

namespace CrossEdition

namespace Json

/-! ## Errors -/

/-- What was found where something else was expected: the first byte there, or the
    end. -/
abbrev Found := Option Char

/-- Why a text is no JSON value. -/
inductive Error where
  | expected (wanted : Char) (found : Found) (offset : Nat)
  | unexpectedCharacter (found : Char) (offset : Nat)
  | unexpectedToken (offset : Nat)
  | unexpectedEnd
  | unterminatedString
  | endInEscape
  | unknownEscape (found : Char)
  | endInHex
  /-- The four bytes of a code cut through a character. -/
  | brokenHex
  | invalidHex (window : Text)
  | invalidNumber (literal : Text)
  | trailingContent (offset : Nat)
  /-- More nested brackets than the reader was asked to follow. -/
  | tooDeep
deriving DecidableEq, Repr

/-- The first byte of a character in UTF-8, as the character with that code. -/
def firstByte (c : Char) : Char :=
  let n := c.toNat
  if n < 0x80 then c
  else if n < 0x800 then Char.ofNat (0xc0 + n / 0x40)
  else if n < 0x10000 then Char.ofNat (0xe0 + n / 0x1000)
  else Char.ofNat (0xf0 + n / 0x40000)

/-- What is said of an error. -/
def Error.message : Error → Text
  | expected wanted found offset =>
    let shown : Text := match found with
      | some c => "'" ++ [c] ++ "'"
      | none => "EOF"
    "Expected '" ++ [wanted] ++ "' at position " ++ Text.ofNat offset ++ ", found " ++ shown
  | unexpectedCharacter found offset =>
    "Unexpected character '" ++ [found] ++ "' at position " ++ Text.ofNat offset
  | unexpectedToken offset => "Unexpected token at position " ++ Text.ofNat offset
  | unexpectedEnd => "Unexpected end of input"
  | unterminatedString => "Unterminated string"
  | endInEscape => "Unexpected end of input in string escape"
  | unknownEscape found => "Unknown escape '\\" ++ [found] ++ "'"
  | endInHex => "Unexpected end of input in \\u escape"
  | brokenHex => "Invalid hex in \\u escape"
  | invalidHex window => "Invalid hex in \\u escape: " ++ window
  | invalidNumber literal => "Invalid number \"" ++ literal ++ "\": invalid float literal"
  | trailingContent offset => "Trailing content at position " ++ Text.ofNat offset
  | tooDeep => "Nesting too deep"

/-! ## Leaves -/

/-- Whether a character may stand between the tokens of a value. -/
def isBlank (c : Char) : Bool :=
  c = ' ' || c = '\t' || c = '\n' || c = '\r'

/-- The cursor behind blanks. -/
def skipBlanks (c : Cursor) : Cursor :=
  c.skip isBlank

/-- The cursor behind `ch`, which may follow blanks. -/
def expect (ch : Char) (c : Cursor) : Except Error Cursor :=
  let c := skipBlanks c
  match c.eat? ch with
  | some c => .ok c
  | none => .error (.expected ch (c.rest.head?.map firstByte) c.offset)

/-- The first characters of a text that fill `n` bytes; nothing if it is shorter or
    if the bytes cut through a character. -/
def window : Nat → Text → Except Error (Text × Text)
  | 0, t => .ok ([], t)
  | _ + 1, [] => .error .endInHex
  | n + 1, c :: rest =>
    if c.utf8Size ≤ n + 1 then
      (window (n + 1 - c.utf8Size) rest).map fun (t, after) => (c :: t, after)
    else .error .brokenHex
termination_by _ t => t.length

/-- The value of a hexadecimal digit, in either case. -/
def hexValue? (c : Char) : Option Nat :=
  if c.isDigit then some (c.toNat - '0'.toNat)
  else if 'a' ≤ c ∧ c ≤ 'f' then some (c.toNat - 'a'.toNat + 10)
  else if 'A' ≤ c ∧ c ≤ 'F' then some (c.toNat - 'A'.toNat + 10)
  else none

/-- The number that hexadecimal digits denote, with a plus sign in front or without. -/
def hexNumber? (t : Text) : Option Nat :=
  let digits := match t with
    | '+' :: rest => rest
    | t => t
  if digits = [] then none
  else digits.foldlM (fun n c => (hexValue? c).map (16 * n + ·)) 0

/-- The number that the next four bytes denote. -/
def readHex (c : Cursor) : Except Error (Nat × Cursor) := do
  let (digits, rest) ← window 4 c.rest
  match hexNumber? digits with
  | some n => .ok (n, ⟨rest, c.offset + 4⟩)
  | none => .error (.invalidHex digits)

/-- The character that stands for what cannot be decoded. -/
def replacement : Char := '\uFFFD'

/-- The character of a code that is half of no pair. -/
def codeChar (n : Nat) : Char :=
  if n.isValidChar then Char.ofNat n else replacement

/-- The character of a pair of surrogates. -/
def pairChar (high low : Nat) : Char :=
  if 0xdc00 ≤ low ∧ low ≤ 0xdfff then
    codeChar (0x10000 + (high - 0xd800) * 0x400 + (low - 0xdc00))
  else replacement

/-- The character of a code behind `\u`. A high surrogate takes the code behind it
    with it, if there is one. -/
def readCode (c : Cursor) : Except Error (Char × Cursor) := do
  let (n, c) ← readHex c
  if 0xd800 ≤ n ∧ n ≤ 0xdbff then
    match c.rest with
    | '\\' :: 'u' :: _ => do
      let (low, c) ← readHex (c.drop 2)
      .ok (pairChar n low, c)
    | _ => .ok (replacement, c)
  else .ok (codeChar n, c)

/-- The character of an escape without a code. -/
def shortEscape? (c : Char) : Option Char :=
  if c = '"' ∨ c = '\\' ∨ c = '/' then some c
  else if c = 'n' then some '\n'
  else if c = 'r' then some '\r'
  else if c = 't' then some '\t'
  else if c = 'b' then some '\x08'
  else if c = 'f' then some '\x0c'
  else none

/-- The content of a string from behind its opening quote, and the cursor behind its
    closing quote, following at most `fuel` characters. -/
def stringContent : Nat → Cursor → Except Error (Text × Cursor)
  | 0, _ => .error .tooDeep
  | fuel + 1, c =>
    match c.rest with
    | [] => .error .unterminatedString
    | '"' :: _ => .ok ([], c.drop 1)
    | '\\' :: rest => do
      match rest with
      | [] => .error .endInEscape
      | 'u' :: _ =>
        let (ch, c) ← readCode (c.drop 2)
        let (t, c) ← stringContent fuel c
        .ok (ch :: t, c)
      | e :: _ =>
        match shortEscape? e with
        | none => .error (.unknownEscape (firstByte e))
        | some ch =>
          let (t, c) ← stringContent fuel (c.drop 2)
          .ok (ch :: t, c)
    | ch :: _ => do
      let (t, c) ← stringContent fuel (c.drop 1)
      .ok (ch :: t, c)

/-- The string at the cursor, which may follow blanks. -/
def readString (c : Cursor) : Except Error (Text × Cursor) := do
  let c ← expect '"' c
  stringContent (c.rest.length + 1) c

/-- The exponent at the start of a text, complete or not, and what follows it. -/
def exponentPart : Text → Text × Text
  | [] => ([], [])
  | e :: rest =>
    if e = 'e' ∨ e = 'E' then
      let (sign, rest) : Text × Text := match rest with
        | '+' :: rest => ("+", rest)
        | '-' :: rest => ("-", rest)
        | rest => ("", rest)
      (e :: sign ++ rest.takeWhile Char.isDigit, rest.dropWhile Char.isDigit)
    else ([], e :: rest)

/-- The longest start of a text that looks like a number, and what follows it. -/
def numberPart (t : Text) : Text × Text :=
  let (sign, rest) : Text × Text := match t with
    | '-' :: rest => ("-", rest)
    | rest => ("", rest)
  let whole := rest.takeWhile Char.isDigit
  let rest := rest.dropWhile Char.isDigit
  let (fraction, rest) : Text × Text := match rest with
    | '.' :: rest => ('.' :: rest.takeWhile Char.isDigit, rest.dropWhile Char.isDigit)
    | rest => ([], rest)
  let (exponent, rest) := exponentPart rest
  (sign ++ whole ++ fraction ++ exponent, rest)

/-- The number at the cursor. -/
def readNumber (c : Cursor) : Except Error (Double × Cursor) :=
  let (literal, rest) := numberPart c.rest
  match Decimal.ofText? literal with
  | some d => .ok (d.toDouble, ⟨rest, c.offset + literal.length⟩)
  | none => .error (.invalidNumber literal)

/-- The cursor behind a word at it. -/
def readWord (word : Text) (c : Cursor) : Except Error Cursor :=
  if word.isPrefixOf c.rest then .ok (c.drop word.length) else .error (.unexpectedToken c.offset)

/-! ## Values -/

mutual

/-- The value at the cursor, following at most `fuel` steps into it. -/
def readValue : Nat → Cursor → Except Error (Json × Cursor)
  | 0, _ => .error .tooDeep
  | fuel + 1, c =>
    let c := skipBlanks c
    match c.rest with
    | [] => .error .unexpectedEnd
    | '{' :: _ => do
      let c := skipBlanks (c.drop 1)
      match c.eat? '}' with
      | some c => .ok (.object [], c)
      | none =>
        let (entries, c) ← readEntries fuel c
        .ok (.object entries, c)
    | '[' :: _ => do
      let c := skipBlanks (c.drop 1)
      match c.eat? ']' with
      | some c => .ok (.array [], c)
      | none =>
        let (items, c) ← readItems fuel c
        .ok (.array items, c)
    | '"' :: _ => do
      let (t, c) ← readString c
      .ok (.string t, c)
    | 't' :: _ => (readWord "true" c).map fun c => (.bool true, c)
    | 'f' :: _ => (readWord "false" c).map fun c => (.bool false, c)
    | 'n' :: _ => (readWord "null" c).map fun c => (.null, c)
    | ch :: _ =>
      if ch = '-' ∨ ch.isDigit then (readNumber c).map fun (n, c) => (.number n, c)
      else .error (.unexpectedCharacter (firstByte ch) c.offset)

/-- One or more entries of an object and its closing brace. -/
def readEntries : Nat → Cursor → Except Error (List (Text × Json) × Cursor)
  | 0, _ => .error .tooDeep
  | fuel + 1, c => do
    let (key, c) ← readString c
    let c ← expect ':' c
    let (value, c) ← readValue fuel c
    let c := skipBlanks c
    match c.eat? ',' with
    | some c =>
      let (entries, c) ← readEntries fuel c
      .ok ((key, value) :: entries, c)
    | none =>
      let c ← expect '}' c
      .ok ([(key, value)], c)

/-- One or more items of an array and its closing bracket. -/
def readItems : Nat → Cursor → Except Error (List Json × Cursor)
  | 0, _ => .error .tooDeep
  | fuel + 1, c => do
    let (item, c) ← readValue fuel c
    let c := skipBlanks c
    match c.eat? ',' with
    | some c =>
      let (items, c) ← readItems fuel c
      .ok (item :: items, c)
    | none =>
      let c ← expect ']' c
      .ok ([item], c)

end

/-- The value that a text spells. Two steps for each character suffice to follow it
    to its end. -/
def read (t : Text) : Except Error Json := do
  let (value, c) ← readValue (2 * t.length + 2) (.start t)
  let c := skipBlanks c
  if c.rest = [] then .ok value else .error (.trailingContent c.offset)

end Json

end CrossEdition
