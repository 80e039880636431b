import CrossEdition.Snbt.Basic
import CrossEdition.Text.Cursor

/-!
# Reading stringified NBT

Reads one tree that fills the whole text up to blanks. Unquoted values run to the
next comma or closing bracket, whatever they hold, and a list may begin with the
mark of a typed array.

Results:
* `quotedContent?_escape`: a quoted string is read back, whatever follows it.
-/

namespace CrossEdition

namespace Snbt

/-- Why a text is no tree. -/
inductive Problem where
  | expected (c : Char)
  | expectedValue
  | expectedKey
  | unexpectedEnd
  | unterminatedString
  | trailingContent
  /-- More nested brackets than the reader was asked to follow. -/
  | tooDeep
deriving DecidableEq, Repr

/-- What is said of a problem. -/
def Problem.message : Problem → Text
  | expected c => "Expected '" ++ [c] ++ "'"
  | expectedValue => "Expected a value"
  | expectedKey => "Expected a key"
  | unexpectedEnd => "Unexpected end of input"
  | unterminatedString => "Unterminated string"
  | trailingContent => "Trailing content"
  | tooDeep => "Nesting too deep"

/-- A problem and the number of bytes in front of it. -/
structure Error where
  problem : Problem
  offset : Nat
deriving DecidableEq, Repr

/-- What is said of an error. -/
def Error.message (e : Error) : Text :=
  e.problem.message ++ " at offset " ++ Text.ofNat e.offset

/-! ## Leaves -/

/-- The cursor behind blanks. -/
def skipBlanks (c : Cursor) : Cursor :=
  c.skip Text.isBlank

/-- The cursor behind `ch`, which may follow blanks. -/
def expect (ch : Char) (c : Cursor) : Except Error Cursor :=
  let c := skipBlanks c
  match c.eat? ch with
  | some c => .ok c
  | none => .error ⟨.expected ch, c.offset⟩

/-- The content of a string from behind its opening quote, and the cursor behind its
    closing quote. A backslash stands for the character after it. -/
def quotedContent? (quote : Char) : Text → Nat → Option (Text × Cursor)
  | [], _ => none
  | c :: rest, offset =>
    if c = quote then some ([], ⟨rest, offset + c.utf8Size⟩)
    else if c = '\\' then
      match rest with
      | [] => none
      | d :: rest =>
        (quotedContent? quote rest (offset + c.utf8Size + d.utf8Size)).map
          fun (t, after) => (d :: t, after)
    else (quotedContent? quote rest (offset + c.utf8Size)).map fun (t, after) => (c :: t, after)

theorem quotedContent?_escape (t rest : Text) (offset : Nat) :
    quotedContent? '"' (escape t ++ '"' :: rest) offset =
      some (t, ⟨rest, offset + Text.byteLength (escape t) + 1⟩) := by
  have hq : '"'.utf8Size = 1 := rfl
  have hb : '\\'.utf8Size = 1 := rfl
  induction t generalizing offset with
  | nil =>
    unfold quotedContent?
    simp [escape, hq]
  | cons c t ih =>
    unfold escape
    split
    · show quotedContent? '"' ('\\' :: c :: (escape t ++ '"' :: rest)) offset = _
      unfold quotedContent?
      simp [ih, hb]
      omega
    · next h =>
      show quotedContent? '"' (c :: (escape t ++ '"' :: rest)) offset = _
      unfold quotedContent?
      simp [not_or.1 h, ih]
      omega

/-- The quoted string at the cursor. -/
def readQuoted (quote : Char) (c : Cursor) : Except Error (Text × Cursor) :=
  let inside := c.drop 1
  match quotedContent? quote inside.rest inside.offset with
  | some found => .ok found
  | none => .error ⟨.unterminatedString, c.offset⟩

/-- The key at the cursor: a quoted string, or bare characters up to the separator. -/
def readKey (separator : Char) (c : Cursor) : Except Error (Text × Cursor) :=
  let c := skipBlanks c
  let bare (d : Char) : Bool := isBareChar d && d ≠ separator
  match c.rest with
  | '"' :: _ => readQuoted '"' c
  | '\'' :: _ => readQuoted '\'' c
  | rest =>
    let key := rest.takeWhile bare
    if key = [] then .error ⟨.expectedKey, c.offset⟩ else .ok (key, c.skip bare)

/-- Whether a character belongs to an unquoted value. -/
def isWordChar (c : Char) : Bool :=
  c ≠ ',' && c ≠ '}' && c ≠ ']'

/-- The unquoted value at the cursor. -/
def readWord (c : Cursor) : Except Error (Tag × Cursor) :=
  let word := Text.trim (c.rest.takeWhile isWordChar)
  if word = [] then .error ⟨.expectedValue, c.offset⟩ else .ok (.value word, c.skip isWordChar)

/-- The marks with which typed arrays begin. -/
def arrayMarks : List Text :=
  ["B;", "I;", "L;"]

/-- The cursor behind the marks at it; each may occur once, in this order. -/
def skipArrayMarks (c : Cursor) : Cursor :=
  arrayMarks.foldl (fun c mark => if mark.isPrefixOf c.rest then c.drop mark.length else c) c

/-! ## Trees -/

mutual

/-- The tree at the cursor, following at most `fuel` steps into it. -/
def readTag (separator : Char) : Nat → Cursor → Except Error (Tag × Cursor)
  | 0, c => .error ⟨.tooDeep, c.offset⟩
  | fuel + 1, c =>
    let c := skipBlanks c
    match c.rest with
    | [] => .error ⟨.unexpectedEnd, c.offset⟩
    | '{' :: _ => do
      let c := skipBlanks (c.drop 1)
      match c.eat? '}' with
      | some c => .ok (.compound [], c)
      | none =>
        let (entries, c) ← readEntries separator fuel c
        .ok (.compound entries, c)
    | '[' :: _ => do
      let c := skipBlanks (skipArrayMarks (c.drop 1))
      match c.eat? ']' with
      | some c => .ok (.list [], c)
      | none =>
        let (items, c) ← readItems separator fuel c
        .ok (.list items, c)
    | '"' :: _ => do
      let (t, c) ← readQuoted '"' c
      .ok (.string t, c)
    | '\'' :: _ => do
      let (t, c) ← readQuoted '\'' c
      .ok (.string t, c)
    | _ => readWord c

/-- One or more entries of a compound and its closing brace. -/
def readEntries (separator : Char) : Nat → Cursor → Except Error (List (Text × Tag) × Cursor)
  | 0, c => .error ⟨.tooDeep, c.offset⟩
  | fuel + 1, c => do
    let (key, c) ← readKey separator c
    let c ← expect separator c
    let (tag, c) ← readTag separator fuel c
    let c := skipBlanks c
    match c.eat? ',' with
    | some c =>
      let (entries, c) ← readEntries separator fuel c
      .ok ((key, tag) :: entries, c)
    | none =>
      let c ← expect '}' c
      .ok ([(key, tag)], c)

/-- One or more items of a list and its closing bracket. -/
def readItems (separator : Char) : Nat → Cursor → Except Error (List Tag × Cursor)
  | 0, c => .error ⟨.tooDeep, c.offset⟩
  | fuel + 1, c => do
    let (tag, c) ← readTag separator fuel c
    let c := skipBlanks c
    match c.eat? ',' with
    | some c =>
      let (items, c) ← readItems separator fuel c
      .ok (tag :: items, c)
    | none =>
      let c ← expect ']' c
      .ok ([tag], c)

end

/-- The tree that a text spells. Two steps for each character suffice to follow it
    to its end. -/
def read (separator : Char) (t : Text) : Except Error Tag := do
  let (tag, c) ← readTag separator (2 * t.length + 2) (.start t)
  let c := skipBlanks c
  if c.rest = [] then .ok tag else .error ⟨.trailingContent, c.offset⟩

end Snbt

end CrossEdition
