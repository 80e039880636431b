import CrossEdition.Decimal.Literal
import CrossEdition.Json.Basic

/-!
# The grammar of JSON

How values are spelled: every production of the strict grammar of JSON, and with it the
value that a text denotes. The one thing left out is a surrogate without its other half,
which the grammar lets stand in an escape but which denotes no character.

Results:
* `Spells`: the relation between a value and its spellings.
-/

namespace CrossEdition

namespace Json

/-- Blanks between tokens: space, tab, line feed and carriage return. -/
def IsBlank (t : Text) : Prop :=
  ∀ c ∈ t, c ∈ ([' ', '\t', '\n', '\r'] : Text)

/-! ## Numbers -/

/-- The parts of a number. -/
structure NumberSpelling where
  negative : Bool
  /-- The digits in front of the point. -/
  whole : Text
  /-- The digits behind the point, if there is one. -/
  part : Option Text
  /-- The letter, the sign and the digits of the exponent, if there is one. -/
  exponent : Option (Char × Text × Text)

namespace NumberSpelling

/-- The text with these parts. -/
def text (n : NumberSpelling) : Text :=
  (if n.negative then ['-'] else []) ++ (n.whole ++ ((n.part.map ('.' :: ·)).getD []
    ++ (n.exponent.map fun (e, sign, digits) => e :: (sign ++ digits)).getD []))

/-- Whether a text is one or more digits. -/
def IsDigits (t : Text) : Prop :=
  t ≠ [] ∧ ∀ c ∈ t, c.isDigit = true

/-- Whether the parts are those of a number. The digits in front of the point do not begin
    with zero unless that is all of them. -/
structure Valid (n : NumberSpelling) : Prop where
  whole : IsDigits n.whole
  leading : n.whole.head? = some '0' → n.whole = ['0']
  part : ∀ digits ∈ n.part, IsDigits digits
  exponent : ∀ e ∈ n.exponent, (e.1 = 'e' ∨ e.1 = 'E') ∧
    (e.2.1 = [] ∨ e.2.1 = ['-'] ∨ e.2.1 = ['+']) ∧ IsDigits e.2.2

/-- The power of ten that the exponent stands for. -/
def power (n : NumberSpelling) : Int :=
  match n.exponent with
  | none => 0
  | some (_, sign, digits) => if sign = ['-'] then -natOfDigits digits else natOfDigits digits

/-- The number that the parts denote. -/
def decimal (n : NumberSpelling) : Decimal :=
  ⟨n.negative, natOfDigits (n.whole ++ n.part.getD []), n.power - (n.part.getD []).length⟩

end NumberSpelling

/-! ## Strings -/

/-- Whether a character is a hexadecimal digit. -/
def IsHexDigit (c : Char) : Prop :=
  c ∈ ("0123456789abcdefABCDEF" : Text)

/-- The number that a hexadecimal digit denotes. -/
def digitValue (c : Char) : Nat :=
  ("0123456789abcdef" : Text).idxOf c.toLower

/-- The code unit that hexadecimal digits denote. -/
def codeUnit (digits : Text) : Nat :=
  digits.foldl (fun n c => 16 * n + digitValue c) 0

/-- The escapes of single characters, each with the character it stands for. -/
def shortEscapes : List (Char × Char) :=
  [('"', '"'), ('\\', '\\'), ('/', '/'), ('b', '\x08'), ('f', '\x0c'), ('n', '\n'), ('r', '\r'),
    ('t', '\t')]

/-- How a character of a string is spelled. -/
inductive SpellsChar : Char → Text → Prop
  | raw {c : Char} (hc : 0x20 ≤ c.toNat) (hq : c ≠ '"') (hb : c ≠ '\\') : SpellsChar c [c]
  | short {e c : Char} (h : (e, c) ∈ shortEscapes) : SpellsChar c ['\\', e]
  | code {digits : Text} (hl : digits.length = 4) (hd : ∀ c ∈ digits, IsHexDigit c)
      (hs : codeUnit digits < 0xd800 ∨ 0xdfff < codeUnit digits) :
      SpellsChar (Char.ofNat (codeUnit digits)) ('\\' :: 'u' :: digits)
  | pair {high low : Text} (hhl : high.length = 4) (hhd : ∀ c ∈ high, IsHexDigit c)
      (hll : low.length = 4) (hld : ∀ c ∈ low, IsHexDigit c)
      (hh : 0xd800 ≤ codeUnit high ∧ codeUnit high ≤ 0xdbff)
      (hl : 0xdc00 ≤ codeUnit low ∧ codeUnit low ≤ 0xdfff) :
      SpellsChar
        (Char.ofNat (0x10000 + (codeUnit high - 0xd800) * 0x400 + (codeUnit low - 0xdc00)))
        ('\\' :: 'u' :: (high ++ '\\' :: 'u' :: low))

/-- How the content of a string is spelled between its quotes. -/
inductive SpellsContent : Text → Text → Prop
  | nil : SpellsContent [] []
  | cons {c : Char} {content u t : Text} (hc : SpellsChar c u) (ht : SpellsContent content t) :
      SpellsContent (c :: content) (u ++ t)

/-- How a string is spelled. -/
def SpellsString (content t : Text) : Prop :=
  ∃ body, SpellsContent content body ∧ t = '"' :: (body ++ ['"'])

/-! ## Values -/

/-- An item of an array as it is written: a value and its text between blanks. -/
structure Element where
  before : Text
  value : Json
  text : Text
  after : Text

/-- The text of an item with the blanks around it. -/
def Element.full (e : Element) : Text :=
  e.before ++ (e.text ++ e.after)

/-- An entry of an object as it is written: a key and its text between blanks, and an
    item. -/
structure Member where
  before : Text
  key : Text
  text : Text
  after : Text
  element : Element

/-- The text of an entry with the blanks around it. -/
def Member.full (m : Member) : Text :=
  m.before ++ (m.text ++ (m.after ++ ':' :: m.element.full))

/-- How a value is spelled. -/
inductive Spells : Json → Text → Prop
  | null : Spells .null "null"
  | bool (b : Bool) : Spells (.bool b) (if b then "true" else "false" : String)
  | number {n : NumberSpelling} (h : n.Valid) : Spells (.number n.decimal.toDouble) n.text
  | string {content t : Text} (h : SpellsString content t) : Spells (.string content) t
  | emptyArray {blanks : Text} (hb : IsBlank blanks) : Spells (.array []) ('[' :: (blanks ++ [']']))
  | array {es : List Element} (hne : es ≠ []) (hb : ∀ e ∈ es, IsBlank e.before ∧ IsBlank e.after)
      (hv : ∀ e ∈ es, Spells e.value e.text) :
      Spells (.array (es.map (·.value))) ('[' :: (Text.join "," (es.map Element.full) ++ [']']))
  | emptyObject {blanks : Text} (hb : IsBlank blanks) :
      Spells (.object []) ('\x7b' :: (blanks ++ ['\x7d']))
  | object {ms : List Member} (hne : ms ≠ [])
      (hb : ∀ m ∈ ms, IsBlank m.before ∧ IsBlank m.after ∧ IsBlank m.element.before ∧
        IsBlank m.element.after)
      (hk : ∀ m ∈ ms, SpellsString m.key m.text)
      (hv : ∀ m ∈ ms, Spells m.element.value m.element.text) :
      Spells (.object (ms.map fun m => (m.key, m.element.value)))
        ('\x7b' :: (Text.join "," (ms.map Member.full) ++ ['\x7d']))

end Json

end CrossEdition
