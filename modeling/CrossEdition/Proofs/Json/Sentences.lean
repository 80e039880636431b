import CrossEdition.Proofs.Json.Grammar

/-!
# Sentences of JSON

Which texts are JSON, whatever they denote: the grammar of values over a lexicon, which says
how numbers and the pieces of strings may be written. The strict lexicon is that of JSON. The
lenient one has the same pieces and numbers and a few spellings beside them: zeros in front of a
number, a point without digits on one of its sides, control characters in strings, and a plus
sign in place of the first digit of a code.

Results:
* `Sentence`, `Document`: the grammar, without blanks around a value and with them.
* `NumberSpelling.valid_iff`, `Piece.valid_iff`: what the lenient lexicon has beside the strict one.
* `Document.mono`: a document stays one under a wider lexicon.
-/

namespace CrossEdition

namespace Json

/-! ## Numbers -/

namespace NumberSpelling

/-- Whether the parts are such as a scan cuts off: digits, and an exponent that may lack its
    digits. -/
structure Scanned (n : NumberSpelling) : Prop where
  whole : ∀ c ∈ n.whole, c.isDigit = true
  part : ∀ digits ∈ n.part, ∀ c ∈ digits, c.isDigit = true
  exponent : ∀ e ∈ n.exponent, (e.1 = 'e' ∨ e.1 = 'E') ∧
    (e.2.1 = [] ∨ e.2.1 = ['-'] ∨ e.2.1 = ['+']) ∧ ∀ c ∈ e.2.2, c.isDigit = true

/-- Whether the parts are those of a number in the lenient lexicon: one digit at least beside a
    point, a minus sign if there are none in front of it, and one digit at least in an
    exponent. -/
structure Lenient (n : NumberSpelling) : Prop extends Scanned n where
  digits : n.whole ≠ [] ∨ n.part.getD [] ≠ []
  sign : n.whole = [] → n.negative = true
  power : ∀ e ∈ n.exponent, e.2.2 ≠ []

/-- Strict numbers have digits on both sides of a point and no zeros in front. -/
theorem valid_iff {n : NumberSpelling} :
    n.Valid ↔ n.Lenient ∧ n.whole ≠ [] ∧ n.part ≠ some [] ∧
      (n.whole.head? = some '0' → n.whole = ['0']) := by
  constructor
  · intro h
    have hs : n.Scanned := ⟨h.whole.2, fun d hd => (h.part d hd).2,
      fun e he => ⟨(h.exponent e he).1, (h.exponent e he).2.1, (h.exponent e he).2.2.2⟩⟩
    refine ⟨⟨hs, .inl h.whole.1, fun hw => absurd hw h.whole.1,
      fun e he => (h.exponent e he).2.2.1⟩, h.whole.1, fun hp => ?_, h.leading⟩
    exact (h.part [] hp).1 rfl
  · rintro ⟨h, hw, hp, hz⟩
    refine ⟨⟨hw, h.whole⟩, hz, fun d hd => ⟨?_, h.part d hd⟩,
      fun e he => ⟨(h.exponent e he).1, (h.exponent e he).2.1, h.power e he,
        (h.exponent e he).2.2⟩⟩
    rintro rfl
    exact hp hd

end NumberSpelling

/-! ## Strings -/

theorem IsHexDigit.ne_plus {c : Char} (h : IsHexDigit c) : c ≠ '+' := by
  rintro rfl
  exact absurd h (by simp [IsHexDigit])

/-- A piece of a string as it is written: a character, an escape of one letter with the
    character it stands for, or the code behind `\u`. -/
inductive Piece where
  | raw (c : Char)
  | short (letter c : Char)
  | code (digits : Text)
deriving DecidableEq

namespace Piece

/-- The text of a piece. -/
def text : Piece → Text
  | raw c => [c]
  | short letter _ => ['\\', letter]
  | code digits => '\\' :: 'u' :: digits

/-- Whether a text is the four hexadecimal digits of a code. -/
def IsCode (digits : Text) : Prop :=
  digits.length = 4 ∧ ∀ c ∈ digits, IsHexDigit c

/-- Whether a text is a plus sign and the three hexadecimal digits of a code. -/
def IsSignedCode (digits : Text) : Prop :=
  ∃ tail, digits = '+' :: tail ∧ tail.length = 3 ∧ ∀ c ∈ tail, IsHexDigit c

/-- The pieces of strings in JSON. -/
def Valid : Piece → Prop
  | raw c => 0x20 ≤ c.toNat ∧ c ≠ '"' ∧ c ≠ '\\'
  | short letter c => (letter, c) ∈ shortEscapes
  | code digits => IsCode digits

/-- The pieces of strings in the lenient lexicon. -/
def Lenient : Piece → Prop
  | raw c => c ≠ '"' ∧ c ≠ '\\'
  | short letter c => (letter, c) ∈ shortEscapes
  | code digits => IsCode digits ∨ IsSignedCode digits

/-- Strict strings have no control characters and no signs in their codes. -/
theorem valid_iff {p : Piece} :
    p.Valid ↔ p.Lenient ∧ (∀ c, p = raw c → 0x20 ≤ c.toNat) ∧
      ∀ digits, p = code digits → '+' ∉ digits := by
  cases p with
  | raw c => simp [Valid, Lenient, and_comm]
  | short letter c => simp [Valid, Lenient]
  | code digits =>
    simp only [Valid, Lenient, reduceCtorEq, false_implies, implies_true, code.injEq, true_and]
    constructor
    · exact fun h => ⟨.inl h, fun _ he hm => IsHexDigit.ne_plus (h.2 _ (he ▸ hm)) rfl⟩
    · rintro ⟨h | ⟨tail, rfl, -⟩, hn⟩
      · exact h
      · exact absurd (by simp) (hn _ rfl)

end Piece

/-- A string made of pieces, with its quotes. -/
def quoted (ps : List Piece) : Text :=
  '"' :: (ps.flatMap Piece.text ++ ['"'])

/-! ## Values -/

/-- How the leaves of a value may be written. -/
structure Lexicon where
  /-- The numbers. -/
  number : NumberSpelling → Prop
  /-- The pieces of strings. -/
  piece : Piece → Prop

namespace Lexicon

/-- The leaves of JSON. -/
def strict : Lexicon :=
  ⟨NumberSpelling.Valid, Piece.Valid⟩

/-- The leaves of JSON and the spellings that are near to them. -/
def lenient : Lexicon :=
  ⟨NumberSpelling.Lenient, Piece.Lenient⟩

/-- The strings of a lexicon. -/
def IsString (L : Lexicon) (t : Text) : Prop :=
  ∃ ps, (∀ p ∈ ps, L.piece p) ∧ t = quoted ps

/-- Whether all leaves of one lexicon are leaves of another. -/
structure Le (L M : Lexicon) : Prop where
  number : ∀ n, L.number n → M.number n
  piece : ∀ p, L.piece p → M.piece p

theorem strict_le_lenient : Le strict lenient :=
  ⟨fun _ h => (NumberSpelling.valid_iff.1 h).1, fun _ h => (Piece.valid_iff.1 h).1⟩

variable {L M : Lexicon}

theorem IsString.mono (hle : Le L M) {t : Text} (h : L.IsString t) : M.IsString t := by
  obtain ⟨ps, hps, rfl⟩ := h
  exact ⟨ps, fun p hp => hle.piece p (hps p hp), rfl⟩

end Lexicon

/-- A text between blanks. -/
structure Padded where
  before : Text
  text : Text
  after : Text

namespace Padded

/-- The text with what is around it. -/
def full (p : Padded) : Text :=
  p.before ++ (p.text ++ p.after)

/-- Whether what is around it is blank. -/
def Blank (p : Padded) : Prop :=
  IsBlank p.before ∧ IsBlank p.after

end Padded

/-- An entry of an object as it is written. -/
structure Entry where
  key : Padded
  value : Padded

/-- The text of an entry. -/
def Entry.full (e : Entry) : Text :=
  e.key.full ++ ':' :: e.value.full

/-- An item without its value. -/
def Element.padded (e : Element) : Padded :=
  ⟨e.before, e.text, e.after⟩

/-- An entry without its key and its value. -/
def Member.entry (m : Member) : Entry :=
  ⟨⟨m.before, m.text, m.after⟩, m.element.padded⟩

/-- A text as an item with this value. -/
def Padded.element (p : Padded) (value : Json) : Element :=
  ⟨p.before, value, p.text, p.after⟩

/-- An entry with this key and this value. -/
def Entry.member (e : Entry) (key : Text) (value : Json) : Member :=
  ⟨e.key.before, key, e.key.text, e.key.after, e.value.element value⟩

@[simp] theorem Element.full_padded (e : Element) : e.padded.full = e.full := rfl

@[simp] theorem Member.full_entry (m : Member) : m.entry.full = m.full := by
  simp only [Entry.full, Member.full, Member.entry, Padded.full, List.append_assoc]
  rfl

@[simp] theorem Padded.full_element (p : Padded) (value : Json) :
    (p.element value).full = p.full := rfl

@[simp] theorem Entry.full_member (e : Entry) (key : Text) (value : Json) :
    (e.member key value).full = e.full := by
  simp only [Entry.full, Member.full, Entry.member, Padded.full, List.append_assoc]
  rfl

/-- The texts of values. -/
inductive Sentence (L : Lexicon) : Text → Prop
  | null : Sentence L "null"
  | bool (b : Bool) : Sentence L (if b then "true" else "false" : String)
  | number {n : NumberSpelling} (h : L.number n) : Sentence L n.text
  | string {t : Text} (h : L.IsString t) : Sentence L t
  | emptyArray {blanks : Text} (hb : IsBlank blanks) : Sentence L ('[' :: (blanks ++ [']']))
  | array {es : List Padded} (hne : es ≠ []) (hb : ∀ e ∈ es, e.Blank)
      (hv : ∀ e ∈ es, Sentence L e.text) :
      Sentence L ('[' :: (Text.join "," (es.map Padded.full) ++ [']']))
  | emptyObject {blanks : Text} (hb : IsBlank blanks) :
      Sentence L ('\x7b' :: (blanks ++ ['\x7d']))
  | object {es : List Entry} (hne : es ≠ []) (hb : ∀ e ∈ es, e.key.Blank ∧ e.value.Blank)
      (hk : ∀ e ∈ es, L.IsString e.key.text) (hv : ∀ e ∈ es, Sentence L e.value.text) :
      Sentence L ('\x7b' :: (Text.join "," (es.map Entry.full) ++ ['\x7d']))

/-- The texts of values with blanks around them. -/
def Document (L : Lexicon) (t : Text) : Prop :=
  ∃ p : Padded, p.Blank ∧ Sentence L p.text ∧ t = p.full

variable {L M : Lexicon} {t : Text}

theorem Sentence.mono (hle : L.Le M) (h : Sentence L t) : Sentence M t := by
  induction h with
  | null => exact .null
  | bool b => exact .bool b
  | number h => exact .number (hle.number _ h)
  | string h => exact .string (h.mono hle)
  | emptyArray hb => exact .emptyArray hb
  | array hne hb _ ih => exact .array hne hb ih
  | emptyObject hb => exact .emptyObject hb
  | object hne hb hk _ ih => exact .object hne hb (fun e he => (hk e he).mono hle) ih

/-- A document stays one under a wider lexicon. -/
theorem Document.mono (hle : L.Le M) (h : Document L t) : Document M t := by
  obtain ⟨p, hp, hs, rfl⟩ := h
  exact ⟨p, hp, hs.mono hle, rfl⟩

end Json

end CrossEdition
