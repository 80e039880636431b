import CrossEdition.Decimal.Shortest
import CrossEdition.Json.Basic

/-!
# Printing JSON

The text of a value without blanks, as commands need it. Control characters are
escaped and all other characters written as they are; numbers that are not finite
become `null`.

Results:
* `escapeChar_printable`: no control character is left in an escaped text.
-/

namespace CrossEdition

namespace Json

/-- A number below sixteen as a hexadecimal digit. -/
def hexDigit (n : Nat) : Char :=
  Nat.digitChar n

/-- A character of a string as it is written. -/
def escapeChar (c : Char) : Text :=
  if c = '"' then "\\\""
  else if c = '\\' then "\\\\"
  else if c = '\n' then "\\n"
  else if c = '\r' then "\\r"
  else if c = '\t' then "\\t"
  else if c = '\x08' then "\\b"
  else if c = '\x0c' then "\\f"
  else if c.toNat < 0x20 then
    ['\\', 'u', '0', '0', hexDigit (c.toNat / 16), hexDigit (c.toNat % 16)]
  else [c]

/-- The text of a string. -/
def printString (t : Text) : Text :=
  '"' :: t.flatMap escapeChar ++ ['"']

/-- The text of a number. -/
def printNumber : Double → Text
  | .nan | .infinite _ => "null"
  | n => n.text

mutual

/-- The text of a value. -/
def print : Json → Text
  | null => "null"
  | bool b => if b then "true" else "false"
  | number n => printNumber n
  | string t => printString t
  | array items => '[' :: printItems items ++ [']']
  | object entries => '{' :: printEntries entries ++ ['}']

/-- The items of an array, with commas between them. -/
def printItems : List Json → Text
  | [] => []
  | [item] => print item
  | item :: rest => print item ++ ',' :: printItems rest

/-- The entries of an object, with commas between them. -/
def printEntries : List (Text × Json) → Text
  | [] => []
  | [(key, value)] => printString key ++ ':' :: print value
  | (key, value) :: rest => printString key ++ ':' :: print value ++ ',' :: printEntries rest

end

theorem hexDigit_printable {n : Nat} (h : n < 16) : 0x20 ≤ (hexDigit n).toNat := by
  have : ∀ m : Fin 16, 0x20 ≤ (hexDigit m).toNat := by decide
  exact this ⟨n, h⟩

theorem escapeChar_printable {c d : Char} (h : d ∈ escapeChar c) : 0x20 ≤ d.toNat := by
  have short : ∀ t ∈ (["\\\"", "\\\\", "\\n", "\\r", "\\t", "\\b", "\\f"] : List Text),
      ∀ d ∈ t, 0x20 ≤ d.toNat := by decide
  unfold escapeChar at h
  split at h
  · exact short _ (by decide) d h
  iterate 6
    split at h
    · exact short _ (by decide) d h
  split at h
  · next hc =>
    simp only [List.mem_cons, List.not_mem_nil, or_false] at h
    rcases h with rfl | rfl | rfl | rfl | rfl | rfl
    any_goals decide
    · exact hexDigit_printable (by omega)
    · exact hexDigit_printable (by omega)
  · next hc =>
    rw [List.mem_singleton] at h
    rw [h]
    omega

end Json

end CrossEdition
