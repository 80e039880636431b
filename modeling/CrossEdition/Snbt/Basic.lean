import CrossEdition.Text.Blank

/-!
# Stringified NBT

The trees that stand in parameter values: compounds, lists and scalars. Java writes
`{key:value}` and Bedrock `{key=value}`; the separator between key and value is the
only difference, so it is a parameter of printing and reading.

Results:
* `isBareChar_ascii`: keys without quotes are ASCII.
-/

namespace CrossEdition

/-- A tree of stringified NBT. -/
inductive Tag where
  | compound (entries : List (Text × Tag))
  | list (items : List Tag)
  /-- The content of a quoted string. -/
  | string (content : Text)
  /-- Unquoted text, kept as it is: `3b`, `1.5f`, `slot.hotbar`, `1..5`. -/
  | value (text : Text)

namespace Tag

/-- The first entry of a compound with this key. -/
def get? (key : Text) : Tag → Option Tag
  | compound entries => entries.lookup key
  | _ => none

/-- The text of a scalar, quoted or not. -/
def scalar? : Tag → Option Text
  | string t | value t => some t
  | _ => none

/-- The items of a list. -/
def items? : Tag → Option (List Tag)
  | list items => some items
  | _ => none

/-- The entries of a compound. -/
def entries? : Tag → Option (List (Text × Tag))
  | compound entries => some entries
  | _ => none

mutual

/-- Whether two trees are equal, constructor by constructor. -/
def decEq : (s t : Tag) → Decidable (s = t)
  | .compound xs, .compound ys =>
    have := decEqEntries xs ys
    decidable_of_iff (xs = ys) (by simp)
  | .list xs, .list ys =>
    have := decEqItems xs ys
    decidable_of_iff (xs = ys) (by simp)
  | .string x, .string y => decidable_of_iff (x = y) (by simp)
  | .value x, .value y => decidable_of_iff (x = y) (by simp)
  | .compound _, .list _ | .compound _, .string _ | .compound _, .value _
  | .list _, .compound _ | .list _, .string _ | .list _, .value _
  | .string _, .compound _ | .string _, .list _ | .string _, .value _
  | .value _, .compound _ | .value _, .list _ | .value _, .string _ => isFalse (by simp)

/-- Whether two lists of entries are equal. -/
def decEqEntries : (xs ys : List (Text × Tag)) → Decidable (xs = ys)
  | [], [] => isTrue rfl
  | [], _ :: _ | _ :: _, [] => isFalse (by simp)
  | (k, s) :: xs, (l, t) :: ys =>
    have := decEq s t
    have := decEqEntries xs ys
    decidable_of_iff ((k = l ∧ s = t) ∧ xs = ys) (by simp)

/-- Whether two lists of items are equal. -/
def decEqItems : (xs ys : List Tag) → Decidable (xs = ys)
  | [], [] => isTrue rfl
  | [], _ :: _ | _ :: _, [] => isFalse (by simp)
  | s :: xs, t :: ys =>
    have := decEq s t
    have := decEqItems xs ys
    decidable_of_iff (s = t ∧ xs = ys) (by simp)

end

instance : DecidableEq Tag := decEq

end Tag

namespace Snbt

/-- Whether a character may stand in a key without quotes. -/
def isBareChar (c : Char) : Bool :=
  c.isAlphanum || c = '_' || c = '-' || c = '.' || c = '+'

/-- Whether a key needs no quotes. -/
def isBareKey (key : Text) : Bool :=
  key ≠ [] && key.all isBareChar

/-- The inside of a quoted string: quotes and backslashes follow a backslash. -/
def escape : Text → Text
  | [] => []
  | c :: rest => if c = '"' ∨ c = '\\' then '\\' :: c :: escape rest else c :: escape rest

/-- A string in double quotes. -/
def quoted (t : Text) : Text :=
  '"' :: escape t ++ ['"']

/-- The text of a key. -/
def keyText (key : Text) : Text :=
  if isBareKey key then key else quoted key

mutual

/-- The text of a tree, with `separator` between keys and values. -/
def print (separator : Char) : Tag → Text
  | .compound entries => '{' :: printEntries separator entries ++ ['}']
  | .list items => '[' :: printItems separator items ++ [']']
  | .string content => quoted content
  | .value text => text

/-- The entries of a compound, with commas between them. -/
def printEntries (separator : Char) : List (Text × Tag) → Text
  | [] => []
  | [(key, tag)] => keyText key ++ separator :: print separator tag
  | (key, tag) :: rest =>
    keyText key ++ separator :: print separator tag ++ ',' :: printEntries separator rest

/-- The items of a list, with commas between them. -/
def printItems (separator : Char) : List Tag → Text
  | [] => []
  | [tag] => print separator tag
  | tag :: rest => print separator tag ++ ',' :: printItems separator rest

end

/-- The keys of a compound, as log records show them. -/
def outline (entries : List (Text × Tag)) : Text :=
  '{' :: Text.join "," (entries.map (·.1)) ++ ['}']

theorem isBareChar_ascii {c : Char} (h : isBareChar c = true) : c.toNat < 128 := by
  simp only [isBareChar, Bool.or_eq_true, decide_eq_true_eq] at h
  rcases h with (((h | rfl) | rfl) | rfl) | rfl
  · have hle : c.val ≤ 'Z'.val ∨ c.val ≤ 'z'.val ∨ c.val ≤ '9'.val := by
      rcases Bool.or_eq_true_iff.1 h with h | h
      · rcases Bool.or_eq_true_iff.1 h with h | h
        · exact .inl (of_decide_eq_true h).2
        · exact .inr (.inl (of_decide_eq_true (Bool.and_eq_true_iff.1 h).2))
      · exact .inr (.inr (of_decide_eq_true (Bool.and_eq_true_iff.1 h).2))
    rcases hle with h | h | h <;> exact Nat.lt_of_le_of_lt h (by decide)
  all_goals decide

end Snbt

end CrossEdition
