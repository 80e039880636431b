import CrossEdition.Text.Blank

/-!
# Entry lists

Contents that list entries between commas. A comma with a backslash in front of it
is part of its entry, and in lists of selectors so is a comma inside brackets.

Results:
* `splitFrom_ne_nil`: there is at least one entry.
-/

namespace CrossEdition

namespace Entry

/-- The entries of a list from some bracket depth on. Brackets count only if
    `nested`. -/
def splitFrom (nested : Bool) : Nat → Text → List Text
  | _, [] => [[]]
  | depth, '\\' :: ',' :: rest => extend ',' (splitFrom nested depth rest)
  | depth, c :: rest =>
    if nested ∧ (c = '[' ∨ c = '{') then extend c (splitFrom nested (depth + 1) rest)
    else if nested ∧ (c = ']' ∨ c = '}') then extend c (splitFrom nested (depth - 1) rest)
    else if c = ',' ∧ depth = 0 then [] :: splitFrom nested depth rest
    else extend c (splitFrom nested depth rest)
where
  /-- The entries with a character in front of the first. -/
  extend (c : Char) : List Text → List Text
    | [] => [[c]]
    | entry :: entries => (c :: entry) :: entries

/-- The entries of a list. -/
def split (nested : Bool) (t : Text) : List Text :=
  splitFrom nested 0 t

/-- An entry without blanks around it, where an empty one means any. -/
def orAny (t : Text) : Text :=
  let t := Text.trim t
  if t = [] then "*" else t

/-- The scores `name:objective` of a list. What is missing means any. -/
def scores (t : Text) : List (Text × Text) :=
  (((split false t).map Text.trim).filter (· ≠ [])).map fun entry =>
    match Text.cut ':' entry with
    | some (name, objective) => (orAny name, orAny objective)
    | none => (orAny entry, "*")

/-- What an entry of a list of selectors is. -/
inductive Item where
  | selector (text : Text)
  | separator (text : Text)
deriving DecidableEq, Repr

/-- The items of a list of selectors. `sep:` introduces a separator, which is a
    comma if nothing follows; other entries are selectors unless they are blank. -/
def items (t : Text) : List Item :=
  (split true t).filterMap fun entry =>
    let entry := Text.trim entry
    match Text.after? "sep:" entry with
    | some [] => some (.separator ",")
    | some separator => some (.separator separator)
    | none => if entry = [] then none else some (.selector entry)

theorem splitFrom_ne_nil (nested : Bool) (depth : Nat) (t : Text) :
    splitFrom nested depth t ≠ [] := by
  have hx : ∀ c ts, splitFrom.extend c ts ≠ [] := by
    intro c ts
    cases ts <;> simp [splitFrom.extend]
  fun_cases splitFrom nested depth t <;> simp_all

end Entry

end CrossEdition
