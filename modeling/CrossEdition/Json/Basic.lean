import CrossEdition.Decimal.Double

/-!
# JSON values

JSON values with the entries of an object in their order, repeated keys included.

Results:
* `get?_insert`: an entry that is put in under a new key is found under it.
-/

namespace CrossEdition

/-- A JSON value. -/
inductive Json where
  | null
  | bool (value : Bool)
  | number (value : Double)
  | string (content : Text)
  | array (items : List Json)
  | object (entries : List (Text × Json))

namespace Json

/-- An object with one entry. -/
def single (key : Text) (value : Json) : Json :=
  object [(key, value)]

/-- The value of the first entry with this key. -/
def get? (key : Text) : Json → Option Json
  | object entries => entries.lookup key
  | _ => none

/-- The content of a string. -/
def string? : Json → Option Text
  | string t => some t
  | _ => none

/-- The items of an array. -/
def items? : Json → Option (List Json)
  | array items => some items
  | _ => none

/-- The object with one more entry behind its own. Other values stay as they are. -/
def insert (j : Json) (key : Text) (value : Json) : Json :=
  match j with
  | object entries => object (entries ++ [(key, value)])
  | other => other

theorem get?_insert {key : Text} {value : Json} {entries : List (Text × Json)}
    (h : (object entries).get? key = none) :
    ((object entries).insert key value).get? key = some value := by
  change entries.lookup key = none at h
  change (entries ++ [(key, value)]).lookup key = some value
  induction entries with
  | nil => simp
  | cons e rest ih =>
    obtain ⟨k, v⟩ := e
    rw [List.cons_append, List.lookup_cons]
    rw [List.lookup_cons] at h
    cases hk : key == k with
    | true => simp [hk] at h
    | false => exact ih (by simpa [hk] using h)

end Json

end CrossEdition
