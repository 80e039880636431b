import CrossEdition.Item.Clause

/-!
# Item clauses as NBT

Java looks for items in the data of an entity: what is worn by its equipment key,
all other items in the list of the inventory. Of several clauses for one equipment
key the last counts, at the place of the first.

Results:
* `lookup_putWorn`: what is put on under a key is what the key holds.
-/

namespace CrossEdition

namespace Item

/-- Where a clause goes in Java's data. -/
inductive Placement where
  | worn (key : Text) (entry : Text)
  | carried (entry : Text)
deriving DecidableEq, Repr

/-- The clauses that a `hasitem` value spells: itself if it is a compound, or the
    compounds in it if it is a list. -/
def clauses (value : Text) : Noted (List (List (Text × Tag))) :=
  match Snbt.read '=' value with
  | .ok (.compound entries) => pure [entries]
  | .ok (.list items) => pure (items.filterMap Tag.entries?)
  | .ok _ => pure []
  | .error e => do
    Noted.note (.hasitemUnreadable value e)
    pure []

/-- An item with a namespace, which is `minecraft` unless it has one. -/
def namespaced (item : Text) : Text :=
  if ':' ∈ item then item else "minecraft:" ++ item

/-- Whether the quantity of a clause allows it to be kept. -/
def admitsQuantity (item : Text) : Option Text → Noted Bool
  | none => pure true
  | some quantity =>
    if quantity.head? = some '!' then do
      Noted.note .quantityNegated
      pure true
    else if ItemClause.requiresAbsence quantity then do
      Noted.note (.absenceRequired item quantity)
      pure false
    else do
      Noted.note (.quantityRepresented quantity (ItemClause.representativeCount quantity))
      pure true

/-- Where a clause goes, or nothing if it is skipped. -/
def placement? (clause : List (Text × Tag)) : Noted (Option Placement) :=
  let scalar? (key : Text) := (clause.lookup key).bind Tag.scalar?
  match scalar? "item" with
  | none => do
    Noted.note .clauseWithoutItem
    pure none
  | some item => do
    let id : Text := "id:\"" ++ namespaced item ++ "\"\x7d"
    if ← admitsQuantity item (scalar? "quantity") then
      match scalar? "location" with
      | none => pure (some (.carried ('{' :: id)))
      | some location =>
        match equipmentKey? location with
        | some key => pure (some (.worn key ('{' :: id)))
        | none =>
          match ← slotOfPlace? location (scalar? "slot") with
          | some slot => pure (some (.carried ("\x7bSlot:" ++ Text.ofInt slot ++ "b," ++ id)))
          | none => pure (some (.carried ('{' :: id)))
    else pure none

/-- The worn entries with one more under `key`, in the place of an earlier one if
    there is one. -/
def putWorn (key entry : Text) : List (Text × Text) → List (Text × Text)
  | [] => [(key, entry)]
  | (k, e) :: rest => if k = key then (k, entry) :: rest else (k, e) :: putWorn key entry rest

/-- The entries of the inventory. -/
def carried (placements : List Placement) : List Text :=
  placements.filterMap fun
    | .carried entry => some entry
    | .worn .. => none

/-- The entries of the equipment. -/
def worn (placements : List Placement) : List (Text × Text) :=
  placements.foldl
    (fun worn => fun
      | .carried _ => worn
      | .worn key entry => putWorn key entry worn)
    []

/-- The compounds that look for placed items: one for the inventory and one for the
    equipment. -/
def compounds (placements : List Placement) : List Text :=
  let inventory := carried placements
  let equipment := worn placements
  (if inventory = [] then [] else ["\x7bInventory:[" ++ Text.join "," inventory ++ "]\x7d"])
    ++ if equipment = [] then [] else
      ["\x7bequipment:\x7b"
        ++ Text.join "," (equipment.map fun (key, entry) => key ++ ':' :: entry) ++ "\x7d\x7d"]

/-- The Java compounds that look for the items of `hasitem` values. -/
def toNbt (values : List Text) : Noted (List Text) := do
  let clauses ← Noted.all (values.map clauses)
  let placements ← Noted.all (clauses.flatten.map placement?)
  let found := compounds (placements.filterMap id)
  if found ≠ [] then
    Noted.note .hasitemConverted
  pure found

theorem lookup_putWorn (key entry : Text) (worn : List (Text × Text)) :
    (putWorn key entry worn).lookup key = some entry := by
  induction worn with
  | nil => simp [putWorn]
  | cons w rest ih =>
    obtain ⟨k, e⟩ := w
    by_cases h : k = key
    · simp [putWorn, h]
    · have : (key == k) = false := by simpa using Ne.symm h
      simp [putWorn, h, List.lookup_cons, this, ih]

end Item

end CrossEdition
