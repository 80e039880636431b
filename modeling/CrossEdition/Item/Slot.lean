import CrossEdition.Note

/-!
# Places of items

Bedrock names the place of an item by a location, with a slot number inside it; Java
numbers all slots of an inventory and names the places of equipment.

Results:
* `equipmentKey?_mem`: a location and the key found for it stand side by side in the
  equipment table.
-/

namespace CrossEdition

namespace Item

/-- The location of the held item. -/
def mainhand : Text := "slot.weapon.mainhand"

/-- The location of the item in the other hand. -/
def offhand : Text := "slot.weapon.offhand"

/-- The location of the quick access bar. -/
def hotbar : Text := "slot.hotbar"

/-- The location of the inventory. -/
def inventory : Text := "slot.inventory"

/-- Java's equipment keys with their Bedrock locations. -/
def equipment : List (Text × Text) :=
  [("head", "slot.armor.head"), ("chest", "slot.armor.chest"), ("legs", "slot.armor.legs"),
    ("feet", "slot.armor.feet"), ("offhand", offhand)]

/-- The Bedrock location of an equipment key. -/
def equipmentLocation? (key : Text) : Option Text :=
  equipment.lookup key

/-- The equipment key of a Bedrock location. -/
def equipmentKey? (location : Text) : Option Text :=
  (equipment.find? (·.2 = location)).map (·.1)

/-- The Bedrock location of a Java slot, with the slot number that it needs. -/
def placeOfSlot (slot : Int) : Text × Option Int :=
  if slot = 0 then (mainhand, none)
  else if slot = 1 then (offhand, none)
  else if 2 ≤ slot ∧ slot ≤ 8 then (hotbar, some slot)
  else (inventory, some slot)

/-- The Java slot of a Bedrock location with its slot number, which may be a range
    that stands for its first number. -/
def slotOfPlace? (location : Text) (slot : Option Text) : Noted (Option Int) :=
  if location = mainhand then pure (some 0)
  else if location = hotbar ∨ location = inventory then
    match slot with
    | none => do
      Noted.note (.locationWithoutSlot location)
      pure none
    | some slot =>
      if slot.head? = some '!' then do
        Noted.note .slotNegated
        pure none
      else
        let first := match Bounds.ofText? slot with
          | some bounds => bounds.minValue?.or bounds.maxValue?
          | none => Numeral.value? slot
        match first.filter (Double.le (.zero false)) with
        | some n => pure (some n.truncate)
        | none => do
          Noted.note (.invalidSlot slot)
          pure none
  else do
    Noted.note (.unknownLocation location)
    pure none

theorem equipmentKey?_mem {location key : Text} (h : equipmentKey? location = some key) :
    (key, location) ∈ equipment := by
  simp only [equipmentKey?, Option.map_eq_some_iff] at h
  obtain ⟨⟨k, l⟩, hf, rfl⟩ := h
  have hl : l = location := by simpa using List.find?_some hf
  exact hl ▸ List.mem_of_find?_eq_some hf

end Item

end CrossEdition
