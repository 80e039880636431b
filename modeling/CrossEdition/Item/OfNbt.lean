import CrossEdition.Item.Clause
import CrossEdition.Decimal.Shortest
import CrossEdition.Text.DecimalDigit

/-!
# NBT as item clauses

What a Java `nbt` compound says about items, as clauses that Bedrock can look for:
the selected item, the inventory, the equipment, a lying item, and the compound
itself if it has an id. Entity tags and types become parameters of their own.
-/

namespace CrossEdition

namespace Item

/-- The letters that mark the type of a number. -/
def numberSuffixes : Text :=
  "bBsSlLfFdD"

/-- The fraction of a number, with its point, if the text begins with one that has
    digits. -/
def numberFraction : Text → Text × Text
  | '.' :: rest =>
    let digits := rest.takeWhile Text.isDecimalDigit
    if digits = [] then ([], '.' :: rest) else ('.' :: digits, rest.dropWhile Text.isDecimalDigit)
  | rest => ([], rest)

/-- The numeral of a tagged number: `3b` gives `3` and `1.50f` gives `1.5`. Digits
    of any script count. -/
def number? (t : Text) : Option Text :=
  let t := Text.trim t
  let (sign, body) : Text × Text := match t with
    | '-' :: body => ("-", body)
    | body => ("", body)
  let whole := body.takeWhile Text.isDecimalDigit
  let (fraction, rest) := numberFraction (body.dropWhile Text.isDecimalDigit)
  if whole ≠ [] ∧ (rest = [] ∨ ∃ c ∈ numberSuffixes, rest = [c]) then
    some (Numeral.normalize (sign ++ whole ++ fraction))
  else none

/-- The clause of an item compound, before it is placed. Any count asks for at least
    that many. -/
def clause? (tag : Tag) : Option ItemClause := do
  let id ← (tag.get? "id").bind Tag.scalar?
  let count := ((tag.get? "Count").or (tag.get? "count")).bind Tag.scalar?
  let quantity := (count.bind number?).map fun n : Text => n ++ ".."
  some ⟨(Text.after? "minecraft:" id).getD id, quantity, none, none⟩

/-- The clause placed by a Java slot. A slot that is not numeric does not count, and
    an item in a negative slot is skipped. -/
def place? (c : ItemClause) (slot : Tag) : Noted (Option ItemClause) :=
  match (slot.scalar?.bind number?).bind Numeral.value? with
  | none => do
    Noted.note .slotNotNumeric
    pure (some c)
  | some n =>
    if n.lt (.zero false) then do
      Noted.note (.slotNegative n.text)
      pure none
    else
      let (location, index) := placeOfSlot n.truncate
      pure (some { c with location := some location, slot := index.map Text.ofInt })

/-- The clause of a compound with a slot, or the clause `unplaced` makes of it
    without one. -/
def slotted? (tag : Tag) (unplaced : ItemClause → ItemClause) : Noted (Option ItemClause) :=
  match clause? tag with
  | none => pure none
  | some c =>
    match tag.get? "Slot" with
    | some slot => place? c slot
    | none => pure (some (unplaced c))

/-- The clause of an entry of the equipment. -/
def wornClause? (key : Text) (tag : Tag) : Noted (Option ItemClause) :=
  match equipmentLocation? key with
  | none => do
    Noted.note (.unknownEquipment key)
    pure none
  | some location => pure ((clause? tag).map fun c => { c with location := some location })

/-- What a compound says about items, and the parameters for its entity markers. -/
structure Findings where
  items : List ItemClause
  extras : List Parameter
deriving DecidableEq, Repr

/-- The items that a compound holds, in the order: selected item, inventory,
    equipment, lying item, the compound itself. -/
def itemsOf (tag : Tag) : Noted (List ItemClause) := do
  let held := (tag.get? "SelectedItem").toList
  let stored := ((tag.get? "Inventory").bind Tag.items?).getD []
  let worn := ((tag.get? "equipment").bind Tag.entries?).getD []
  let selected ← Noted.all (held.map (slotted? · fun c => { c with location := some mainhand }))
  let inventory ← Noted.all (stored.map (slotted? · id))
  let equipment ← Noted.all (worn.map fun (key, item) => wornClause? key item)
  let lying := (tag.get? "Item").bind clause?
  pure ((selected ++ inventory ++ equipment ++ [lying, clause? tag]).filterMap id)

/-- The parameter for the first entity tag of a compound. -/
def tagParameter? (tag : Tag) : Noted (Option Parameter) := do
  let tags := ((tag.get? "Tags").bind Tag.items?).getD []
  match tags.findSome? Tag.scalar? with
  | none => pure none
  | some first =>
    if 1 < tags.length then
      Noted.note (.moreTags tags.length first)
    pure (some (.ofTexts "tag" first))

/-- The parameter for the entity type of a compound. -/
def typeParameter? (tag : Tag) : Option Parameter :=
  ((tag.get? "Type").bind Tag.scalar?).map (.ofTexts "type")

/-- What an `nbt` value says about items; nothing if it says nothing about items,
    tags or types. -/
def findings? (nbt : Text) : Noted (Option Findings) :=
  match Snbt.read ':' nbt with
  | .error e => do
    Noted.note (.nbtUnreadable nbt e)
    pure none
  | .ok (.compound entries) => do
    Noted.note (.nbtRead (Snbt.outline entries))
    let tag := Tag.compound entries
    let items ← itemsOf tag
    let extras := (← tagParameter? tag).toList ++ (typeParameter? tag).toList
    if items = [] ∧ extras = [] then pure none
    else do
      Noted.note (.nbtConverted nbt)
      pure (some ⟨items, extras⟩)
  | .ok _ => pure none

/-- The Bedrock parameters that findings become. -/
def Findings.parameters (f : Findings) : List Parameter :=
  (ItemClause.parameter? f.items).toList ++ f.extras

/-- The Bedrock parameters that stand for an `nbt` value, if any can. -/
def ofNbt? (nbt : Text) : Noted (Option (List Parameter)) := do
  let found ← findings? nbt
  pure (found.map Findings.parameters)

end Item

end CrossEdition
