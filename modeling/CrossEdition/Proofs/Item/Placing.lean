import CrossEdition.Proofs.Item.Clauses

/-!
# Placed clauses as trees

Where the clauses of `hasitem` values go in Java's data is stated on the clauses, not on the
texts that are written for them. The compounds are then printed trees, as long as no name
holds a character that a quoted string would have to escape, since names are not escaped.

Results:
* `toNbt_value`: the placements are those of the kept clauses.
* `compounds_placement`, `texts_eq_print`: the texts for them are printed trees if the names
  are plain.
* `ids_inventoryTag`, `ids_equipmentTag`: the trees hold the names that they look for, in order.
-/

namespace CrossEdition

namespace Item

/-! ## Places -/

/-- Where Java looks for the item of a clause. -/
inductive Place where
  /-- Under a key of the equipment. -/
  | worn (key : Text)
  /-- In the inventory, perhaps in one slot. -/
  | carried (slot : Option Int)

/-- Where a location with a slot number is. -/
def placeOf (location slot : Option Text) : Place :=
  match location with
  | none => .carried none
  | some location =>
    match equipmentKey? location with
    | some key => .worn key
    | none => .carried (slotOfPlace? location slot).value

/-- The text of a compound that looks for an item. -/
def entryText (slot : Option Int) (name : Text) : Text :=
  '{' :: ((slot.map fun n => "Slot:" ++ Text.ofInt n ++ "b,").getD []
    ++ ("id:\"" ++ name ++ "\"\x7d"))

/-- Where an item with a name goes. -/
def Place.placement (name : Text) : Place → Placement
  | .worn key => .worn key (entryText none name)
  | .carried slot => .carried (entryText slot name)

end Item

namespace ItemClause

/-- Whether the quantity of a clause allows Java to look for its item. -/
def isKept (c : ItemClause) : Bool :=
  (Item.admitsQuantity c.item c.quantity).value

/-- Where Java looks for the item of a clause. -/
def place (c : ItemClause) : Item.Place :=
  Item.placeOf c.location c.slot

/-- The name by which Java looks for the item of a clause. -/
def name (c : ItemClause) : Text :=
  Item.namespaced c.item

end ItemClause

namespace Item

/-- A clause that names an item goes to its place if it is kept. -/
theorem placement?_value (entries : List (Text × Tag)) : (placement? entries).value =
    ((ItemClause.ofEntries? entries).filter (·.isKept)).map fun c => c.place.placement c.name := by
  unfold placement? ItemClause.ofEntries? ItemClause.field?
  cases hitem : (entries.lookup ("item" : Text)).bind Tag.scalar? with
  | none =>
    simp only [hitem]
    rfl
  | some item =>
    simp only [hitem, Noted.value_bind, Option.map_some, Option.filter_some]
    generalize (entries.lookup ("quantity" : Text)).bind Tag.scalar? = quantity
    generalize (entries.lookup ("location" : Text)).bind Tag.scalar? = location
    generalize (entries.lookup ("slot" : Text)).bind Tag.scalar? = slot
    have hkept : (ItemClause.mk item quantity location slot).isKept =
        (admitsQuantity item quantity).value := rfl
    rw [hkept]
    by_cases hq : (admitsQuantity item quantity).value = true
    · rw [if_pos hq, if_pos hq, Option.map_some]
      simp only [ItemClause.place, ItemClause.name, placeOf]
      cases location with
      | none => rfl
      | some location =>
        cases hkey : equipmentKey? location with
        | some key => simp only [hkey]; rfl
        | none =>
          simp only [hkey, Noted.value_bind]
          cases (slotOfPlace? location slot).value with
          | none => rfl
          | some n => simp [Place.placement, entryText]
    · rw [if_neg hq, if_neg hq]
      rfl

/-- The clauses of `hasitem` values whose items Java looks for. -/
def kept (values : List Text) : List ItemClause :=
  ((values.flatMap fun value => (clauses value).value).filterMap ItemClause.ofEntries?).filter
    (·.isKept)

/-- The placements are those of the kept clauses. -/
theorem toNbt_value (values : List Text) : (toNbt values).value =
    compounds ((kept values).map fun c => c.place.placement c.name) := by
  have hplaced : ∀ entries : List (List (Text × Tag)),
      (entries.map fun clause => (placement? clause).value).filterMap id =
        ((entries.filterMap ItemClause.ofEntries?).filter (·.isKept)).map fun c =>
          c.place.placement c.name := by
    intro entries
    rw [List.filterMap_map, List.filter_filterMap, List.map_filterMap]
    exact List.filterMap_congr fun clause _ => placement?_value clause
  unfold toNbt
  simp only [Noted.value_bind, Noted.value_all, List.map_map]
  rw [kept, ← hplaced, List.flatMap_def]
  split_ifs
  · rfl
  · rfl

/-! ## Names -/

/-- The slot and the name of a clause whose item is carried. -/
def carriedName? (c : ItemClause) : Option (Option Int × Text) :=
  match c.place with
  | .carried slot => some (slot, c.name)
  | .worn _ => none

/-- The worn names by their keys, with one more if the item of the clause is worn. -/
def putName (worn : List (Text × Text)) (c : ItemClause) : List (Text × Text) :=
  match c.place with
  | .carried _ => worn
  | .worn key => putWorn key c.name worn

/-- The slots and the names of the carried items, in order. -/
def carriedNames (cs : List ItemClause) : List (Option Int × Text) :=
  cs.filterMap carriedName?

/-- The names of the worn items by their keys. -/
def wornNames (cs : List ItemClause) : List (Text × Text) :=
  cs.foldl putName []

theorem carried_placement (cs : List ItemClause) :
    carried (cs.map fun c => c.place.placement c.name) =
      (carriedNames cs).map fun item => entryText item.1 item.2 := by
  rw [carried, carriedNames, List.filterMap_map, List.map_filterMap]
  refine List.filterMap_congr fun c _ => ?_
  simp only [Function.comp, carriedName?]
  cases c.place <;> rfl

theorem map_putWorn {f : Text → Text} (key entry : Text) (worn : List (Text × Text)) :
    (putWorn key entry worn).map (fun w => (w.1, f w.2)) =
      putWorn key (f entry) (worn.map fun w => (w.1, f w.2)) := by
  induction worn with
  | nil => rfl
  | cons w rest ih =>
    obtain ⟨k, e⟩ := w
    by_cases h : k = key
    · simp [putWorn, h]
    · simp [putWorn, h, ih]

theorem worn_placement (cs : List ItemClause) :
    worn (cs.map fun c => c.place.placement c.name) =
      (wornNames cs).map fun w => (w.1, entryText none w.2) := by
  rw [worn, wornNames, List.foldl_map]
  show cs.foldl _ (([] : List (Text × Text)).map fun w => (w.1, entryText none w.2)) = _
  refine List.foldl_hom (fun w : List (Text × Text) => w.map fun w => (w.1, entryText none w.2))
    fun w c => ?_
  unfold putName
  cases c.place with
  | carried slot => rfl
  | worn key => exact (map_putWorn key c.name w).symm

/-- What is put on comes from the clause or was there before. -/
theorem mem_putWorn {key entry : Text} {worn : List (Text × Text)} {w : Text × Text}
    (h : w ∈ putWorn key entry worn) : w ∈ worn ∨ w = (key, entry) := by
  induction worn with
  | nil => exact .inr (by simpa [putWorn] using h)
  | cons v rest ih =>
    obtain ⟨k, e⟩ := v
    unfold putWorn at h
    split_ifs at h with hk
    · rcases List.mem_cons.1 h with rfl | h
      · exact .inr (by rw [hk])
      · exact .inl (List.mem_cons_of_mem _ h)
    · rcases List.mem_cons.1 h with rfl | h
      · exact .inl (by simp)
      · exact (ih h).imp_left (List.mem_cons_of_mem _)

/-- The keys of worn items are keys of the equipment. -/
theorem exists_location_of_place {c : ItemClause} {key : Text} (h : c.place = .worn key) :
    ∃ location, c.location = some location ∧ equipmentKey? location = some key := by
  unfold ItemClause.place placeOf at h
  split at h
  · simp at h
  · next location hl =>
    split at h
    · next key' hk => exact ⟨location, hl, by rw [hk, Place.worn.inj h]⟩
    · simp at h

/-- A worn name is the name of a clause that goes to its key. -/
theorem mem_wornNames {cs : List ItemClause} {w : Text × Text} (h : w ∈ wornNames cs) :
    ∃ c ∈ cs, c.place = .worn w.1 ∧ w.2 = c.name := by
  have hfold : ∀ (cs : List ItemClause) (worn : List (Text × Text)),
      w ∈ cs.foldl putName worn → w ∈ worn ∨ ∃ c ∈ cs, c.place = .worn w.1 ∧ w.2 = c.name := by
    intro cs
    induction cs with
    | nil => exact fun _ h => .inl h
    | cons c cs ih =>
      intro worn hw
      rcases ih _ hw with hw | ⟨c', hc', hp⟩
      · unfold putName at hw
        split at hw
        · exact .inl hw
        · next key hkey =>
          rcases mem_putWorn hw with hw | rfl
          · exact .inl hw
          · exact .inr ⟨c, by simp, hkey, rfl⟩
      · exact .inr ⟨c', List.mem_cons_of_mem _ hc', hp⟩
  simpa using hfold cs [] h

theorem mem_carriedNames {cs : List ItemClause} {item : Option Int × Text}
    (h : item ∈ carriedNames cs) : ∃ c ∈ cs, c.place = .carried item.1 ∧ item.2 = c.name := by
  obtain ⟨c, hc, hitem⟩ := List.mem_filterMap.1 h
  unfold carriedName? at hitem
  split at hitem
  · next slot hplace =>
    obtain rfl := Option.some.inj hitem
    exact ⟨c, hc, hplace, rfl⟩
  · simp at hitem

theorem keyText_of_mem_wornNames {cs : List ItemClause} {w : Text × Text}
    (h : w ∈ wornNames cs) : Snbt.keyText w.1 = w.1 := by
  have htable : ∀ row ∈ equipment, Snbt.keyText row.1 = row.1 := by
    decide
  obtain ⟨c, -, hplace, -⟩ := mem_wornNames h
  obtain ⟨location, -, hkey⟩ := exists_location_of_place hplace
  exact htable (w.1, location) (equipmentKey?_mem hkey)

/-! ## Trees -/

/-- Whether a name holds nothing that a quoted string would have to escape. -/
def IsPlain (name : Text) : Prop :=
  '"' ∉ name ∧ '\\' ∉ name

instance (name : Text) : Decidable (IsPlain name) :=
  inferInstanceAs (Decidable (_ ∧ _))

/-- The slot of an item as an entry of its compound. -/
def slotEntry (slot : Option Int) : List (Text × Tag) :=
  (slot.map fun n => (("Slot" : Text), Tag.value (Text.ofInt n ++ ['b']))).toList

/-- The tree that looks for one item. -/
def itemTag (slot : Option Int) (name : Text) : Tag :=
  .compound (slotEntry slot ++ [(("id" : Text), .string name)])

/-- The tree that looks for items of the inventory. -/
def inventoryTag (items : List (Option Int × Text)) : Tag :=
  .compound [("Inventory", .list (items.map fun item => itemTag item.1 item.2))]

/-- The tree that looks for items of the equipment. -/
def equipmentTag (worn : List (Text × Text)) : Tag :=
  .compound [("equipment", .compound (worn.map fun w => (w.1, itemTag none w.2)))]

/-- The trees that look for the items of clauses. -/
def trees (cs : List ItemClause) : List Tag :=
  (if carriedNames cs = [] then [] else [inventoryTag (carriedNames cs)])
    ++ if wornNames cs = [] then [] else [equipmentTag (wornNames cs)]

/-- The names that each of the trees holds. -/
def represented (cs : List ItemClause) : List (List Text) :=
  (if carriedNames cs = [] then [] else [(carriedNames cs).map (·.2)])
    ++ if wornNames cs = [] then [] else [(wornNames cs).map (·.2)]

theorem mem_represented {cs : List ItemClause} {names : List Text} {name : Text}
    (h : names ∈ represented cs) (hn : name ∈ names) : ∃ c ∈ cs, name = c.name := by
  rcases List.mem_append.1 h with h | h
  · split_ifs at h
    · simp at h
    · rw [List.mem_singleton.1 h] at hn
      obtain ⟨item, hi, rfl⟩ := List.mem_map.1 hn
      obtain ⟨c, hc, -, he⟩ := mem_carriedNames hi
      exact ⟨c, hc, he⟩
  · split_ifs at h
    · simp at h
    · rw [List.mem_singleton.1 h] at hn
      obtain ⟨w, hw, rfl⟩ := List.mem_map.1 hn
      obtain ⟨c, hc, -, he⟩ := mem_wornNames hw
      exact ⟨c, hc, he⟩

theorem escape_of_isPlain {name : Text} (h : IsPlain name) : Snbt.escape name = name := by
  induction name with
  | nil => rfl
  | cons c rest ih =>
    obtain ⟨hq, hb⟩ := h
    rw [List.mem_cons, not_or] at hq hb
    rw [Snbt.escape, if_neg (not_or.2 ⟨Ne.symm hq.1, Ne.symm hb.1⟩), ih ⟨hq.2, hb.2⟩]

theorem entryText_eq_print {name : Text} (h : IsPlain name) (slot : Option Int) :
    entryText slot name = Snbt.print ':' (itemTag slot name) := by
  have hid : Snbt.keyText ['i', 'd'] = ['i', 'd'] := by
    decide
  have hslot : Snbt.keyText ['S', 'l', 'o', 't'] = ['S', 'l', 'o', 't'] := by
    decide
  cases slot with
  | none =>
    simp [entryText, itemTag, slotEntry, Snbt.print, Snbt.printEntries, Snbt.quoted, hid,
      escape_of_isPlain h]
  | some n =>
    simp [entryText, itemTag, slotEntry, Snbt.print, Snbt.printEntries, Snbt.quoted, hid, hslot,
      escape_of_isPlain h]

/-- The text that looks for items of the inventory. -/
def inventoryText (items : List (Option Int × Text)) : Text :=
  "\x7bInventory:[" ++ Text.join "," (items.map fun item => entryText item.1 item.2) ++ "]\x7d"

/-- The text that looks for items of the equipment. -/
def equipmentText (worn : List (Text × Text)) : Text :=
  "\x7bequipment:\x7b" ++ Text.join "," (worn.map fun w => w.1 ++ ':' :: entryText none w.2)
    ++ "\x7d\x7d"

/-- The texts that look for the items of clauses. -/
def texts (cs : List ItemClause) : List Text :=
  (if carriedNames cs = [] then [] else [inventoryText (carriedNames cs)])
    ++ if wornNames cs = [] then [] else [equipmentText (wornNames cs)]

theorem compounds_placement (cs : List ItemClause) :
    compounds (cs.map fun c => c.place.placement c.name) = texts cs := by
  unfold compounds texts
  simp only [carried_placement, worn_placement, List.map_eq_nil_iff, List.map_map]
  rfl

theorem print_inventoryTag (items : List (Option Int × Text)) :
    Snbt.print ':' (inventoryTag items) =
      "\x7bInventory:["
        ++ Text.join "," (items.map fun item => Snbt.print ':' (itemTag item.1 item.2))
        ++ "]\x7d" := by
  have hkey : Snbt.keyText ['I', 'n', 'v', 'e', 'n', 't', 'o', 'r', 'y'] = "Inventory" := by
    decide
  simp [inventoryTag, Snbt.print, Snbt.printEntries, Snbt.printItems_eq_join, hkey,
    Function.comp_def]

theorem print_equipmentTag {worn : List (Text × Text)}
    (hkeys : ∀ w ∈ worn, Snbt.keyText w.1 = w.1) :
    Snbt.print ':' (equipmentTag worn) =
      "\x7bequipment:\x7b"
        ++ Text.join "," (worn.map fun w => w.1 ++ ':' :: Snbt.print ':' (itemTag none w.2))
        ++ "\x7d\x7d" := by
  have hkey : Snbt.keyText ['e', 'q', 'u', 'i', 'p', 'm', 'e', 'n', 't'] = "equipment" := by
    decide
  have hentries : worn.map (fun w => Snbt.entryText ':' (w.1, itemTag none w.2)) =
      worn.map fun w => w.1 ++ ':' :: Snbt.print ':' (itemTag none w.2) :=
    List.map_congr_left fun w hw => by rw [Snbt.entryText, hkeys w hw]
  simp [equipmentTag, Snbt.print, Snbt.printEntries, hkey, Snbt.printEntries_eq_join, hentries,
    Function.comp_def]

theorem inventoryText_eq_print {items : List (Option Int × Text)}
    (h : ∀ item ∈ items, IsPlain item.2) :
    inventoryText items = Snbt.print ':' (inventoryTag items) := by
  have hitems : items.map (fun item => entryText item.1 item.2) =
      items.map fun item => Snbt.print ':' (itemTag item.1 item.2) :=
    List.map_congr_left fun item hi => entryText_eq_print (h item hi) _
  unfold inventoryText
  rw [print_inventoryTag, hitems]

theorem equipmentText_eq_print {worn : List (Text × Text)}
    (hkeys : ∀ w ∈ worn, Snbt.keyText w.1 = w.1) (h : ∀ w ∈ worn, IsPlain w.2) :
    equipmentText worn = Snbt.print ':' (equipmentTag worn) := by
  have hentries : worn.map (fun w => w.1 ++ ':' :: entryText none w.2) =
      worn.map fun w => w.1 ++ ':' :: Snbt.print ':' (itemTag none w.2) :=
    List.map_congr_left fun w hw => by rw [entryText_eq_print (h w hw)]
  unfold equipmentText
  rw [print_equipmentTag hkeys, hentries]

/-- The texts are printed trees if the names are plain. -/
theorem texts_eq_print {cs : List ItemClause}
    (h : ∀ names ∈ represented cs, ∀ name ∈ names, IsPlain name) :
    texts cs = (trees cs).map (Snbt.print ':') := by
  have hcarried : ∀ item ∈ carriedNames cs, IsPlain item.2 := fun item hi => by
    have hne : carriedNames cs ≠ [] := List.ne_nil_of_mem hi
    exact h _ (by simp [represented, hne]) _ (List.mem_map_of_mem hi)
  have hworn : ∀ w ∈ wornNames cs, IsPlain w.2 := fun w hw => by
    have hne : wornNames cs ≠ [] := List.ne_nil_of_mem hw
    exact h _ (by simp [represented, hne]) _ (List.mem_map_of_mem hw)
  unfold texts trees
  rw [inventoryText_eq_print hcarried,
    equipmentText_eq_print (fun w hw => keyText_of_mem_wornNames hw) hworn]
  split_ifs <;> rfl

/-! ## Names in trees -/

mutual

/-- The texts that stand under the key `id` in a tree, in order. -/
def ids : Tag → List Text
  | .compound entries => idsOfEntries entries
  | .list items => idsOfItems items
  | .string _ | .value _ => []

/-- The same in the entries of a compound. -/
def idsOfEntries : List (Text × Tag) → List Text
  | [] => []
  | (key, tag) :: rest =>
    (if key = "id" then tag.scalar?.toList else []) ++ ids tag ++ idsOfEntries rest

/-- The same in the items of a list. -/
def idsOfItems : List Tag → List Text
  | [] => []
  | tag :: rest => ids tag ++ idsOfItems rest

end

theorem ids_itemTag (slot : Option Int) (name : Text) : ids (itemTag slot name) = [name] := by
  have hkey : ¬ ("Slot" : Text) = "id" := by decide
  cases slot with
  | none => simp [itemTag, slotEntry, ids, idsOfEntries, Tag.scalar?]
  | some n => simp [itemTag, slotEntry, ids, idsOfEntries, Tag.scalar?]

theorem ids_inventoryTag (items : List (Option Int × Text)) :
    ids (inventoryTag items) = items.map (·.2) := by
  have hitems : idsOfItems (items.map fun item => itemTag item.1 item.2) = items.map (·.2) := by
    induction items with
    | nil => rfl
    | cons item items ih => simp [idsOfItems, ids_itemTag, ih]
  have hkey : ¬ ("Inventory" : Text) = "id" := by decide
  rw [inventoryTag, ids, idsOfEntries, if_neg hkey, ids, hitems]
  simp [idsOfEntries]

theorem ids_equipmentTag (worn : List (Text × Text)) :
    ids (equipmentTag worn) = worn.map (·.2) := by
  have hscalar : ∀ name, (itemTag none name).scalar? = none := fun _ => rfl
  have hentries : idsOfEntries (worn.map fun w => (w.1, itemTag none w.2)) = worn.map (·.2) := by
    induction worn with
    | nil => rfl
    | cons w worn ih => simp [idsOfEntries, ids_itemTag, hscalar, ih]
  have hkey : ¬ ("equipment" : Text) = "id" := by decide
  rw [equipmentTag, ids, idsOfEntries, if_neg hkey, ids, hentries]
  simp [idsOfEntries]

theorem isWord_slot (n : Int) : Snbt.IsWord (Text.ofInt n ++ ['b']) := by
  refine Snbt.isWord_of_isInner (by simp) fun c hc => ?_
  rcases List.mem_append.1 hc with hc | hc
  · exact isInner_of_isNumberChar (isNumberChar_of_mem_ofInt hc)
  · rw [List.mem_singleton.1 hc]
    decide

theorem readable_itemTag (slot : Option Int) (name : Text) :
    Snbt.Readable (itemTag slot name) := by
  rw [itemTag, Snbt.Readable, Snbt.readableEntries_iff]
  intro entry he
  rcases List.mem_append.1 he with he | he
  · obtain ⟨n, -, rfl⟩ := Option.map_eq_some_iff.1 (Option.mem_toList.1 he)
    exact isWord_slot n
  · rw [List.mem_singleton.1 he]
    trivial

theorem readable_inventoryTag (items : List (Option Int × Text)) :
    Snbt.Readable (inventoryTag items) := by
  refine ⟨⟨Snbt.readableItems_iff.2 fun tag ht => ?_, fun mark _ t ht => ?_⟩, trivial⟩
  · obtain ⟨item, -, rfl⟩ := List.mem_map.1 ht
    exact readable_itemTag _ _
  · rw [List.head?_map] at ht
    obtain ⟨item, -, hi⟩ := Option.map_eq_some_iff.1 ht
    exact absurd hi (by simp [itemTag])

theorem readable_equipmentTag (worn : List (Text × Text)) :
    Snbt.Readable (equipmentTag worn) := by
  refine ⟨Snbt.readableEntries_iff.2 fun entry he => ?_, trivial⟩
  obtain ⟨w, -, rfl⟩ := List.mem_map.1 he
  exact readable_itemTag _ _

theorem isSeparator_colon : Snbt.IsSeparator ':' := by
  decide

end Item

end CrossEdition
