import CrossEdition.Proofs.Item.Placing
import CrossEdition.Proofs.Snbt.Nesting

/-!
# Clauses that both editions can express

A clause that asks for an item at a place that Java knows comes back from the compound that
looks for it, with the same item, location and slot.

Results:
* `comes_back`: a portable clause comes back from the place it goes to.
* `itemsOf_inventoryTag`, `itemsOf_equipmentTag`: the clauses that come back from the trees of
  portable clauses.
-/

namespace CrossEdition

namespace Item

/-! ## Names -/

/-- Whether a text may be the name of an item, perhaps with a namespace that is not the one
    that Java adds. -/
def IsItemName (t : Text) : Prop :=
  t ≠ [] ∧ (∀ c ∈ t, Snbt.isBareChar c = true ∨ c = ':') ∧ ¬ ("minecraft:" : Text) <+: t

instance (t : Text) : Decidable (IsItemName t) :=
  inferInstanceAs (Decidable (_ ∧ _ ∧ _))

variable {t : Text} {c : ItemClause}

theorem IsItemName.isWord (h : IsItemName t) : Snbt.IsWord t := by
  refine Snbt.isWord_of_isInner h.1 fun c hc => ?_
  rcases h.2.1 c hc with hc | rfl
  · exact Snbt.isInner_of_isBareChar hc
  · decide

theorem IsItemName.isPlain (h : IsItemName t) : IsPlain (namespaced t) := by
  have hmarks : Snbt.isBareChar '"' = false ∧ Snbt.isBareChar '\\' = false := by
    decide
  have hname : IsPlain t := by
    constructor
    · intro hm
      rcases h.2.1 _ hm with hm | hm
      · exact Bool.false_ne_true (hmarks.1.symm.trans hm)
      · exact absurd hm (by decide)
    · intro hm
      rcases h.2.1 _ hm with hm | hm
      · exact Bool.false_ne_true (hmarks.2.symm.trans hm)
      · exact absurd hm (by decide)
  unfold namespaced
  split_ifs
  · exact hname
  · exact ⟨by simp [hname.1], by simp [hname.2]⟩

/-- The namespace that Java adds is taken away again. -/
theorem IsItemName.strip (h : IsItemName t) :
    (Text.after? "minecraft:" (namespaced t)).getD (namespaced t) = t := by
  unfold namespaced
  split_ifs with hc
  · rw [Text.after?, if_neg (by rw [List.isPrefixOf_iff_prefix]; exact h.2.2)]
    rfl
  · simp [Text.after?]

/-! ## Numbers -/

theorem normalize_ofNat (n : Nat) : Numeral.normalize (Text.ofNat n) = Text.ofNat n := by
  have hdigits : ∀ c ∈ Text.ofNat n, c.isDigit = true := fun _ => Text.isDigit_of_mem_ofNat
  have hpoint : (Text.ofNat n).contains '.' = false := by
    rw [← Bool.not_eq_true, List.contains_iff_mem]
    intro hm
    exact absurd (hdigits _ hm) (by decide)
  have htrim : Text.trim (Text.ofNat n) = Text.ofNat n :=
    Numeral.trim_of_isNumeralChar fun c hc => by simp [Numeral.isNumeralChar, hdigits c hc]
  simp only [Numeral.normalize, htrim, hpoint, Bool.and_false, Bool.false_eq_true, if_false]

theorem ofInt_natCast (n : Nat) : Text.ofInt n = Text.ofNat n := by
  simp [Text.ofInt]

/-- The slot that Java is asked for is found as its number. -/
theorem number?_slot (n : Nat) : number? (Text.ofInt n ++ ['b']) = some (Text.ofNat n) := by
  have hdigits : ∀ c ∈ Text.ofNat n, c.isDigit = true := fun _ => Text.isDigit_of_mem_ofNat
  have htrim := (isWord_slot n).2.1
  rw [ofInt_natCast] at htrim ⊢
  obtain ⟨htake, hdrop⟩ := Snbt.takeWhile_append_cons (t := Text.ofNat n) (c := 'b')
    (p := Text.isDecimalDigit) [] (fun d hd => Text.isDecimalDigit_of_isDigit (hdigits d hd))
    (by decide)
  have hfraction : numberFraction ['b'] = ([], ['b']) := rfl
  simp only [number?, htrim]
  split
  · next body h =>
    obtain ⟨d, ds, hd⟩ := List.exists_cons_of_ne_nil (Text.ofNat_ne_nil n)
    rw [hd, List.cons_append] at h
    obtain ⟨rfl, -⟩ := List.cons.inj h
    exact absurd (hdigits '-' (by simp [hd])) (by decide)
  · simp only [htake, hdrop, hfraction]
    rw [if_pos ⟨Text.ofNat_ne_nil n, .inr ⟨'b', by decide, rfl⟩⟩]
    simp [normalize_ofNat]

/-! ## Places -/

theorem slotOfPlace?_ofNat {location : Text} (hl : location = hotbar ∨ location = inventory)
    {n : Nat} (hn : n ≤ 2 ^ 53) :
    (slotOfPlace? location (some (Text.ofNat n))).value = some (n : Int) := by
  have hmain : location ≠ mainhand := by
    rcases hl with rfl | rfl <;> decide
  have hnegated : (Text.ofNat n).head? ≠ some '!' := fun h =>
    absurd (Text.isDigit_of_mem_ofNat (List.mem_of_mem_head? h)) (by decide)
  have hbounds : Bounds.ofText? (Text.ofNat n) = none := by
    have hdots : Text.cutDots (Text.ofNat n) = none := Numeral.cutDots_of_notMem fun hm =>
      absurd (Text.isDigit_of_mem_ofNat hm) (by decide)
    simp [Bounds.ofText?, hdots]
  obtain ⟨hle, -⟩ := Double.zero_le_ofInt hn
  unfold slotOfPlace?
  rw [if_neg hmain, if_pos hl]
  simp only [if_neg hnegated, hbounds, Numeral.value?_ofNat, Option.filter_some, hle, if_true,
    Noted.value_pure, Double.truncate_ofInt hn]

theorem place?_slot (c : ItemClause) {n : Nat} (hn : n ≤ 2 ^ 53) :
    (place? c (.value (Text.ofInt n ++ ['b']))).value = some { c with
      location := some (placeOfSlot n).1, slot := (placeOfSlot n).2.map Text.ofInt } := by
  have hvalue : ((Tag.value (Text.ofInt n ++ ['b'])).scalar?.bind number?).bind Numeral.value? =
      some (.ofInt n) := by
    rw [Tag.scalar?, Option.bind_some, number?_slot, Option.bind_some, Numeral.value?_ofNat]
  obtain ⟨-, hlt⟩ := Double.zero_le_ofInt hn
  unfold place?
  split
  · next h =>
    rw [hvalue] at h
    simp at h
  · next x h =>
    rw [hvalue] at h
    obtain rfl := Option.some.inj h
    rw [if_neg (by rw [hlt]; decide), Double.truncate_ofInt hn]
    generalize placeOfSlot n = place
    obtain ⟨location, index⟩ := place
    rfl

/-! ## Portable clauses -/

/-- The locations with the slot numbers that both editions can name. -/
inductive IsPlace : Option Text → Option Text → Prop
  | anywhere : IsPlace none none
  | mainhand : IsPlace (some mainhand) none
  | hotbar {n : Nat} (hn : 2 ≤ n ∧ n ≤ 8) : IsPlace (some hotbar) (some (Text.ofNat n))
  | inventory {n : Nat} (hn : 9 ≤ n ∧ n ≤ 2 ^ 53) : IsPlace (some inventory) (some (Text.ofNat n))
  | worn {row : Text × Text} (hrow : row ∈ equipment) : IsPlace (some row.2) none

end Item

/-- A clause that both editions can express. -/
structure ItemClause.Portable (c : ItemClause) : Prop where
  quantity : c.quantity = none
  item : Item.IsItemName c.item
  place : Item.IsPlace c.location c.slot

namespace Item

/-- The texts of places are words, and no character of them is a mark. -/
theorem IsPlace.spec {location slot : Option Text} (h : IsPlace location slot) :
    ∀ t, t ∈ location ∨ t ∈ slot → Snbt.IsWord t ∧ ∀ c ∈ t, isInert c = true := by
  have hlocation : ∀ t ∈ [Item.mainhand, Item.hotbar, Item.inventory] ++ equipment.map (·.2),
      Snbt.IsWord t ∧ ∀ c ∈ t, isInert c = true := by
    decide
  have hslot : ∀ n, Snbt.IsWord (Text.ofNat n) ∧ ∀ c ∈ Text.ofNat n, isInert c = true := by
    intro n
    rw [← ofInt_natCast]
    exact ⟨isWord_ofInt n, fun c hc => isInert_of_isNumeralChar
      (Numeral.isNumeralChar_of_isNumeral (Numeral.isNumeral_ofInt n) c hc)⟩
  rintro t (rfl | rfl)
  · cases h with
    | mainhand => exact hlocation _ (by simp)
    | hotbar => exact hlocation _ (by simp)
    | inventory => exact hlocation _ (by simp)
    | worn hrow => exact hlocation _ (List.mem_append_right _ (List.mem_map_of_mem hrow))
  · cases h with
    | hotbar => exact hslot _
    | inventory => exact hslot _

end Item

namespace ItemClause

variable {c : ItemClause} {cs : List ItemClause}

/-- The fields of a portable clause are words. -/
theorem Portable.fieldsAreWords (h : c.Portable) : c.FieldsAreWords := by
  rintro t (ht | ht)
  · rw [h.quantity] at ht
    simp at ht
  · exact (h.place.spec t ht).1

/-- No field of a portable clause closes what it stands in. -/
theorem Portable.closed (h : c.Portable) : Snbt.ClosedValues c.tag := by
  have hcolon : isInert ':' = true := by decide
  have hclosed : ∀ t : Text, (∀ c ∈ t, isInert c = true) → Snbt.ClosedValues (.value t) :=
    fun t ht => separates_isSeparator.closed ht
  rw [tag, Snbt.ClosedValues, Snbt.closedEntries_iff, fields, List.forall_mem_cons]
  refine ⟨hclosed _ fun d hd => ?_, fun entry he => ?_⟩
  · rcases h.item.2.1 d hd with hd | rfl
    · exact Snbt.isInert_of_isBareChar hd
    · exact hcolon
  · simp only [fieldEntry, List.mem_append, Option.mem_toList, Option.map_eq_some_iff,
      h.quantity] at he
    rcases he with (⟨t, ht, -⟩ | ⟨t, ht, rfl⟩) | ⟨t, ht, rfl⟩
    · simp at ht
    · exact hclosed t (h.place.spec t (.inl ht)).2
    · exact hclosed t (h.place.spec t (.inr ht)).2

end ItemClause

namespace Item

/-- The clause that comes back from the inventory. -/
def ofCarried? (item : Option Int × Text) : Option ItemClause :=
  (slotted? (itemTag item.1 item.2) id).value

/-- The clause that comes back from the equipment. -/
def ofWorn? (worn : Text × Text) : Option ItemClause :=
  (wornClause? worn.1 (itemTag none worn.2)).value

theorem get?_itemTag (slot : Option Int) (name key : Text) : (itemTag slot name).get? key =
    if ("Slot" : Text) = key then slot.map fun n => .value (Text.ofInt n ++ ['b'])
    else if ("id" : Text) = key then some (.string name) else none := by
  have hkeys : ¬ ("Slot" : Text) = "id" := by decide
  cases slot with
  | none =>
    show List.lookup key [(("id" : Text), Tag.string name)] = _
    rw [Text.lookup_cons, List.lookup_nil, Option.map_none]
    split_ifs with hid hslot
    · exact absurd (hslot.trans hid.symm) hkeys
    · rfl
    · rfl
    · rfl
  | some n =>
    show List.lookup key
      [(("Slot" : Text), Tag.value (Text.ofInt n ++ ['b'])), ("id", .string name)] = _
    rw [Text.lookup_cons, Text.lookup_cons, List.lookup_nil]
    rfl

theorem clause?_itemTag (slot : Option Int) (h : IsItemName t) :
    clause? (itemTag slot (namespaced t)) = some ⟨t, none, none, none⟩ := by
  have hkeys : ¬ ("Slot" : Text) = "id" ∧ ¬ ("Slot" : Text) = "Count" ∧ ¬ ("id" : Text) = "Count" ∧
      ¬ ("Slot" : Text) = "count" ∧ ¬ ("id" : Text) = "count" := by
    decide
  have hid : ((itemTag slot (namespaced t)).get? "id").bind Tag.scalar? = some (namespaced t) := by
    rw [get?_itemTag, if_neg hkeys.1, if_pos rfl]
    rfl
  have hcount : ((itemTag slot (namespaced t)).get? "Count").or
      ((itemTag slot (namespaced t)).get? "count") = none := by
    rw [get?_itemTag, get?_itemTag, if_neg hkeys.2.1, if_neg hkeys.2.2.1, if_neg hkeys.2.2.2.1,
      if_neg hkeys.2.2.2.2]
    rfl
  unfold clause?
  simp only [hid, hcount, Option.bind_eq_bind, Option.bind_some, Option.bind_none, Option.map_none,
    h.strip]

/-- An item without a slot comes back without a place. -/
theorem ofCarried?_none (h : IsItemName t) :
    ofCarried? (none, namespaced t) = some ⟨t, none, none, none⟩ := by
  unfold ofCarried? slotted?
  rw [clause?_itemTag none h, get?_itemTag, if_pos rfl]
  rfl

/-- An item in a slot comes back with the place of the slot. -/
theorem ofCarried?_some (h : IsItemName t) {n : Nat} (hn : n ≤ 2 ^ 53) :
    ofCarried? (some (n : Int), namespaced t) =
      some ⟨t, none, some (placeOfSlot n).1, (placeOfSlot n).2.map Text.ofInt⟩ := by
  unfold ofCarried? slotted?
  rw [clause?_itemTag _ h, get?_itemTag, if_pos rfl]
  exact place?_slot _ hn

/-- A worn item comes back with its location. -/
theorem ofWorn?_eq (h : IsItemName t) {row : Text × Text} (hrow : row ∈ equipment) :
    ofWorn? (row.1, namespaced t) = some ⟨t, none, some row.2, none⟩ := by
  have htable : ∀ row ∈ equipment, equipmentLocation? row.1 = some row.2 := by
    decide
  unfold ofWorn? wornClause?
  rw [htable row hrow, clause?_itemTag none h]
  rfl

/-- Whether the item of a clause is worn. -/
def isWorn (c : ItemClause) : Bool :=
  c.location ∈ equipment.map fun row => some row.2

theorem placeOfSlot_hotbar {n : Nat} (hn : 2 ≤ n ∧ n ≤ 8) :
    placeOfSlot n = (hotbar, some (n : Int)) := by
  rw [placeOfSlot, if_neg (by omega), if_neg (by omega), if_pos (by omega)]

theorem placeOfSlot_inventory {n : Nat} (hn : 9 ≤ n) :
    placeOfSlot n = (inventory, some (n : Int)) := by
  rw [placeOfSlot, if_neg (by omega), if_neg (by omega), if_neg (by omega)]

/-- A numbered location is carried, and it comes back if its slot is one of it. -/
theorem comes_back_slot (h : IsItemName t) {location : Text}
    (hl : location = hotbar ∨ location = inventory) {n : Nat} (hn : n ≤ 2 ^ 53)
    (hplace : placeOfSlot n = (location, some (n : Int))) :
    let c : ItemClause := ⟨t, none, some location, some (Text.ofNat n)⟩
    isWorn c = false ∧ ∃ slot, c.place = .carried slot ∧ ofCarried? (slot, c.name) = some c := by
  have htable : ∀ location ∈ ([hotbar, inventory] : List Text), equipmentKey? location = none ∧
      some location ∉ equipment.map fun row => some row.2 := by
    decide
  obtain ⟨hkey, hworn⟩ := htable location (by simpa using hl)
  refine ⟨by simp only [isWorn, hworn, decide_false], some (n : Int), ?_, ?_⟩
  · simp only [ItemClause.place, placeOf, hkey, slotOfPlace?_ofNat hl hn]
  · rw [ItemClause.name, ofCarried?_some h hn, hplace, Option.map_some, ofInt_natCast]

/-- A portable clause comes back from the place it goes to. -/
theorem comes_back (h : c.Portable) :
    (isWorn c = false ∧ ∃ slot, c.place = .carried slot ∧ ofCarried? (slot, c.name) = some c) ∨
      (isWorn c = true ∧ ∃ row ∈ equipment, c.place = .worn row.1 ∧ c.location = some row.2 ∧
        ofWorn? (row.1, c.name) = some c) := by
  have htable : ∀ row ∈ equipment, equipmentKey? row.2 = some row.1 := by
    decide
  obtain ⟨item, quantity, location, slot⟩ := c
  obtain ⟨hq, hitem, hplace⟩ := h
  obtain rfl : quantity = none := hq
  cases hplace with
  | anywhere =>
    exact .inl ⟨rfl, none, rfl, ofCarried?_none hitem⟩
  | mainhand =>
    refine .inl ⟨rfl, some 0, rfl, ?_⟩
    exact ofCarried?_some (n := 0) hitem (by decide)
  | @hotbar n hn =>
    exact .inl (comes_back_slot hitem (.inl rfl) (by omega) (placeOfSlot_hotbar hn))
  | @inventory n hn =>
    exact .inl (comes_back_slot hitem (.inr rfl) hn.2 (placeOfSlot_inventory hn.1))
  | @worn row hrow =>
    refine .inr ⟨?_, row, hrow, ?_, rfl, ofWorn?_eq hitem hrow⟩
    · exact decide_eq_true (List.mem_map_of_mem hrow)
    · simp only [ItemClause.place, placeOf, htable row hrow]

/-! ## Lists of portable clauses -/

variable {cs : List ItemClause}

/-- What is carried comes back in its order. -/
theorem map_carriedNames (h : ∀ c ∈ cs, c.Portable) :
    (carriedNames cs).map ofCarried? = (cs.filter fun c => !isWorn c).map some := by
  rw [carriedNames, ← List.filterMap_eq_filter, List.map_filterMap, List.map_filterMap]
  refine List.filterMap_congr fun c hc => ?_
  unfold carriedName?
  rcases comes_back (h c hc) with ⟨hworn, slot, hplace, hback⟩ | ⟨hworn, row, -, hplace, -⟩
  · simp [hplace, hback, hworn, Option.guard]
  · simp [hplace, hworn, Option.guard]

theorem putWorn_of_ne {key entry : Text} {worn : List (Text × Text)} (h : ∀ w ∈ worn, w.1 ≠ key) :
    putWorn key entry worn = worn ++ [(key, entry)] := by
  induction worn with
  | nil => rfl
  | cons w rest ih =>
    rw [List.forall_mem_cons] at h
    rw [putWorn, if_neg h.1, ih h.2, List.cons_append]

/-- What is worn comes back in its order, behind what was put on before. -/
theorem map_foldl_putName (h : ∀ c ∈ cs, c.Portable)
    (hd : ((cs.filter isWorn).map (·.location)).Nodup) (worn : List (Text × Text))
    (hw : ∀ w ∈ worn, ∀ c ∈ cs, c.place ≠ .worn w.1) :
    (cs.foldl putName worn).map ofWorn? = worn.map ofWorn? ++ (cs.filter isWorn).map some := by
  have htable : ∀ row ∈ equipment, ∀ row' ∈ equipment, row.1 = row'.1 → row.2 = row'.2 := by
    decide
  induction cs generalizing worn with
  | nil => simp
  | cons c cs ih =>
    rw [List.forall_mem_cons] at h
    have hrest : ∀ w ∈ worn, ∀ c ∈ cs, c.place ≠ .worn w.1 :=
      fun w hm c hc => hw w hm c (List.mem_cons_of_mem _ hc)
    rw [List.foldl_cons, putName]
    rcases comes_back h.1 with ⟨hworn, slot, hplace, -⟩ |
      ⟨hworn, row, hrow, hplace, hlocation, hback⟩
    · rw [List.filter_cons_of_neg (by simp [hworn])] at hd ⊢
      rw [hplace]
      exact ih h.2 hd worn hrest
    · rw [List.filter_cons_of_pos hworn] at hd ⊢
      rw [List.map_cons, List.nodup_cons] at hd
      have hnew : ∀ w ∈ worn, w.1 ≠ row.1 := fun w hm he =>
        hw w hm c (by simp) (by rw [hplace, he])
      rw [hplace]
      simp only
      rw [putWorn_of_ne hnew, ih h.2 hd.2]
      · simp [hback]
      · intro w hm c' hc'
        rcases List.mem_append.1 hm with hm | hm
        · exact hrest w hm c' hc'
        · rw [List.mem_singleton.1 hm]
          intro he
          rcases comes_back (h.2 c' hc') with ⟨-, slot', hplace', -⟩ |
            ⟨hworn', row', hrow', hplace', hlocation', -⟩
          · rw [hplace'] at he
            simp at he
          · rw [hplace', Place.worn.injEq] at he
            refine hd.1 (List.mem_map.2 ⟨c', List.mem_filter.2 ⟨hc', hworn'⟩, ?_⟩)
            rw [hlocation, hlocation', htable _ hrow' _ hrow he]

/-- What is worn comes back in its order, if no two clauses have the same location. -/
theorem map_wornNames (h : ∀ c ∈ cs, c.Portable)
    (hd : ((cs.filter isWorn).map (·.location)).Nodup) :
    (wornNames cs).map ofWorn? = (cs.filter isWorn).map some := by
  simpa [wornNames] using map_foldl_putName h hd [] (by simp)

/-! ## Findings -/

theorem get?_single (key other : Text) (tag : Tag) :
    (Tag.compound [(other, tag)]).get? key = if other = key then some tag else none := by
  rw [Tag.get?, Text.lookup_cons, List.lookup_nil]

theorem clause?_single {key : Text} (tag : Tag) (h : key ≠ "id") :
    clause? (.compound [(key, tag)]) = none := by
  rw [clause?, get?_single, if_neg h]
  rfl

theorem itemsOf_inventoryTag {items : List (Option Int × Text)}
    (h : items.map ofCarried? = cs.map some) : (itemsOf (inventoryTag items)).value = cs := by
  have hkeys : ("Inventory" : Text) ≠ "SelectedItem" ∧ ("Inventory" : Text) ≠ "equipment" ∧
      ("Inventory" : Text) ≠ "Item" ∧ ("Inventory" : Text) ≠ "id" := by
    decide
  obtain ⟨h₁, h₂, h₃, h₄⟩ := hkeys
  have hback : (fun item : Option Int × Text => (slotted? (itemTag item.1 item.2) id).value) =
      ofCarried? := rfl
  unfold itemsOf inventoryTag
  simp only [get?_single, clause?_single _ h₄, if_neg h₁, if_neg h₂, if_neg h₃, if_true,
    Noted.value_bind, Noted.value_pure, Noted.value_all, Option.bind_some, Option.bind_none,
    Option.getD_some, Option.getD_none, Option.toList_none, Tag.items?, List.map_nil, List.map_map,
    Function.comp_def, hback, h]
  simp

theorem itemsOf_equipmentTag {worn : List (Text × Text)}
    (h : worn.map ofWorn? = cs.map some) : (itemsOf (equipmentTag worn)).value = cs := by
  have hkeys : ("equipment" : Text) ≠ "SelectedItem" ∧ ("equipment" : Text) ≠ "Inventory" ∧
      ("equipment" : Text) ≠ "Item" ∧ ("equipment" : Text) ≠ "id" := by
    decide
  obtain ⟨h₁, h₂, h₃, h₄⟩ := hkeys
  have hback : (fun w : Text × Text => (wornClause? w.1 (itemTag none w.2)).value) = ofWorn? := rfl
  unfold itemsOf equipmentTag
  simp only [get?_single, clause?_single _ h₄, if_neg h₁, if_neg h₂, if_neg h₃, if_true,
    Noted.value_bind, Noted.value_pure, Noted.value_all, Option.bind_some, Option.bind_none,
    Option.getD_some, Option.getD_none, Option.toList_none, Tag.entries?, List.map_nil,
    List.map_map, Function.comp_def, hback, h]
  simp

/-- What is said by the tree of a list, which is only written if the list holds anything. -/
theorem findings?_optional {α : Type} {l : List α} {back : α → Option ItemClause} {key : Text}
    {tag : Tag} (hr : Snbt.Readable (.compound [(key, tag)])) (hkey : key ≠ "Tags" ∧ key ≠ "Type")
    (hback : l.map back = cs.map some) (hitems : (itemsOf (.compound [(key, tag)])).value = cs) :
    ∃ found : List Findings,
      (if l = [] then [] else [.compound [(key, tag)]]).map
        (fun tag => (findings? (Snbt.print ':' tag)).value) = found.map some ∧
      found.flatMap (·.items) = cs ∧ found.flatMap (·.extras) = [] := by
  have hnil : l = [] ↔ cs = [] := by
    rw [← List.map_eq_nil_iff (f := back), hback, List.map_eq_nil_iff]
  by_cases hl : l = []
  · exact ⟨[], by rw [if_pos hl]; rfl, by simp [hnil.1 hl], rfl⟩
  have hne : cs ≠ [] := fun hc => hl (hnil.2 hc)
  have htags : (tagParameter? (.compound [(key, tag)])).value = none := by
    rw [tagParameter?, get?_single, if_neg hkey.1]
    rfl
  have htype : typeParameter? (.compound [(key, tag)]) = none := by
    rw [typeParameter?, get?_single, if_neg hkey.2]
    rfl
  have hfindings : (findings? (Snbt.print ':' (.compound [(key, tag)]))).value = some ⟨cs, []⟩ := by
    unfold findings?
    rw [Snbt.read_print isSeparator_colon hr]
    simp only [Noted.value_bind, htags, htype, hitems, hne, false_and, if_false, Noted.value_pure]
    rfl
  exact ⟨[⟨cs, []⟩], by rw [if_neg hl, List.map_singleton, hfindings]; rfl, by simp, rfl⟩

/-- The trees of portable clauses say that there are these clauses, the worn ones last. -/
theorem findings?_trees (h : ∀ c ∈ cs, c.Portable)
    (hd : ((cs.filter isWorn).map (·.location)).Nodup) :
    ∃ found : List Findings,
      (trees cs).map (fun tag => (findings? (Snbt.print ':' tag)).value) = found.map some ∧
      found.flatMap (·.items) = cs.filter (fun c => !isWorn c) ++ cs.filter isWorn ∧
      found.flatMap (·.extras) = [] := by
  have hcarried := map_carriedNames h
  have hworn := map_wornNames h hd
  obtain ⟨f, hf, hfi, hfe⟩ := findings?_optional (readable_inventoryTag _) (by decide) hcarried
    (itemsOf_inventoryTag hcarried)
  obtain ⟨g, hg, hgi, hge⟩ := findings?_optional (readable_equipmentTag _) (by decide) hworn
    (itemsOf_equipmentTag hworn)
  refine ⟨f ++ g, ?_, by rw [List.flatMap_append, hfi, hgi], ?_⟩
  · rw [trees, List.map_append, List.map_append]
    exact congrArg₂ _ hf hg
  · rw [List.flatMap_append, hfe, hge]
    rfl

/-! ## Texts -/

/-- Portable clauses are those that Java looks for. -/
theorem toNbt_of_portable (h : ∀ c ∈ cs, c.Portable) :
    (toNbt [Snbt.print '=' (.list (cs.map ItemClause.tag))]).value =
      (trees cs).map (Snbt.print ':') := by
  have hread := ItemClause.clauses_printList fun c hc =>
    ⟨(h c hc).fieldsAreWords, (h c hc).item.isWord⟩
  have hspelled : (cs.map ItemClause.fields).filterMap ItemClause.ofEntries? = cs := by
    have hsome : ItemClause.ofEntries? ∘ ItemClause.fields = some :=
      funext ItemClause.ofEntries?_fields
    rw [List.filterMap_map, hsome, List.filterMap_some]
  have hkept : kept [Snbt.print '=' (.list (cs.map ItemClause.tag))] = cs := by
    rw [kept, List.flatMap_singleton, hread, Noted.value_pure, hspelled]
    refine List.filter_eq_self.2 fun c hc => ?_
    rw [ItemClause.isKept, (h c hc).quantity]
    rfl
  rw [toNbt_value, hkept, compounds_placement]
  refine texts_eq_print fun names hn name hname => ?_
  obtain ⟨c, hc, rfl⟩ := mem_represented hn hname
  exact (h c hc).item.isPlain

theorem closed_itemTag (slot : Option Int) (name : Text) :
    Snbt.ClosedValues (itemTag slot name) := by
  rw [itemTag, Snbt.ClosedValues, Snbt.closedEntries_iff]
  intro entry he
  rcases List.mem_append.1 he with he | he
  · obtain ⟨n, -, rfl⟩ := Option.map_eq_some_iff.1 (Option.mem_toList.1 he)
    refine separates_isSeparator.closed fun c hc => ?_
    rcases List.mem_append.1 hc with hc | hc
    · exact isInert_of_isNumeralChar
        (Numeral.isNumeralChar_of_isNumeral (Numeral.isNumeral_ofInt n) c hc)
    · rw [List.mem_singleton.1 hc]
      decide
  · rw [List.mem_singleton.1 he]
    trivial

/-- The trees close what they open, and they are no leaves. -/
theorem closed_of_mem_trees {tag : Tag} (h : tag ∈ trees cs) : Snbt.ClosedValues tag := by
  rcases List.mem_append.1 h with h | h
  · split_ifs at h
    · simp at h
    · rw [List.mem_singleton.1 h]
      refine ⟨Snbt.closedItems_iff.2 fun tag ht => ?_, trivial⟩
      obtain ⟨item, -, rfl⟩ := List.mem_map.1 ht
      exact closed_itemTag _ _
  · split_ifs at h
    · simp at h
    · rw [List.mem_singleton.1 h]
      refine ⟨Snbt.closedEntries_iff.2 fun entry he => ?_, trivial⟩
      obtain ⟨w, -, rfl⟩ := List.mem_map.1 he
      exact closed_itemTag _ _

end Item

end CrossEdition
