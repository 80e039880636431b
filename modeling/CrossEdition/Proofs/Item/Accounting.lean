import CrossEdition.Proofs.Decimal.WholeNumbers
import CrossEdition.Proofs.Item.Placing

/-!
# Accounting for clauses

What becomes of each clause of `hasitem` values on the way to Java. A clause that names no item,
and one that asks for none of its item, is skipped with one reminder. The item of every other
clause is worn under a key of the equipment or carried in the inventory. Of the items worn under
one key the last counts, at the place of the first.

Results:
* `admitsQuantity_value`, `slotOfPlace?_value`: which clauses are kept, and which slot they get.
* `handled_outcome`: what becomes of one clause.
* `lastOfEach_foldl_putWorn`: the keys of the equipment, each with the last name put under it.
* `reminders_toNbt`: where the reminders about `hasitem` values come from.
* `toNbt_accounts`: every clause of every value is accounted for.
* `reminders_toNbt_eq_nil_iff`: only values that can be read and spell no clause go without a
  reminder.
-/

namespace CrossEdition

/-- The compounds that are clauses if a tree stands for items: the tree itself, or those in a
    list. -/
def Tag.compounds : Tag → List (List (Text × Tag))
  | .compound entries => [entries]
  | .list items => items.filterMap entries?
  | .string _ | .value _ => []

namespace Item

variable {entries : List (Text × Tag)} {location slot : Option Text} {item quantity : Text}

/-! ## Values -/

/-- The clauses that a `hasitem` value spells. -/
def spelled (value : Text) : List (List (Text × Tag)) :=
  match Snbt.read '=' value with
  | .ok tag => tag.compounds
  | .error _ => []

/-- The reminder that a `hasitem` value cannot be read, if it cannot. -/
def unreadable? (value : Text) : Option Text :=
  match Snbt.read '=' value with
  | .ok _ => none
  | .error _ => some ("hasitem=" ++ value ++ " could not be parsed and was removed")

theorem clauses_value (value : Text) : (clauses value).value = spelled value := by
  unfold clauses spelled
  cases Snbt.read '=' value with
  | error e => rfl
  | ok tag => cases tag <;> rfl

theorem reminders_clauses (value : Text) :
    (clauses value).reminders = (unreadable? value).toList := by
  unfold clauses unreadable?
  cases Snbt.read '=' value with
  | error e => rw [Noted.reminders_bind, Noted.reminders_note]; rfl
  | ok tag => cases tag <;> rfl

/-! ## Quantities -/

/-- Whether a quantity that is not negated is a number of at most zero, or a range up to such a
    number. -/
def AsksForNone (quantity : Text) : Prop :=
  quantity.head? ≠ some '!' ∧ ∃ n : Double, n.le (.zero false) = true ∧
    (Numeral.value? quantity = some n ∨
      ∃ b, Bounds.ofText? (Text.trim quantity) = some b ∧ b.maxValue? = some n)

/-- A quantity is a range or a number, and never both. -/
theorem requiresAbsence_iff : ItemClause.requiresAbsence quantity = true ↔
    ∃ n : Double, n.le (.zero false) = true ∧ (Numeral.value? quantity = some n ∨
      ∃ b, Bounds.ofText? (Text.trim quantity) = some b ∧ b.maxValue? = some n) := by
  simp only [ItemClause.requiresAbsence]
  split_ifs with hdots
  · have hvalue : Numeral.value? quantity = none := by
      rw [← Option.not_isSome_iff_eq_none, Numeral.value?_isSome]
      intro hn
      rw [Numeral.cutDots_of_isNumeral hn] at hdots
      exact Bool.noConfusion hdots
    rw [Option.any_eq_true]
    simp only [hvalue, Option.bind_eq_some_iff, reduceCtorEq, false_or, and_comm]
  · have hbounds : Bounds.ofText? (Text.trim quantity) = none := by
      rw [Option.not_isSome_iff_eq_none] at hdots
      rw [Bounds.ofText?, hdots]
      rfl
    rw [Option.any_eq_true]
    simp only [hbounds, Numeral.value?_trim, reduceCtorEq, false_and, exists_false, or_false, and_comm]

/-- A clause is kept unless it asks for none of its item. -/
theorem admitsQuantity_value (item : Text) (quantity : Option Text) :
    (admitsQuantity item quantity).value = true ↔ ∀ q ∈ quantity, ¬AsksForNone q := by
  cases quantity with
  | none => simp [admitsQuantity]
  | some q =>
    simp only [admitsQuantity, Option.mem_def, Option.some.injEq, forall_eq']
    split_ifs with hneg habs
    · exact iff_of_true rfl fun h => h.1 hneg
    · exact iff_of_false not_false
        (not_not_intro ⟨hneg, requiresAbsence_iff.1 habs⟩)
    · exact iff_of_true rfl fun h => habs (requiresAbsence_iff.2 h.2)

/-- Every quantity gives one reminder. -/
theorem length_reminders_admitsQuantity (item : Text) (quantity : Option Text) :
    (admitsQuantity item quantity).reminders.length = quantity.toList.length := by
  cases quantity with
  | none => rfl
  | some q =>
    simp only [admitsQuantity]
    split_ifs <;> rfl

/-- What is said of a clause that asks for none of its item. -/
theorem reminders_admitsQuantity (item : Text) (h : AsksForNone quantity) :
    (admitsQuantity item (some quantity)).reminders =
      ["hasitem " ++ item ++ " with quantity=" ++ quantity
        ++ " matches players without the item; Java nbt cannot express absence and the clause was"
        ++ " removed"] := by
  simp only [admitsQuantity, if_neg h.1, if_pos (requiresAbsence_iff.2 h.2)]
  rfl

/-! ## Slots -/

/-- The number that a slot stands for: itself, or the first number of a range. -/
inductive StandsFor (slot : Text) : Double → Prop
  | number {n : Double} (hb : Bounds.ofText? slot = none) (hn : Numeral.value? slot = some n) :
      StandsFor slot n
  | lower {b : Bounds} {n : Double} (hb : Bounds.ofText? slot = some b)
      (hn : b.minValue? = some n) : StandsFor slot n
  | upper {b : Bounds} {n : Double} (hb : Bounds.ofText? slot = some b)
      (hmin : b.minValue? = none) (hn : b.maxValue? = some n) : StandsFor slot n

/-- The slot of the inventory that a location maps to: the held item has the first, and places
    that are numbered need a slot that is not negated and stands for no negative number. -/
inductive MapsTo : Option Text → Option Text → Int → Prop
  | held {slot : Option Text} : MapsTo (some mainhand) slot 0
  | numbered {location slot : Text} {n : Double} (hl : location = hotbar ∨ location = inventory)
      (hneg : slot.head? ≠ some '!') (hn : StandsFor slot n)
      (hle : (Double.zero false).le n = true) : MapsTo (some location) (some slot) n.truncate

/-- The number that a slot stands for, computed. -/
def firstNumber? (slot : Text) : Option Double :=
  match Bounds.ofText? slot with
  | some bounds => bounds.minValue?.or bounds.maxValue?
  | none => Numeral.value? slot

theorem firstNumber?_eq_some_iff {slot : Text} {n : Double} :
    firstNumber? slot = some n ↔ StandsFor slot n := by
  unfold firstNumber?
  constructor
  · intro h
    split at h
    · next b hb =>
      rcases Option.or_eq_some_iff.1 h with hn | ⟨hmin, hn⟩
      · exact .lower hb hn
      · exact .upper hb hmin hn
    · next hb => exact .number hb h
  · rintro (⟨hb, hn⟩ | ⟨hb, hn⟩ | ⟨hb, hmin, hn⟩) <;> rw [hb]
    · exact hn
    · exact Option.or_eq_some_iff.2 (.inl hn)
    · exact Option.or_eq_some_iff.2 (.inr ⟨hmin, hn⟩)

/-- The slot in a numbered place. -/
theorem slotOfPlace?_numbered {location slot : Text}
    (hl : location = hotbar ∨ location = inventory) (hneg : slot.head? ≠ some '!') :
    (slotOfPlace? location (some slot)).value =
      ((firstNumber? slot).filter (Double.le (.zero false))).map Double.truncate := by
  have hmain : location ≠ mainhand := by
    rcases hl with rfl | rfl <;> decide
  simp only [slotOfPlace?, if_neg hmain, if_pos hl, if_neg hneg, firstNumber?]
  cases Bounds.ofText? slot with
  | none =>
    simp only
    cases (Numeral.value? slot).filter (Double.le (.zero false)) <;> rfl
  | some bounds =>
    simp only
    cases (bounds.minValue?.or bounds.maxValue?).filter (Double.le (.zero false)) <;> rfl

/-- A clause gets the slot that its location maps to. -/
theorem slotOfPlace?_value {location : Text} {n : Int} :
    (slotOfPlace? location slot).value = some n ↔ MapsTo (some location) slot n := by
  constructor
  · intro h
    by_cases hmain : location = mainhand
    · simp only [slotOfPlace?, if_pos hmain] at h
      cases h
      exact hmain ▸ .held
    by_cases hl : location = hotbar ∨ location = inventory
    · cases slot with
      | none => simp [slotOfPlace?, hmain, hl] at h
      | some s =>
        by_cases hneg : s.head? = some '!'
        · simp [slotOfPlace?, hmain, hl, hneg] at h
        · rw [slotOfPlace?_numbered hl hneg, Option.map_eq_some_iff] at h
          obtain ⟨d, hd, rfl⟩ := h
          obtain ⟨hd, hle⟩ := Option.filter_eq_some_iff.1 hd
          exact .numbered hl hneg (firstNumber?_eq_some_iff.1 hd) hle
    · simp [slotOfPlace?, hmain, hl] at h
  · rintro (_ | ⟨hl, hneg, hn, hle⟩)
    · rfl
    · rw [slotOfPlace?_numbered hl hneg, firstNumber?_eq_some_iff.2 hn, Option.filter_some_pos hle]
      rfl

/-- A location that maps to no slot gives one reminder, any other none. -/
theorem length_reminders_slotOfPlace? (location : Text) (slot : Option Text) :
    (slotOfPlace? location slot).reminders.length =
      if (slotOfPlace? location slot).value = none then 1 else 0 := by
  unfold slotOfPlace?
  by_cases hmain : location = mainhand
  · rw [if_pos hmain]
    rfl
  by_cases hl : location = hotbar ∨ location = inventory
  · rw [if_neg hmain, if_pos hl]
    cases slot with
    | none => rfl
    | some s =>
      by_cases hneg : s.head? = some '!'
      · simp only [if_pos hneg]
        rfl
      · simp only [if_neg hneg]
        generalize Option.filter _ _ = first
        cases first <;> rfl
  · rw [if_neg hmain, if_neg hl]
    rfl

/-! ## Worn items -/

/-- Whether names by keys are those that were put under the keys one after another: every key
    once, in the order of first use, with the last name put under it. -/
structure LastOfEach (puts worn : List (Text × Text)) : Prop where
  keys : worn.map (·.1) = (puts.map (·.1)).eraseDups
  names : ∀ key, worn.lookup key = puts.reverse.lookup key

theorem keys_putWorn (key entry : Text) (worn : List (Text × Text)) :
    (putWorn key entry worn).map (·.1) =
      if key ∈ worn.map (·.1) then worn.map (·.1) else worn.map (·.1) ++ [key] := by
  induction worn with
  | nil => rfl
  | cons w rest ih =>
    obtain ⟨k, e⟩ := w
    by_cases hk : k = key
    · simp [putWorn, hk]
    · simp only [putWorn, if_neg hk, List.map_cons, ih, List.mem_cons, Ne.symm hk, false_or]
      split_ifs <;> rfl

theorem lookup_putWorn_of_ne {key other : Text} (h : other ≠ key) (entry : Text)
    (worn : List (Text × Text)) : (putWorn key entry worn).lookup other = worn.lookup other := by
  induction worn with
  | nil => simp [putWorn, h]
  | cons w rest ih =>
    obtain ⟨k, e⟩ := w
    by_cases hk : k = key
    · simp [putWorn, Text.lookup_cons, hk, Ne.symm h]
    · simp [putWorn, Text.lookup_cons, hk, ih]

/-- One more name keeps the last of each. -/
theorem LastOfEach.putWorn {puts worn : List (Text × Text)} (h : LastOfEach puts worn)
    (key entry : Text) : LastOfEach (puts ++ [(key, entry)]) (putWorn key entry worn) where
  keys := by
    rw [keys_putWorn, h.keys, List.map_append, List.eraseDups_append]
    by_cases hk : key ∈ puts.map (·.1)
    · simp [List.mem_eraseDups, hk, List.removeAll]
    · simp [List.mem_eraseDups, hk, List.removeAll, List.eraseDups_cons]
  names other := by
    rw [List.reverse_append, List.reverse_singleton, List.singleton_append, Text.lookup_cons]
    split_ifs with hk
    · rw [← hk, lookup_putWorn]
    · rw [lookup_putWorn_of_ne (Ne.symm hk), h.names]

theorem LastOfEach.eq_nil_iff {puts worn : List (Text × Text)} (h : LastOfEach puts worn) :
    worn = [] ↔ puts = [] := by
  constructor
  · intro hworn
    have hkeys : (puts.map (·.1)).eraseDups = [] := by rw [← h.keys, hworn, List.map_nil]
    refine List.eq_nil_iff_forall_not_mem.2 fun put hput => ?_
    have hmem : put.1 ∈ (puts.map (·.1)).eraseDups := List.mem_eraseDups.2 (List.mem_map_of_mem hput)
    simp [hkeys] at hmem
  · rintro rfl
    exact List.map_eq_nil_iff.1 h.keys

theorem lastOfEach_foldl_putWorn (puts : List (Text × Text)) :
    LastOfEach puts (puts.foldl (fun worn put => putWorn put.1 put.2 worn) []) := by
  -- from the right, since the name that was put last decides
  induction puts using List.reverseRecOn with
  | nil => exact ⟨rfl, fun _ => rfl⟩
  | append_singleton puts put ih =>
    rw [List.foldl_concat]
    exact ih.putWorn put.1 put.2

/-! ## Clauses -/

/-- What becomes of a clause: the place and the name of its item, if Java looks for it, and the
    reminders about it. -/
structure Outcome where
  found : Option (Place × Text)
  reminders : List Text

namespace Outcome

/-- The key and the name of an item that is worn. -/
def worn? (o : Outcome) : Option (Text × Text) :=
  o.found.bind fun
    | (.worn key, name) => some (key, name)
    | (.carried _, _) => none

/-- The slot and the name of an item that is carried. -/
def carried? (o : Outcome) : Option (Option Int × Text) :=
  o.found.bind fun
    | (.worn _, _) => none
    | (.carried slot, name) => some (slot, name)

end Outcome

/-- What may become of the clause that the entries of a compound spell. -/
inductive Handled (entries : List (Text × Tag)) : Outcome → Prop
  | nameless (hitem : ItemClause.field? "item" entries = none) :
      Handled entries ⟨none, ["hasitem clause without an item was skipped"]⟩
  | absent {item quantity : Text} (hitem : ItemClause.field? "item" entries = some item)
      (hquantity : ItemClause.field? "quantity" entries = some quantity)
      (hnone : AsksForNone quantity) :
      Handled entries ⟨none, ["hasitem " ++ item ++ " with quantity=" ++ quantity
        ++ " matches players without the item; Java nbt cannot express absence and the clause was"
        ++ " removed"]⟩
  | worn {item location key : Text} {reminders : List Text}
      (hitem : ItemClause.field? "item" entries = some item)
      (hquantity : ∀ quantity ∈ ItemClause.field? "quantity" entries, ¬AsksForNone quantity)
      (hlocation : ItemClause.field? "location" entries = some location)
      (hkey : (key, location) ∈ equipment)
      (hreminders : reminders.length = (ItemClause.field? "quantity" entries).toList.length) :
      Handled entries ⟨some (.worn key, namespaced item), reminders⟩
  | carried {item : Text} {slot : Option Int} {reminders : List Text}
      (hitem : ItemClause.field? "item" entries = some item)
      (hquantity : ∀ quantity ∈ ItemClause.field? "quantity" entries, ¬AsksForNone quantity)
      (hlocation : ∀ location ∈ ItemClause.field? "location" entries, ∀ key,
        (key, location) ∉ equipment)
      (hslot : ∀ n, slot = some n ↔ MapsTo (ItemClause.field? "location" entries)
        (ItemClause.field? "slot" entries) n)
      (hreminders : reminders.length = (ItemClause.field? "quantity" entries).toList.length +
        if slot = none then (ItemClause.field? "location" entries).toList.length else 0) :
      Handled entries ⟨some (.carried slot, namespaced item), reminders⟩

/-- The outcome of a clause. -/
def outcome (entries : List (Text × Tag)) : Outcome where
  found := ((ItemClause.ofEntries? entries).filter (·.isKept)).map fun c => (c.place, c.name)
  reminders := (placement? entries).reminders

/-- Every location has one key of the equipment at most. -/
theorem equipmentKey?_eq_none_iff {location : Text} :
    equipmentKey? location = none ↔ ∀ key, (key, location) ∉ equipment := by
  simp only [equipmentKey?, Option.map_eq_none_iff, List.find?_eq_none, decide_eq_true_eq]
  exact ⟨fun h key hm => h _ hm rfl, fun h row hm he => h row.1 (he ▸ hm)⟩

/-- The reminders about a clause that names an item. -/
theorem reminders_placement? (hitem : ItemClause.field? "item" entries = some item) :
    (placement? entries).reminders =
      (admitsQuantity item (ItemClause.field? "quantity" entries)).reminders ++
        if (admitsQuantity item (ItemClause.field? "quantity" entries)).value then
          match ItemClause.field? "location" entries with
          | none => []
          | some location =>
            if equipmentKey? location = none then
              (slotOfPlace? location (ItemClause.field? "slot" entries)).reminders
            else []
        else [] := by
  unfold placement?
  unfold ItemClause.field? at hitem ⊢
  simp only [hitem, Noted.reminders_bind]
  congr 1
  generalize (entries.lookup ("location" : Text)).bind Tag.scalar? = location
  split_ifs
  · cases location with
    | none => rfl
    | some location =>
      cases hkey : equipmentKey? location with
      | some key => simp only [hkey, reduceCtorEq, if_false]; rfl
      | none =>
        simp only [hkey, if_true, Noted.reminders_bind]
        generalize slotOfPlace? _ _ = found
        cases found.value <;> exact List.append_nil _
  · rfl

/-- What Java looks for if a clause names an item. -/
theorem found_outcome (hitem : ItemClause.field? "item" entries = some item) :
    (outcome entries).found =
      if (admitsQuantity item (ItemClause.field? "quantity" entries)).value then
        some (placeOf (ItemClause.field? "location" entries) (ItemClause.field? "slot" entries),
          namespaced item)
      else none := by
  rw [outcome, ItemClause.ofEntries?, hitem, Option.map_some, Option.filter_some, apply_ite
    (Option.map _)]
  rfl

theorem outcome_eq_mk {found : Option (Place × Text)} (h : (outcome entries).found = found) :
    outcome entries = ⟨found, (placement? entries).reminders⟩ := by
  rw [← h]
  rfl

theorem outcome_of_nameless (hitem : ItemClause.field? "item" entries = none) :
    outcome entries = ⟨none, ["hasitem clause without an item was skipped"]⟩ := by
  have hreminders : (placement? entries).reminders =
      ["hasitem clause without an item was skipped"] := by
    unfold placement?
    unfold ItemClause.field? at hitem
    simp only [hitem]
    rfl
  rw [outcome, ItemClause.ofEntries?, hitem, hreminders]
  rfl

/-- A clause that does not ask for none of its item is worn or carried. -/
theorem handled_of_kept (hitem : ItemClause.field? "item" entries = some item)
    (hquantity : ∀ q ∈ ItemClause.field? "quantity" entries, ¬AsksForNone q) :
    Handled entries (outcome entries) := by
  have hkept := (admitsQuantity_value item _).2 hquantity
  have hfound := found_outcome hitem
  have hreminders := congrArg List.length (reminders_placement? hitem)
  rw [if_pos hkept] at hfound hreminders
  rw [List.length_append, length_reminders_admitsQuantity] at hreminders
  rw [outcome_eq_mk hfound]
  cases hlocation : ItemClause.field? "location" entries with
  | none =>
    rw [hlocation] at hreminders
    refine .carried hitem hquantity ?_ (fun n => ?_) ?_
    · rw [hlocation]
      rintro _ ⟨⟩
    · rw [hlocation]
      exact iff_of_false (by simp) (by rintro ⟨⟩)
    · rw [hlocation]
      exact hreminders
  | some location =>
    simp only [hlocation] at hreminders
    cases hkey : equipmentKey? location with
    | some key =>
      simp only [placeOf, hkey]
      rw [hkey, if_neg (by simp)] at hreminders
      exact .worn hitem hquantity hlocation (equipmentKey?_mem hkey) hreminders
    | none =>
      simp only [placeOf, hkey]
      rw [if_pos hkey, length_reminders_slotOfPlace?] at hreminders
      refine .carried hitem hquantity ?_ (fun n => ?_) ?_
      · rw [hlocation]
        rintro _ ⟨⟩
        exact equipmentKey?_eq_none_iff.1 hkey
      · rw [hlocation]
        exact slotOfPlace?_value
      · rw [hlocation]
        exact hreminders

/-- Whatever the entries of a compound spell, one of the four things becomes of it. -/
theorem handled_outcome (entries : List (Text × Tag)) : Handled entries (outcome entries) := by
  cases hitem : ItemClause.field? "item" entries with
  | none => exact outcome_of_nameless hitem ▸ .nameless hitem
  | some item =>
    by_cases hquantity : ∀ q ∈ ItemClause.field? "quantity" entries, ¬AsksForNone q
    · exact handled_of_kept hitem hquantity
    · have hkept := mt (admitsQuantity_value item _).1 hquantity
      have hfound := found_outcome hitem
      have hreminders := reminders_placement? hitem
      push Not at hquantity
      obtain ⟨q, hq, hnone⟩ := hquantity
      rw [if_neg hkept] at hfound hreminders
      rw [hq, List.append_nil, reminders_admitsQuantity item hnone] at hreminders
      rw [outcome_eq_mk hfound, hreminders]
      exact .absent hitem hq hnone

/-! ## All clauses -/

/-- What is said once if anything was converted. -/
def converted (found : List Text) : List Text :=
  if found = [] then []
  else ["hasitem was converted to nbt; item matching may differ between editions"]

/-- The outcomes of the clauses that some values spell. -/
def outcomes (values : List Text) : List Outcome :=
  (values.flatMap spelled).map outcome

/-- The clauses whose items Java looks for are those with such an outcome, in order. -/
theorem found_outcomes (values : List Text) : (outcomes values).filterMap (·.found) =
    (kept values).map fun c => (c.place, c.name) := by
  rw [outcomes, kept, List.filter_filterMap, List.map_filterMap, List.filterMap_map]
  simp only [clauses_value]
  rfl

theorem carriedNames_kept (values : List Text) :
    carriedNames (kept values) = (outcomes values).filterMap Outcome.carried? := by
  unfold Outcome.carried?
  rw [← List.filterMap_filterMap, found_outcomes, List.filterMap_map, carriedNames]
  refine List.filterMap_congr fun c _ => ?_
  simp only [Function.comp, carriedName?]
  cases c.place <;> rfl

theorem wornNames_kept (values : List Text) :
    wornNames (kept values) = ((outcomes values).filterMap Outcome.worn?).foldl
      (fun worn put => putWorn put.1 put.2 worn) [] := by
  unfold Outcome.worn?
  rw [← List.filterMap_filterMap, found_outcomes, List.filterMap_map, List.foldl_filterMap,
    wornNames]
  congr 1
  funext worn c
  simp only [Function.comp, putName]
  cases c.place <;> rfl

/-- Java looks for something exactly if it looks for the item of some clause. -/
theorem toNbt_value_eq_nil_iff (values : List Text) :
    (toNbt values).value = [] ↔ ∀ o ∈ outcomes values, o.found = none := by
  have hworn := (lastOfEach_foldl_putWorn ((outcomes values).filterMap Outcome.worn?)).eq_nil_iff
  have hone : ∀ o : Outcome, o.carried? = none ∧ o.worn? = none ↔ o.found = none := by
    rintro ⟨_ | ⟨_ | _, _⟩, _⟩ <;> simp [Outcome.carried?, Outcome.worn?]
  rw [toNbt_value, compounds_placement, texts, List.append_eq_nil_iff, carriedNames_kept,
    wornNames_kept, ite_eq_left_iff, ite_eq_left_iff]
  simp only [List.cons_ne_nil, imp_false, not_not, hworn, List.filterMap_eq_nil_iff, ← hone,
    forall_and]

/-- Where the reminders about `hasitem` values come from: the values that cannot be read, then
    the clauses, then the conversion itself. -/
theorem reminders_toNbt (values : List Text) :
    (toNbt values).reminders = values.filterMap unreadable?
      ++ (outcomes values).flatMap (·.reminders) ++ converted (toNbt values).value := by
  have hvalues : values.flatMap (fun value => (clauses value).reminders) =
      values.filterMap unreadable? := by
    simp only [reminders_clauses, List.filterMap_eq_flatMap_toList]
  have hspelled : (values.map ((·.value) ∘ clauses)).flatten = values.flatMap spelled := by
    rw [List.flatMap_def]
    exact congrArg List.flatten (List.map_congr_left fun value _ => clauses_value value)
  have hclauses : (values.flatMap spelled).flatMap (fun entries => (placement? entries).reminders) =
      (outcomes values).flatMap (·.reminders) := by
    rw [outcomes, List.flatMap_map]
    rfl
  unfold toNbt
  simp only [Noted.reminders_bind, Noted.reminders_all, Noted.value_bind, Noted.value_all,
    List.map_map, List.flatMap_map, hvalues, hspelled, hclauses, List.append_assoc]
  generalize compounds _ = found
  by_cases hfound : found = []
  · simp [converted, hfound, Noted.reminders_pure]
  · rw [if_pos hfound]
    simp [converted, hfound, Noted.reminders_pure, Noted.reminders_note, Note.reminder?]

/-- Every clause of every value is accounted for: one outcome for each, in order, from which the
    inventory, the equipment and the reminders are made. -/
theorem toNbt_accounts (values : List Text) :
    ∃ (outcomes : List Outcome) (worn : List (Text × Text)),
      List.Forall₂ Handled (values.flatMap spelled) outcomes ∧
      LastOfEach (outcomes.filterMap Outcome.worn?) worn ∧
      (toNbt values).value =
        (let carried := outcomes.filterMap Outcome.carried?
        (if carried = [] then [] else [inventoryText carried])
          ++ if worn = [] then [] else [equipmentText worn]) ∧
      (toNbt values).reminders = values.filterMap unreadable? ++ outcomes.flatMap (·.reminders)
        ++ converted (toNbt values).value := by
  refine ⟨outcomes values, wornNames (kept values), ?_, ?_, ?_, reminders_toNbt values⟩
  · exact List.forall₂_map_right_iff.2 (List.forall₂_same.2 fun entries _ =>
      handled_outcome entries)
  · rw [wornNames_kept]
    exact lastOfEach_foldl_putWorn _
  · rw [toNbt_value, compounds_placement, ← carriedNames_kept]
    rfl

/-! ## Silence -/

/-- Whether a value can be read and spells no clause. -/
def Silent (value : Text) : Prop :=
  ∃ tag, Snbt.read '=' value = .ok tag ∧ tag.compounds = []

theorem silent_iff {value : Text} : Silent value ↔ unreadable? value = none ∧ spelled value = [] := by
  unfold Silent unreadable? spelled
  cases Snbt.read '=' value with
  | ok tag => simp
  | error e => simp

/-- A clause whose item Java does not look for has a reminder. -/
theorem Handled.reminders_ne_nil {o : Outcome} (h : Handled entries o) (hfound : o.found = none) :
    o.reminders ≠ [] := by
  cases h with
  | nameless => simp
  | absent => simp
  | worn => simp at hfound
  | carried => simp at hfound

theorem outcomes_of_silent {values : List Text} (h : ∀ value ∈ values, Silent value) :
    outcomes values = [] := by
  rw [outcomes, List.flatMap_eq_nil_iff.2 fun value hv => (silent_iff.1 (h value hv)).2,
    List.map_nil]

/-- Silent values give nothing that Java could look for. -/
theorem toNbt_value_of_silent {values : List Text} (h : ∀ value ∈ values, Silent value) :
    (toNbt values).value = [] := by
  rw [toNbt_value_eq_nil_iff, outcomes_of_silent h]
  simp

/-- There are no reminders about values exactly if each of them can be read and spells no
    clause. -/
theorem reminders_toNbt_eq_nil_iff (values : List Text) :
    (toNbt values).reminders = [] ↔ ∀ value ∈ values, Silent value := by
  rw [reminders_toNbt, List.append_eq_nil_iff, List.append_eq_nil_iff]
  constructor
  · rintro ⟨⟨hread, hclauses⟩, hconverted⟩ value hv
    have hnone : (toNbt values).value = [] := by
      by_contra hne
      simp [converted, hne] at hconverted
    refine silent_iff.2 ⟨List.filterMap_eq_nil_iff.1 hread value hv, ?_⟩
    refine List.eq_nil_iff_forall_not_mem.2 fun entries he => ?_
    have hmem : outcome entries ∈ outcomes values :=
      List.mem_map_of_mem (List.mem_flatMap.2 ⟨value, hv, he⟩)
    exact (handled_outcome entries).reminders_ne_nil
      ((toNbt_value_eq_nil_iff values).1 hnone _ hmem)
      (List.flatMap_eq_nil_iff.1 hclauses _ hmem)
  · intro h
    refine ⟨⟨List.filterMap_eq_nil_iff.2 fun value hv => (silent_iff.1 (h value hv)).1, ?_⟩, ?_⟩
    · rw [outcomes_of_silent h, List.flatMap_nil]
    · rw [toNbt_value_of_silent h]
      rfl

end Item

end CrossEdition
