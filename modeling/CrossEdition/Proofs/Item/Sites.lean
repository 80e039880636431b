import CrossEdition.Proofs.Item.Clauses

/-!
# Sites of items

The data of an entity names items at several sites: the held item, the inventory, the
equipment, a lying item, and the data itself. On the way to Bedrock every item with a name gives
one clause, in the order of the sites, unless it stands in a negative slot. Such an item, and
every entry of the equipment under a key that Bedrock has no location for, has one reminder
instead.

Results:
* `itemsOf_value`, `reminders_itemsOf`: the items of a compound are those of its sites.
* `yields_yield`: what one site gives.
* `findings?_isSome`: there are findings exactly in a compound that is about items, or has a
  tag or a type.
* `findings?_accounts`: every site of every `nbt` value is accounted for.
-/

namespace CrossEdition

namespace Item

/-- A place in the data of an entity where an item may be named. -/
inductive Site where
  | held (item : Tag)
  | stored (item : Tag)
  | worn (key : Text) (item : Tag)
  | lying (item : Tag)
  /-- The data itself. -/
  | whole (item : Tag)

/-- The sites of a compound. Of several entries with one key the first counts. -/
def sites (tag : Tag) : List Site :=
  (tag.get? "SelectedItem").toList.map .held
    ++ (((tag.get? "Inventory").bind Tag.items?).getD []).map .stored
    ++ (((tag.get? "equipment").bind Tag.entries?).getD []).map (fun entry => .worn entry.1 entry.2)
    ++ (tag.get? "Item").toList.map .lying ++ [.whole tag]

namespace Site

/-- The tree that stands at a site. -/
def item : Site → Tag
  | held item | stored item | worn _ item | lying item | whole item => item

/-- The name of the item at a site, if it has one. -/
def id? (site : Site) : Option Text :=
  (site.item.get? "id").bind Tag.scalar?

/-- The slot of the item at a site, which counts for held and stored items only. -/
def slot? : Site → Option Tag
  | held item | stored item => item.get? "Slot"
  | worn .. | lying _ | whole _ => none

/-- The location of an item without a slot. -/
def home? : Site → Option Text
  | held _ => some mainhand
  | worn key _ => equipmentLocation? key
  | stored _ | lying _ | whole _ => none

/-- Whether Bedrock has no location for a site. -/
def IsUnknown : Site → Prop
  | worn key _ => ∀ location, (key, location) ∉ equipment
  | held _ | stored _ | lying _ | whole _ => False

/-- What a site gives. -/
def yield : Site → Noted (Option ItemClause)
  | held item => slotted? item fun c => { c with location := some mainhand }
  | stored item => slotted? item id
  | worn key item => wornClause? key item
  | lying item | whole item => pure (Item.clause? item)

end Site

/-- A slot that is a number, perhaps with a letter for its type. -/
def HasNumber (slot : Tag) (n : Double) : Prop :=
  ∃ t m, slot.scalar? = some t ∧ number? t = some m ∧ Numeral.value? m = some n

/-- Whether a clause asks for the item at a site: by its name without the namespace that Java
    adds, and for at least as many as are there. -/
structure AsksFor (c : ItemClause) (site : Site) : Prop where
  item : ∃ id, site.id? = some id ∧ c.item = (Text.after? "minecraft:" id).getD id
  quantity : c.quantity =
    ((((site.item.get? "Count").or (site.item.get? "count")).bind Tag.scalar?).bind number?).map
      fun n : Text => n ++ ".."

/-- What a site may give: at most one clause, and the reminders about it. -/
inductive Yields (site : Site) : Option ItemClause → List Text → Prop
  | nameless (hid : site.id? = none) (hknown : ¬site.IsUnknown) : Yields site none []
  | unknown {key : Text} {item : Tag} (hsite : site = .worn key item) (hunknown : site.IsUnknown) :
      Yields site none
        ["nbt equipment slot " ++ key ++ " has no Bedrock location and was skipped"]
  | negative {id : Text} {slot : Tag} {n : Double} (hid : site.id? = some id)
      (hslot : site.slot? = some slot) (hn : HasNumber slot n)
      (hneg : n.lt (.zero false) = true) :
      Yields site none
        ["nbt Slot " ++ n.text ++ " has no Bedrock location; the item was skipped"]
  | placed {c : ItemClause} {slot : Tag} {n : Double} (hc : AsksFor c site)
      (hslot : site.slot? = some slot) (hn : HasNumber slot n)
      (hneg : n.lt (.zero false) = false)
      (hplace : (c.location, c.slot) =
        (some (placeOfSlot n.truncate).1, (placeOfSlot n.truncate).2.map Text.ofInt)) :
      Yields site (some c) []
  | misplaced {c : ItemClause} {slot : Tag} (hc : AsksFor c site)
      (hslot : site.slot? = some slot) (hn : ∀ n, ¬HasNumber slot n)
      (hplace : (c.location, c.slot) = (none, none)) :
      Yields site (some c) ["nbt Slot is not a number and was ignored"]
  | unplaced {c : ItemClause} (hc : AsksFor c site) (hslot : site.slot? = none)
      (hknown : ¬site.IsUnknown) (hplace : (c.location, c.slot) = (site.home?, none)) :
      Yields site (some c) []

variable {site : Site} {tag : Tag} {c : ItemClause}

/-! ## One site -/

theorem hasNumber_iff {slot : Tag} {n : Double} :
    HasNumber slot n ↔ (slot.scalar?.bind number?).bind Numeral.value? = some n := by
  simp only [HasNumber, Option.bind_eq_some_iff]
  constructor
  · rintro ⟨t, m, ht, hm, hn⟩
    exact ⟨m, ⟨t, ht, hm⟩, hn⟩
  · rintro ⟨m, ⟨t, ht, hm⟩, hn⟩
    exact ⟨t, m, ht, hm, hn⟩

theorem clause?_eq_none_iff : clause? site.item = none ↔ site.id? = none := by
  change (site.id?.bind fun id => some _) = none ↔ _
  cases site.id? with
  | none => exact iff_of_true rfl rfl
  | some id => exact iff_of_false (Option.some_ne_none _) (Option.some_ne_none _)

/-- The clause of an item asks for it, at no place yet. -/
theorem asksFor_of_clause? (h : clause? site.item = some c) :
    AsksFor c site ∧ c.location = none ∧ c.slot = none := by
  simp only [clause?, Option.bind_eq_bind, Option.bind_eq_some_iff, Option.some.injEq] at h
  obtain ⟨id, hid, rfl⟩ := h
  exact ⟨⟨⟨id, Option.bind_eq_some_iff.2 hid, rfl⟩, rfl⟩, rfl, rfl⟩

theorem AsksFor.exists_id (h : AsksFor c site) : ∃ id, site.id? = some id :=
  h.item.imp fun _ h => h.1

/-- Asking for an item does not depend on the place. -/
theorem AsksFor.moved (h : AsksFor c site) (location slot : Option Text) :
    AsksFor { c with location := location, slot := slot } site :=
  ⟨h.item, h.quantity⟩

/-- An item without a slot is where its site is. -/
theorem yields_unplaced (site : Site) (hslot : site.slot? = none) (hknown : ¬site.IsUnknown) :
    Yields site ((clause? site.item).map fun c => { c with location := site.home? }) [] := by
  cases h : clause? site.item with
  | none => exact .nameless (clause?_eq_none_iff.1 h) hknown
  | some c =>
    obtain ⟨hc, -, hnone⟩ := asksFor_of_clause? h
    exact .unplaced (hc.moved _ _) hslot hknown (by rw [hnone])

theorem yields_place? {slot : Tag} (h : clause? site.item = some c)
    (hslot : site.slot? = some slot) :
    Yields site (place? c slot).value (place? c slot).reminders := by
  obtain ⟨hc, hlocation, hnone⟩ := asksFor_of_clause? h
  unfold place?
  cases hn : (slot.scalar?.bind number?).bind Numeral.value? with
  | none =>
    refine .misplaced hc hslot (fun n hm => ?_) (by rw [hlocation, hnone])
    rw [hasNumber_iff, hn] at hm
    exact absurd hm (by simp)
  | some n =>
    have hm : HasNumber slot n := hasNumber_iff.2 hn
    simp only
    split_ifs with hneg
    · obtain ⟨id, hid⟩ := hc.exists_id
      exact .negative hid hslot hm hneg
    · exact .placed (hc.moved _ _) hslot hm (Bool.eq_false_iff.2 hneg) rfl

theorem yields_slotted? (site : Site) {unplaced : ItemClause → ItemClause}
    (hslot : site.slot? = site.item.get? "Slot") (hknown : ¬site.IsUnknown)
    (hhome : ∀ c : ItemClause, c.location = none → unplaced c = { c with location := site.home? }) :
    Yields site (slotted? site.item unplaced).value (slotted? site.item unplaced).reminders := by
  unfold slotted?
  cases h : clause? site.item with
  | none => exact .nameless (clause?_eq_none_iff.1 h) hknown
  | some c =>
    cases hs : site.item.get? "Slot" with
    | none =>
      have hyields := yields_unplaced site (hslot.trans hs) hknown
      rw [h, Option.map_some, ← hhome c (asksFor_of_clause? h).2.1] at hyields
      exact hyields
    | some slot => exact yields_place? h (hslot.trans hs)

theorem mem_of_equipmentLocation? {key location : Text}
    (h : equipmentLocation? key = some location) : (key, location) ∈ equipment := by
  obtain ⟨front, back, he, -⟩ := List.lookup_eq_some_iff.1 h
  rw [he]
  simp

theorem isUnknown_of_equipmentLocation? {key : Text} (h : equipmentLocation? key = none)
    (location : Text) : (key, location) ∉ equipment := by
  intro hm
  have hne := List.lookup_eq_none_iff.1 h _ hm
  simp at hne

theorem yields_wornClause? (key : Text) (item : Tag) :
    Yields (.worn key item) (wornClause? key item).value (wornClause? key item).reminders := by
  unfold wornClause?
  cases hkey : equipmentLocation? key with
  | none => exact .unknown rfl (isUnknown_of_equipmentLocation? hkey)
  | some location =>
    have hhome : (Site.worn key item).home? = some location := hkey
    have hyields := yields_unplaced (.worn key item) rfl fun hunknown =>
      hunknown location (mem_of_equipmentLocation? hkey)
    rw [hhome] at hyields
    exact hyields

/-- An item at a site without slots and locations. -/
theorem yields_clause? (hslot : site.slot? = none) (hknown : ¬site.IsUnknown)
    (hhome : site.home? = none) : Yields site (clause? site.item) [] := by
  have hyields := yields_unplaced site hslot hknown
  have hsame : ∀ c, clause? site.item = some c → { c with location := site.home? } = c := by
    intro c hc
    rw [hhome, ← (asksFor_of_clause? hc).2.1]
  cases h : clause? site.item with
  | none => rwa [h] at hyields
  | some c => rwa [h, Option.map_some, hsame c h] at hyields

/-- What a site gives is what it may give. -/
theorem yields_yield (site : Site) : Yields site site.yield.value site.yield.reminders := by
  cases site with
  | held item => exact yields_slotted? (.held item) rfl not_false fun c _ => rfl
  | stored item =>
    refine yields_slotted? (.stored item) rfl not_false fun c hc => ?_
    rw [id, Site.home?, ← hc]
  | worn key item => exact yields_wornClause? key item
  | lying item => exact yields_clause? rfl not_false rfl
  | whole item => exact yields_clause? rfl not_false rfl

/-! ## Findings -/

/-- Whether a compound is about items, or has a tag or a type. -/
def isMarked (tag : Tag) : Bool :=
  (itemsOf tag).value ≠ [] || (((tag.get? "Tags").bind Tag.items?).getD []).any (·.scalar?.isSome)
    || ((tag.get? "Type").bind Tag.scalar?).isSome

/-- Whether a text is a compound that is about items, or has a tag or a type. -/
def isMarkedText (nbt : Text) : Bool :=
  match Snbt.read ':' nbt with
  | .ok (.compound entries) => isMarked (.compound entries)
  | _ => false

/-- Whether a value is a compound that is about items, or has a tag or a type. -/
def isMarkedValue : Value → Bool
  | .compound nbt => isMarkedText nbt
  | _ => false

theorem tagParameter?_isSome (tag : Tag) : (tagParameter? tag).value.isSome =
    (((tag.get? "Tags").bind Tag.items?).getD []).any (·.scalar?.isSome) := by
  rw [← List.isSome_findSome?]
  simp only [tagParameter?]
  cases (((tag.get? "Tags").bind Tag.items?).getD []).findSome? Tag.scalar? with
  | none => rfl
  | some first => split_ifs <;> rfl

theorem typeParameter?_isSome (tag : Tag) :
    (typeParameter? tag).isSome = ((tag.get? "Type").bind Tag.scalar?).isSome :=
  Option.isSome_map

/-- There are findings exactly in such a compound. -/
theorem findings?_isSome (nbt : Text) : (findings? nbt).value.isSome = isMarkedText nbt := by
  unfold findings? isMarkedText
  cases Snbt.read ':' nbt with
  | error e => rfl
  | ok tag =>
    cases tag with
    | compound entries =>
      simp only [Noted.value_bind, isMarked, ← tagParameter?_isSome, ← typeParameter?_isSome]
      generalize (itemsOf (.compound entries)).value = items
      generalize (tagParameter? (.compound entries)).value = tag
      generalize typeParameter? (.compound entries) = type
      split_ifs with h
      · obtain ⟨rfl, h⟩ := h
        obtain ⟨htag, htype⟩ := List.append_eq_nil_iff.1 h
        rw [Option.toList_eq_nil_iff] at htag htype
        rw [htag, htype]
        rfl
      · cases tag <;> cases type <;> simp_all
    | list | string | value => rfl

/-! ## All sites -/

/-- The clauses of a compound are those that its sites give, in order, with all their notes. -/
theorem itemsOf_eq (tag : Tag) :
    itemsOf tag = (·.filterMap id) <$> Noted.all ((sites tag).map Site.yield) := by
  refine Noted.ext ?_ ?_
  -- a lying item that is missing is no site, but `itemsOf` looks at it all the same
  · have hlast : ∀ lying : Option Tag, [lying.bind clause?, clause? tag].filterMap id =
        (lying.toList.map fun item => (Site.lying item).yield.value).filterMap id
          ++ [(Site.whole tag).yield.value].filterMap id := by
      rintro (_ | item)
      · rfl
      · cases h : clause? item <;> simp [Site.yield, h]
    simp only [itemsOf, sites, Noted.value_bind, Noted.value_pure, Noted.value_map,
      Noted.value_all, List.map_append, List.map_map, List.filterMap_append, hlast,
      List.append_assoc]
    rfl
  · have hlast : ∀ lying : Option Tag,
        lying.toList.flatMap (fun item => (Site.lying item).yield.notes)
          ++ [Site.whole tag].flatMap (fun site => site.yield.notes) = [] := by
      rintro (_ | item) <;> rfl
    simp only [itemsOf, sites, Noted.notes_bind, Noted.notes_pure, Noted.notes_map, Noted.notes_all,
      List.flatMap_append, List.flatMap_map, List.map_append, List.map_map, List.append_assoc,
      Function.comp_apply, hlast]
    rfl

theorem itemsOf_value (tag : Tag) :
    (itemsOf tag).value = (sites tag).filterMap fun site => site.yield.value := by
  rw [itemsOf_eq, Noted.value_map, Noted.value_all, List.map_map, List.filterMap_map]
  rfl

theorem reminders_itemsOf (tag : Tag) :
    (itemsOf tag).reminders = (sites tag).flatMap fun site => site.yield.reminders := by
  rw [itemsOf_eq, Noted.reminders_map, Noted.reminders_all, List.flatMap_map]

/-- Whether a compound has a tag or a type that Bedrock can look for. -/
def HasMarker (tag : Tag) : Prop :=
  (∃ tags, tag.get? "Tags" = some (.list tags) ∧ ∃ t ∈ tags, t.scalar?.isSome = true) ∨
    ∃ type, tag.get? "Type" = some type ∧ type.scalar?.isSome = true

theorem isMarked_iff (tag : Tag) :
    isMarked tag = true ↔ (itemsOf tag).value ≠ [] ∨ HasMarker tag := by
  have htags : (((tag.get? "Tags").bind Tag.items?).getD []).any (·.scalar?.isSome) = true ↔
      ∃ tags, tag.get? "Tags" = some (.list tags) ∧ ∃ t ∈ tags, t.scalar?.isSome = true := by
    rcases tag.get? "Tags" with _ | (entries | items | t | t) <;> simp [Tag.items?]
  have htype : ((tag.get? "Type").bind Tag.scalar?).isSome = true ↔
      ∃ type, tag.get? "Type" = some type ∧ type.scalar?.isSome = true := by
    cases tag.get? "Type" <;> simp
  simp only [isMarked, Bool.or_eq_true, decide_eq_true_eq, htags, htype, HasMarker, or_assoc]

/-- What an `nbt` value that is a compound gives. -/
theorem findings?_compound {nbt : Text} {entries : List (Text × Tag)}
    (h : Snbt.read ':' nbt = .ok (.compound entries)) :
    (∀ f ∈ (findings? nbt).value, f.items = (itemsOf (.compound entries)).value) ∧
      (findings? nbt).reminders = (itemsOf (.compound entries)).reminders
        ++ (tagParameter? (.compound entries)).reminders
        ++ if (findings? nbt).value = none then []
          else ["nbt=" ++ nbt ++ " was converted structurally; matching may be partial"] := by
  unfold findings?
  simp only [h, Noted.value_bind, Noted.reminders_bind, Noted.reminders_note, Note.reminder?]
  generalize itemsOf (.compound entries) = items
  generalize tagParameter? (.compound entries) = tag
  generalize typeParameter? (.compound entries) = type
  by_cases hnone : items.value = [] ∧ tag.value.toList ++ type.toList = []
  · rw [if_pos hnone]
    exact ⟨fun f hf => absurd hf (by simp), by simp [Noted.reminders_pure]⟩
  · rw [if_neg hnone]
    refine ⟨?_, ?_⟩
    · rintro f ⟨⟩
      rfl
    · simp [Noted.reminders_pure, Noted.reminders_note, Note.reminder?]

/-- Every site of an `nbt` value is accounted for: one outcome for each, in order, from which
    the clauses and the reminders are made. There are findings unless there is no clause and no
    marker. Any other text gives nothing. -/
theorem findings?_accounts (nbt : Text) :
    match Snbt.read ':' nbt with
    | .ok (.compound entries) =>
      ∃ outcomes : List (Option ItemClause × List Text),
        List.Forall₂ (fun site o => Yields site o.1 o.2) (sites (.compound entries)) outcomes ∧
        ((findings? nbt).value = none ↔
          outcomes.filterMap (·.1) = [] ∧ ¬HasMarker (.compound entries)) ∧
        (∀ f ∈ (findings? nbt).value, f.items = outcomes.filterMap (·.1)) ∧
        (findings? nbt).reminders = outcomes.flatMap (·.2)
          ++ (tagParameter? (.compound entries)).reminders
          ++ if (findings? nbt).value = none then []
            else ["nbt=" ++ nbt ++ " was converted structurally; matching may be partial"]
    | _ => (findings? nbt).value = none ∧ (findings? nbt).reminders = [] := by
  split
  · next entries h =>
    obtain ⟨hfound, hsaid⟩ := findings?_compound h
    have hmarked : isMarkedText nbt = isMarked (.compound entries) := by
      rw [isMarkedText, h]
    refine ⟨(sites (.compound entries)).map fun site => (site.yield.value, site.yield.reminders),
      ?_, ?_, ?_, ?_⟩
    · exact List.forall₂_map_right_iff.2 (List.forall₂_same.2 fun site _ => yields_yield site)
    · rw [← Option.not_isSome_iff_eq_none, findings?_isSome, hmarked, isMarked_iff, not_or, not_not,
        itemsOf_value, List.filterMap_map]
      rfl
    · rw [List.filterMap_map]
      exact fun f hf => (hfound f hf).trans (itemsOf_value _)
    · rw [List.flatMap_map, ← reminders_itemsOf]
      exact hsaid
  · next hread =>
    unfold findings?
    split
    · exact ⟨rfl, rfl⟩
    · next entries h => exact absurd h (hread entries)
    · exact ⟨rfl, rfl⟩

end Item

end CrossEdition
