import CrossEdition.Proofs.Item.Placing
import CrossEdition.Proofs.Snbt.Reading

/-!
# Which clauses are read back

The texts that are written for items put names between quotes without escaping them, and
clauses hold items without quoting them. So a text is read back as the clauses it was written
for exactly if the names need no escapes, and the items are words.

Results:
* `ids_inventoryText_iff`, `ids_equipmentText_iff`: which names are found in the texts for Java.
* `spelled_tagOf_iff`: which clauses are found in the text for Bedrock.
* `reread_iff`: both, for all that is converted.
-/

namespace CrossEdition

namespace Item

variable {name rest : Text} {slot : Option Int} {fuel offset : Nat} {tag : Tag} {after : Cursor}
  {entries : List (Text × Tag)}

/-! ## Names between quotes -/

/-- A name between quotes is its content only if it holds nothing to escape. -/
theorem isPlain_of_quotedContent?
    (h : Snbt.quotedContent? '"' (name ++ '"' :: rest) offset = some (name, after)) :
    IsPlain name := by
  by_cases hq : '"' ∈ name
  · obtain ⟨a, b, rfl, ha⟩ := List.eq_append_cons_of_mem hq
    rw [List.append_assoc, List.cons_append] at h
    rcases Snbt.idxOf_quote_of_quotedContent? ha h with ⟨-, he⟩ | hlt
    · simp at he
    · rw [Snbt.idxOf_append_cons, List.idxOf_of_notMem ha] at hlt
      omega
  · rcases Snbt.idxOf_quote_of_quotedContent? hq h with ⟨hb, -⟩ | hlt
    · exact ⟨hq, hb⟩
    · rw [List.idxOf_of_notMem hq] at hlt
      omega

/-- The first id of a compound that begins with one. -/
theorem idsOfEntries_of_readEntries
    (h : Snbt.readEntries ':' fuel ⟨Snbt.keyText "id" ++ ':' :: '"' :: (name ++ '"' :: rest),
      offset⟩ = .ok (entries, after)) :
    ∃ u more, idsOfEntries entries = u :: more ∧ (u = name → IsPlain name) := by
  obtain ⟨n, _, tag, c, more, rfl, htag, rfl, -⟩ := Snbt.readEntries_cons isSeparator_colon h
  obtain ⟨n, rfl⟩ := Snbt.exists_fuel_of_readTag htag
  obtain ⟨u, _, rfl, hu⟩ := Snbt.quotedContent?_of_readTag htag
  refine ⟨u, idsOfEntries more, by simp [idsOfEntries, ids, Tag.scalar?], ?_⟩
  rintro rfl
  exact isPlain_of_quotedContent? hu

/-- What is read at the text of an item is a compound with an id, which is the name of the item
    only if that is plain. -/
theorem ids_of_readTag_entryText (hfuel : 2 * (entryText slot name).length ≤ fuel)
    (h : Snbt.readTag ':' fuel ⟨entryText slot name ++ rest, offset⟩ = .ok (tag, after)) :
    ∃ entries u more, tag = .compound entries ∧ idsOfEntries entries = u :: more ∧
      (u = name → IsPlain name) := by
  obtain ⟨n, rfl⟩ := Snbt.exists_fuel_of_readTag h
  have hid : Snbt.keyText "id" = "id" := by decide
  have hslot : Snbt.keyText "Slot" = "Slot" := by decide
  cases slot with
  | none =>
    have htext : entryText none name ++ rest =
        '{' :: (Snbt.keyText "id" ++ ':' :: '"' :: (name ++ '"' :: ('}' :: rest))) := by
      rw [hid]
      simp [entryText]
    rw [htext] at h
    obtain ⟨entries, rfl, hentries⟩ := Snbt.readEntries_of_readTag (by rw [hid]; simp; decide) h
    obtain ⟨u, more, hu⟩ := idsOfEntries_of_readEntries hentries
    exact ⟨entries, u, more, rfl, hu⟩
  | some k =>
    have htext : entryText (some k) name ++ rest =
        '{' :: (Snbt.keyText "Slot" ++ ':' :: (Snbt.print ':' (.value (Text.ofInt k ++ ['b'])) ++
          ',' :: (Snbt.keyText "id" ++ ':' :: '"' :: (name ++ '"' :: ('}' :: rest))))) := by
      rw [hid, hslot]
      simp [entryText, Snbt.print]
    have hlength : 2 * (Snbt.print ':' (.value (Text.ofInt k ++ ['b']))).length + 2 ≤ n := by
      have hslot : ("Slot:" : Text).length = 5 := by decide
      simp only [entryText, Option.map_some, Option.getD_some, List.length_cons,
        List.length_append, hslot] at hfuel
      simp only [Snbt.print, List.length_append, List.length_singleton]
      omega
    rw [htext] at h
    obtain ⟨entries, rfl, hentries⟩ :=
      Snbt.readEntries_of_readTag (by rw [hslot]; simp; decide) h
    obtain ⟨n, _, tag, c, more, rfl, htag, rfl, hmore⟩ :=
      Snbt.readEntries_cons isSeparator_colon hentries
    obtain ⟨rfl, hrest⟩ := Snbt.eq_of_readTag_print isSeparator_colon
      (show Snbt.Readable (.value _) from isWord_slot k) (by omega)
      (Snbt.endsWord_close (.inl rfl) _) htag
    obtain ⟨_, hmore⟩ := hmore _ hrest
    obtain ⟨u, others, hu, hplain⟩ := idsOfEntries_of_readEntries hmore
    have hkey : ¬ ("Slot" : Text) = "id" := by decide
    exact ⟨_, u, others, rfl, by rw [idsOfEntries, if_neg hkey, ids, hu]; rfl, hplain⟩

/-! ## Names in the texts for Java -/

/-- If the names of inventory items are found in their text, they are plain. -/
theorem isPlain_of_ids_inventoryText {items : List (Option Int × Text)}
    (h : Snbt.read ':' (inventoryText items) = .ok tag) (hids : ids tag = items.map (·.2)) :
    ∀ item ∈ items, IsPlain item.2 := by
  intro item hitem
  have hkey : Snbt.keyText "Inventory" = "Inventory" := by decide
  have hid : ¬ ("Inventory" : Text) = "id" := by decide
  have htext : inventoryText items = '{' :: (Snbt.keyText "Inventory" ++ ':' :: '[' ::
      (Text.join "," (items.map fun item => entryText item.1 item.2) ++ ']' :: ['}'])) := by
    rw [hkey]
    unfold inventoryText
    simp
  obtain ⟨t, ht⟩ : ∃ t, Text.join "," (items.map fun item => entryText item.1 item.2) ++
      ']' :: ['}'] = '{' :: t := by
    obtain ⟨first, more, rfl⟩ := List.exists_cons_of_ne_nil (List.ne_nil_of_mem hitem)
    exact ⟨_, by rw [List.map_cons, Text.join_cons]; rfl⟩
  rw [htext] at h
  obtain ⟨n, _, tag, more, after, hn, rfl, htag⟩ :=
    Snbt.readTag_of_read_compound isSeparator_colon h
  obtain ⟨n, rfl⟩ := Snbt.exists_fuel_of_readTag htag
  rw [ht] at htag
  obtain ⟨tags, rfl, htags⟩ := Snbt.readItems_of_readTag (Snbt.unmarked_brace t)
    (by simp; decide) htag
  rw [← ht] at htags
  rw [ids, idsOfEntries, if_neg hid, ids, List.nil_append] at hids
  simp only [List.length_cons, List.length_append] at hn
  -- the ids that were read may go on behind the items
  refine Snbt.forall_of_readItems isSeparator_colon (fun item => itemTag item.1 item.2)
    (fun tags items => ∃ more, idsOfItems tags ++ more = items.map (·.2))
    (fun item hi => ⟨readable_itemTag _ _, entryText_eq_print hi _⟩) ?_ ?_ (by omega) htags
    ⟨_, hids⟩ item hitem
  · intro item items tag tags fuel offset after rest hfuel htag htells
    obtain ⟨entries, u, others, rfl, hu, hplain⟩ := ids_of_readTag_entryText hfuel htag
    obtain ⟨more, htells⟩ := htells
    rw [idsOfItems, ids, hu, List.map_cons] at htells
    exact hplain (List.cons.inj htells).1
  · rintro item items tags ⟨more, htells⟩
    rw [idsOfItems, ids_itemTag, List.map_cons] at htells
    exact ⟨more, (List.cons.inj htells).2⟩

/-- The names of inventory items are found in their text exactly if they are plain. -/
theorem ids_inventoryText_iff (items : List (Option Int × Text)) :
    (Snbt.read ':' (inventoryText items)).map ids = .ok (items.map (·.2)) ↔
      ∀ item ∈ items, IsPlain item.2 := by
  constructor
  · intro h
    obtain ⟨tag, hread, hids⟩ := exists_of_map_ok h
    exact isPlain_of_ids_inventoryText hread hids
  · intro h
    rw [inventoryText_eq_print h, Snbt.read_print isSeparator_colon (readable_inventoryTag _)]
    exact congrArg Except.ok (ids_inventoryTag items)

/-- If the names of worn items are found in their text, they are plain. -/
theorem isPlain_of_ids_equipmentText {worn : List (Text × Text)}
    (hkeys : ∀ w ∈ worn, Snbt.keyText w.1 = w.1)
    (h : Snbt.read ':' (equipmentText worn) = .ok tag) (hids : ids tag = worn.map (·.2)) :
    ∀ w ∈ worn, IsPlain w.2 := by
  intro w hw
  have hkey : Snbt.keyText "equipment" = "equipment" := by decide
  have hid : ¬ ("equipment" : Text) = "id" := by decide
  have hentries : worn.map (fun w => w.1 ++ ':' :: entryText none w.2) =
      worn.map fun w => Snbt.keyText w.1 ++ ':' :: entryText none w.2 :=
    List.map_congr_left fun w hw => by rw [hkeys w hw]
  have htext : equipmentText worn = '{' :: (Snbt.keyText "equipment" ++ ':' :: '{' ::
      (Text.join "," (worn.map fun w => Snbt.keyText w.1 ++ ':' :: entryText none w.2) ++
        '}' :: ['}'])) := by
    rw [hkey, ← hentries]
    unfold equipmentText
    simp
  rw [htext] at h
  obtain ⟨n, _, tag, more, after, hn, rfl, htag⟩ :=
    Snbt.readTag_of_read_compound isSeparator_colon h
  obtain ⟨n, rfl⟩ := Snbt.exists_fuel_of_readTag htag
  have hhead : ∀ d ∈ (Text.join "," (worn.map fun w => Snbt.keyText w.1 ++ ':' ::
      entryText none w.2) ++ '}' :: ['}']).head?, Text.isBlank d = false ∧ d ≠ '}' := by
    obtain ⟨first, more, rfl⟩ := List.exists_cons_of_ne_nil (List.ne_nil_of_mem hw)
    obtain ⟨d, ds, hd, hdb⟩ := Snbt.exists_head_keyText first.1
    rw [List.map_cons, Text.join_cons, hd]
    simpa using hdb
  obtain ⟨entries, rfl, hentries⟩ := Snbt.readEntries_of_readTag hhead htag
  rw [ids, idsOfEntries, if_neg hid, ids, List.nil_append] at hids
  simp only [List.length_cons, List.length_append] at hn
  refine Snbt.forall_of_readEntries isSeparator_colon (fun w => w.1) (fun w => itemTag none w.2)
    (fun entries worn => ∃ more, idsOfEntries entries ++ more = worn.map (·.2))
    (fun w hw => ⟨readable_itemTag _ _, entryText_eq_print hw _⟩) ?_ ?_ (by omega) hentries
    ⟨_, hids⟩ w hw
  · intro w worn tag entries fuel offset after rest hfuel htag htells
    obtain ⟨item, u, others, rfl, hu, hplain⟩ := ids_of_readTag_entryText hfuel htag
    obtain ⟨more, htells⟩ := htells
    rw [idsOfEntries, ids, hu, List.map_cons] at htells
    simp only [Tag.scalar?, Option.toList_none, ite_self, List.nil_append] at htells
    exact hplain (List.cons.inj htells).1
  · rintro w worn entries ⟨more, htells⟩
    have hscalar : (itemTag none w.2).scalar? = none := rfl
    rw [idsOfEntries, ids_itemTag, hscalar, List.map_cons] at htells
    simp only [Option.toList_none, ite_self, List.nil_append] at htells
    exact ⟨more, (List.cons.inj htells).2⟩

/-- The names of worn items are found in their text exactly if they are plain. -/
theorem ids_equipmentText_iff {worn : List (Text × Text)}
    (hkeys : ∀ w ∈ worn, Snbt.keyText w.1 = w.1) :
    (Snbt.read ':' (equipmentText worn)).map ids = .ok (worn.map (·.2)) ↔
      ∀ w ∈ worn, IsPlain w.2 := by
  constructor
  · intro h
    obtain ⟨tag, hread, hids⟩ := exists_of_map_ok h
    exact isPlain_of_ids_equipmentText hkeys hread hids
  · intro h
    rw [equipmentText_eq_print hkeys h,
      Snbt.read_print isSeparator_colon (readable_equipmentTag _)]
    exact congrArg Except.ok (ids_equipmentTag worn)

/-- Of each text for Java, the names are found in it exactly if they are plain. -/
theorem ids_texts_iff (cs : List ItemClause) :
    List.Forall₂ (fun text names => (Snbt.read ':' text).map ids = .ok names ↔
      ∀ name ∈ names, IsPlain name) (texts cs) (represented cs) := by
  have hcarried := ids_inventoryText_iff (carriedNames cs)
  have hworn := ids_equipmentText_iff fun w (hw : w ∈ wornNames cs) => keyText_of_mem_wornNames hw
  rw [← List.forall_mem_map (P := IsPlain)] at hcarried hworn
  unfold texts represented
  refine List.rel_append ?_ ?_
  · split_ifs
    · exact .nil
    · exact .cons hcarried .nil
  · split_ifs
    · exact .nil
    · exact .cons hworn .nil

end Item

namespace ItemClause

variable {c : ItemClause} {cs : List ItemClause} {rest : Text} {fuel offset : Nat} {tag : Tag}
  {after : Cursor}

/-! ## Items in the text for Bedrock -/

/-- The clauses that a tree spells: itself, or its items. -/
def spelled : Tag → List (Option ItemClause)
  | .compound entries => [ofEntries? entries]
  | .list items => items.map fun tag => tag.entries?.bind ofEntries?
  | .string _ | .value _ => []

theorem spelled_tagOf (hne : cs ≠ []) : spelled (tagOf cs) = cs.map some := by
  match cs with
  | [] => exact absurd rfl hne
  | [c] => exact congrArg (fun c => [c]) (ofEntries?_fields c)
  | c :: d :: cs =>
    rw [tagOf, spelled, List.map_map]
    · exact List.map_congr_left fun c _ => ofEntries?_fields c
    · simp

/-- What is read at the text of a clause is a compound, which spells the clause only if its item
    is a word. -/
theorem entries_of_readTag_print
    (h : Snbt.readTag '=' fuel ⟨Snbt.print '=' c.tag ++ rest, offset⟩ = .ok (tag, after)) :
    ∃ entries, tag = .compound entries ∧ (ofEntries? entries = some c → Snbt.IsWord c.item) := by
  obtain ⟨fuel, rfl⟩ := Snbt.exists_fuel_of_readTag h
  have hkey : Snbt.keyText "item" = "item" := by decide
  obtain ⟨d, more, hd, htext⟩ : ∃ d more, (d = ',' ∨ d = '}') ∧ Snbt.print '=' c.tag ++ rest =
      '{' :: (Snbt.keyText "item" ++ '=' :: (c.item ++ d :: more)) := by
    rw [ItemClause.tag, fields, Snbt.print]
    cases fieldEntry "quantity" c.quantity ++ fieldEntry "location" c.location
        ++ fieldEntry "slot" c.slot with
    | nil => exact ⟨'}', rest, .inr rfl, by simp [Snbt.printEntries, Snbt.print]⟩
    | cons entry entries =>
      refine ⟨',', Snbt.printEntries '=' (entry :: entries) ++ '}' :: rest, .inl rfl, ?_⟩
      rw [Snbt.printEntries]
      · simp [Snbt.print]
      · simp
  rw [htext] at h
  obtain ⟨entries, rfl, hentries⟩ := Snbt.readEntries_of_readTag (by rw [hkey]; simp; decide) h
  obtain ⟨n, _, tag, _, others, rfl, htag, rfl, -⟩ :=
    Snbt.readEntries_cons isSeparator_equals hentries
  refine ⟨_, rfl, fun hs => Snbt.isWord_of_readTag hd htag ?_⟩
  obtain ⟨item, hitem, hc⟩ := Option.map_eq_some_iff.1 hs
  rw [field?_cons, if_pos rfl] at hitem
  rw [hitem, ← hc]

/-- If a list of clauses is spelled by its text, the items are words. -/
theorem isWord_of_spelled_list (hne : cs ≠ []) (h : ∀ c ∈ cs, c.FieldsAreWords)
    (hread : Snbt.read '=' (Snbt.print '=' (.list (cs.map ItemClause.tag))) = .ok tag)
    (hspelled : spelled tag = cs.map some) : ∀ c ∈ cs, Snbt.IsWord c.item := by
  obtain ⟨after, htag⟩ := Snbt.readTag_of_read hread
  obtain ⟨t, ht⟩ : ∃ t, Text.join "," (cs.map fun c => Snbt.print '=' c.tag) ++ ']' :: [] =
      '{' :: t := by
    obtain ⟨first, more, rfl⟩ := List.exists_cons_of_ne_nil hne
    exact ⟨_, by rw [List.map_cons, Text.join_cons]; rfl⟩
  have htext : Snbt.print '=' (.list (cs.map ItemClause.tag)) = '[' :: '{' :: t := by
    rw [Snbt.print, Snbt.printItems_eq_join, List.map_map, List.cons_append]
    exact congrArg _ ht
  rw [htext] at htag
  obtain ⟨tags, rfl, htags⟩ := Snbt.readItems_of_readTag (Snbt.unmarked_brace t)
    (by simp; decide) htag
  rw [← ht] at htags
  suffices hall : ∀ c ∈ cs, c.FieldsAreWords ∧ Snbt.IsWord c.item from fun c hc => (hall c hc).2
  refine Snbt.forall_of_readItems isSeparator_equals ItemClause.tag
    (fun tags cs => (∀ c ∈ cs, c.FieldsAreWords) ∧
      tags.map (fun tag : Tag => tag.entries?.bind ofEntries?) = cs.map some)
    (fun c hc => ⟨hc.1.readable hc.2, rfl⟩) ?_ ?_ ?_ htags ⟨h, hspelled⟩
  · rintro c cs tag tags fuel offset after rest - htag ⟨hall, hspelled⟩
    obtain ⟨entries, rfl, hword⟩ := entries_of_readTag_print htag
    exact ⟨hall c (by simp), hword (List.cons.inj hspelled).1⟩
  · rintro c cs tags ⟨hall, hspelled⟩
    exact ⟨(List.forall_mem_cons.1 hall).2, (List.cons.inj hspelled).2⟩
  · simp only [List.length_cons, List.length_append]
    omega

/-- The clauses that are written for Bedrock are spelled by their text exactly if their items
    are words, since their other fields are. -/
theorem spelled_tagOf_iff (hne : cs ≠ []) (h : ∀ c ∈ cs, c.FieldsAreWords) :
    (Snbt.read '=' (Snbt.print '=' (tagOf cs))).map spelled = .ok (cs.map some) ↔
      ∀ c ∈ cs, Snbt.IsWord c.item := by
  constructor
  · intro hr
    obtain ⟨tag, hread, hspelled⟩ := exists_of_map_ok hr
    match cs with
    | [] => exact absurd rfl hne
    | [c] =>
      obtain ⟨after, htag⟩ := Snbt.readTag_of_read hread
      rw [tagOf, ← List.append_nil (Snbt.print '=' c.tag)] at htag
      obtain ⟨entries, rfl, hword⟩ := entries_of_readTag_print htag
      exact List.forall_mem_singleton.2 (hword (List.cons.inj hspelled).1)
    | c :: d :: cs => exact isWord_of_spelled_list hne h hread hspelled
  · intro hw
    rw [Snbt.read_print isSeparator_equals (readable_tagOf fun c hc => ⟨h c hc, hw c hc⟩)]
    exact congrArg Except.ok (spelled_tagOf hne)

end ItemClause

namespace Item

/-- The parameter for items holds the clauses that were found. -/
theorem spelled_parameters_iff {nbt : Text} {found : Findings} {p : Parameter}
    (h : (findings? nbt).value = some found) (hp : p ∈ found.parameters)
    (hname : p.name = "hasitem") :
    (Snbt.read '=' p.value.text).map ItemClause.spelled = .ok (found.items.map some) ↔
      ∀ c ∈ found.items, Snbt.IsWord c.item := by
  have hextras : p ∉ found.extras := fun he => by
    have := name_mem_extras h he
    rw [hname] at this
    revert this
    decide
  rw [Findings.parameters, List.mem_append, Option.mem_toList] at hp
  have hp := hp.resolve_right hextras
  have hne : found.items ≠ [] := by
    rintro hnil
    simp [hnil, ItemClause.parameter?] at hp
  rw [ItemClause.parameter?_eq_print hne] at hp
  rw [← Option.some.inj hp, Parameter.ofTexts, Value.read_print '=' (ItemClause.isBranch_tagOf _),
    Value.text]
  exact ItemClause.spelled_tagOf_iff hne (fieldsAreWords_of_findings? h)

/-! ## Texts that are read back -/

/-- What is converted is read back as it was meant exactly if names and items can stand in the
    texts as they are. Of the texts that look for the items of clauses in Java's data, each one
    spells a tree with the names of its clauses if and only if they are plain. The parameter
    for the items that `nbt` names spells the clauses that were found, in order, if and only if
    their items are words. -/
theorem reread_iff (values : List Text) (nbt : Text) :
    List.Forall₂ (fun text names => (Snbt.read ':' text).map ids = .ok names ↔
        ∀ name ∈ names, IsPlain name)
      (toNbt values).value (represented (kept values)) ∧
    ∀ found, (findings? nbt).value = some found →
      (ofNbt? nbt).value = some found.parameters ∧
      ∀ p ∈ found.parameters, p.name = "hasitem" →
        ((Snbt.read '=' p.value.text).map ItemClause.spelled = .ok (found.items.map some) ↔
          ∀ c ∈ found.items, Snbt.IsWord c.item) := by
  refine ⟨?_, fun found h => ⟨?_, fun p hp hname => spelled_parameters_iff h hp hname⟩⟩
  · rw [toNbt_value, compounds_placement]
    exact ids_texts_iff _
  · rw [ofNbt?, Noted.value_bind, h]
    rfl

/-- Names with a namespace and items with a blank are read back. -/
theorem reread_iff_worn_and_spaced :
    (Snbt.read ':' "\x7bInventory:[\x7bid:\"minecraft:apple\"\x7d]\x7d").map ids =
        .ok ["minecraft:apple"] ∧
      (Snbt.read ':' "\x7bequipment:\x7bhead:\x7bid:\"mod:cap\"\x7d\x7d\x7d").map ids =
        .ok ["mod:cap"] ∧
      ∃ found, (findings? "\x7bid:\"minecraft:stone\",Item:\x7bid:\"a b\",Count:3b\x7d\x7d").value =
          some found ∧
        found.items = [⟨"a b", some "3..", none, none⟩, ⟨"stone", none, none, none⟩] ∧
        ∃ p ∈ found.parameters, p.name = "hasitem" ∧
          (Snbt.read '=' p.value.text).map ItemClause.spelled = .ok (found.items.map some) := by
  have hwords : ∀ c ∈ ([⟨"a b", some "3..", none, none⟩, ⟨"stone", none, none, none⟩] :
      List ItemClause), Snbt.IsWord c.item := by
    decide
  obtain ⟨htexts, hparameter⟩ := reread_iff
    ["[\x7bitem=apple\x7d,\x7bitem=mod:cap,location=slot.armor.head\x7d]"]
    "\x7bid:\"minecraft:stone\",Item:\x7bid:\"a b\",Count:3b\x7d\x7d"
  have hnbt : (toNbt ["[\x7bitem=apple\x7d,\x7bitem=mod:cap,location=slot.armor.head\x7d]"]).value =
      (["\x7bInventory:[\x7bid:\"minecraft:apple\"\x7d]\x7d",
        "\x7bequipment:\x7bhead:\x7bid:\"mod:cap\"\x7d\x7d\x7d"] : List Text) := by
    decide +kernel
  have hkept : represented
      (kept ["[\x7bitem=apple\x7d,\x7bitem=mod:cap,location=slot.armor.head\x7d]"]) =
        ([["minecraft:apple"], ["mod:cap"]] : List (List Text)) := by
    decide +kernel
  rw [hnbt, hkept] at htexts
  obtain _ | ⟨hinventory, _ | ⟨hequipment, -⟩⟩ := htexts
  refine ⟨hinventory.2 (by decide), hequipment.2 (by decide),
    ⟨[⟨"a b", some "3..", none, none⟩, ⟨"stone", none, none, none⟩], []⟩, ?_, rfl,
    _, List.mem_singleton_self _, rfl, ?_⟩
  · decide +kernel
  · exact ((hparameter _ (by decide +kernel)).2 _ (List.mem_singleton_self _) rfl).2 hwords

/-- A quote in a name ends the string in front of the name's end, and a comma in an item ends
    the item. -/
theorem not_reread_of_marks :
    (toNbt ["\x7bitem='a\"b'\x7d"]).value = (["\x7bInventory:[\x7bid:\"minecraft:a\"b\"\x7d]\x7d"] :
        List Text) ∧
      (Snbt.read ':' "\x7bInventory:[\x7bid:\"minecraft:a\"b\"\x7d]\x7d").map ids ≠
        .ok ["minecraft:a\"b"] ∧
      (ofNbt? "\x7bInventory:[\x7bid:\"a,b\"\x7d]\x7d").value =
        some [.ofTexts "hasitem" "\x7bitem=a,b\x7d"] ∧
      (Snbt.read '=' "\x7bitem=a,b\x7d").map ItemClause.spelled ≠
        .ok [some ⟨"a,b", none, none, none⟩] := by
  decide +kernel

end Item

end CrossEdition
