import CrossEdition.Item.OfNbt
import CrossEdition.Item.ToNbt
import CrossEdition.Proofs.Decimal.Printing
import CrossEdition.Proofs.Selector.Values
import CrossEdition.Proofs.Snbt.RoundTrip

/-!
# Clauses as trees

An item clause is written as a compound of its fields, and several clauses as a list of such
compounds. The fields are not quoted, so they are read back if they are words.

Results:
* `text_eq_print`: the text of a clause is a printed compound.
* `parameter?_eq_print`: the parameter for several clauses holds one printed tree.
* `clauses_print`: clauses whose fields are words are read back from it.
* `fieldsAreWords_of_findings?`: of the clauses found in `nbt`, only the item may be no word.
-/

namespace CrossEdition

/-! ## Parameters that hold trees -/

/-- Whether a tree is no leaf. -/
def Tag.IsBranch : Tag → Prop
  | .compound _ | .list _ => True
  | .string _ | .value _ => False

theorem Snbt.trim_print {tag : Tag} (sep : Char) (h : tag.IsBranch) :
    Text.trim (print sep tag) = print sep tag := by
  cases tag with
  | compound entries => exact Text.trim_between (by decide) (by decide) _
  | list items => exact Text.trim_between (by decide) (by decide) _
  | string t => exact h.elim
  | value t => exact h.elim

theorem Value.read_print {tag : Tag} (sep : Char) (h : tag.IsBranch) :
    read (Snbt.print sep tag) = compound (Snbt.print sep tag) := by
  have hhead : (Snbt.print sep tag).head? = some '{' ∨ (Snbt.print sep tag).head? = some '[' := by
    cases tag with
    | compound entries => exact .inl rfl
    | list items => exact .inr rfl
    | string t => exact h.elim
    | value t => exact h.elim
  simp only [read, Snbt.trim_print sep h, if_pos hhead]

namespace ItemClause

variable {c : ItemClause} {cs : List ItemClause}

/-! ## Printing -/

/-- One field of a clause behind the item, as an entry of a compound. -/
def fieldEntry (key : Text) (value : Option Text) : List (Text × Tag) :=
  (value.map fun t => (key, Tag.value t)).toList

/-- The fields of a clause. -/
def fields (c : ItemClause) : List (Text × Tag) :=
  ("item", .value c.item) :: (fieldEntry "quantity" c.quantity ++ fieldEntry "location" c.location
    ++ fieldEntry "slot" c.slot)

/-- The tree of a clause. -/
def tag (c : ItemClause) : Tag :=
  .compound c.fields

/-- The tree of several clauses: the clause itself if there is one, else a list. -/
def tagOf : List ItemClause → Tag
  | [c] => c.tag
  | cs => .list (cs.map tag)

theorem fieldText_eq {k : Text} (hk : Snbt.keyText k = k) (value : Option Text) :
    fieldText k value = (fieldEntry k value).flatMap (',' :: Snbt.entryText '=' ·) := by
  cases value with
  | none => rfl
  | some t => simp [fieldText, fieldEntry, Snbt.entryText, Snbt.print, hk]

/-- The text of a clause is a printed compound. -/
theorem text_eq_print (c : ItemClause) : c.text = Snbt.print '=' c.tag := by
  have hitem : Snbt.entryText '=' ("item", .value c.item) = "item=" ++ c.item := by
    rw [Snbt.entryText, show Snbt.keyText "item" = "item" by decide, Snbt.print]
    rfl
  have hquantity := fieldText_eq (k := "quantity") (by decide) c.quantity
  have hlocation := fieldText_eq (k := "location") (by decide) c.location
  have hslot := fieldText_eq (k := "slot") (by decide) c.slot
  have hopen : ("\x7bitem=" : Text) = '{' :: ("item=" : Text) := by decide
  have hclose : ("\x7d" : Text) = ['}'] := by decide
  have hcomma : ("," : Text) = [','] := by decide
  rw [tag, Snbt.print, Snbt.printEntries_eq_join, fields, List.map_cons, Text.join_cons, hitem,
    List.flatMap_map, List.flatMap_append, List.flatMap_append, hcomma]
  -- the equations of `text` take long to find
  unfold text
  rw [hquantity, hlocation, hslot, hopen, hclose]
  simp only [List.append_assoc, List.cons_append, List.nil_append]

theorem isBranch_tagOf (cs : List ItemClause) : (tagOf cs).IsBranch := by
  unfold tagOf
  split <;> trivial

/-- The text of several clauses, as the parameter for them holds it. -/
theorem parameter?_eq_print (hne : cs ≠ []) :
    parameter? cs = some (.ofTexts "hasitem" (Snbt.print '=' (tagOf cs))) := by
  match cs with
  | [] => exact absurd rfl hne
  | [c] => rw [parameter?, text_eq_print, tagOf]
  | c :: d :: cs =>
    have htext : text = Snbt.print '=' ∘ tag := funext text_eq_print
    rw [parameter?, tagOf, Snbt.print, Snbt.printItems_eq_join, htext, List.map_map]
    all_goals simp

/-! ## Reading -/

/-- The text of the first entry with this key, if it is a scalar. -/
def field? (key : Text) (entries : List (Text × Tag)) : Option Text :=
  (entries.lookup key).bind Tag.scalar?

/-- The clause that the entries of a compound spell, if they name an item. -/
def ofEntries? (entries : List (Text × Tag)) : Option ItemClause :=
  (field? "item" entries).map fun item =>
    ⟨item, field? "quantity" entries, field? "location" entries, field? "slot" entries⟩

theorem field?_cons (key other : Text) (tag : Tag) (rest : List (Text × Tag)) :
    field? key ((other, tag) :: rest) = if other = key then tag.scalar? else field? key rest := by
  rw [field?, Text.lookup_cons]
  split_ifs <;> rfl

theorem field?_fieldEntry_append (key other : Text) (value : Option Text)
    (rest : List (Text × Tag)) :
    field? key (fieldEntry other value ++ rest) =
      if other = key then value.or (field? key rest) else field? key rest := by
  cases value with
  | none => simp [fieldEntry]
  | some t => simp [fieldEntry, field?_cons, Tag.scalar?]

/-- The fields of a clause spell it. -/
theorem ofEntries?_fields (c : ItemClause) : ofEntries? c.fields = some c := by
  have hkeys : ("item" : Text) ≠ "quantity" ∧ ("item" : Text) ≠ "location" ∧
      ("item" : Text) ≠ "slot" ∧ ("quantity" : Text) ≠ "location" ∧
      ("quantity" : Text) ≠ "slot" ∧ ("location" : Text) ≠ "slot" := by
    decide
  have hnil : ∀ key, field? key [] = none := fun _ => rfl
  rw [ofEntries?, fields, List.append_assoc, ← List.append_nil (fieldEntry "slot" c.slot)]
  simp only [field?_cons, field?_fieldEntry_append, hkeys, hkeys.2.2.2.1.symm,
    hkeys.2.2.2.2.1.symm, hkeys.2.2.2.2.2.symm, hnil, ite_true, ite_false, Option.or_none,
    Tag.scalar?, Option.map_some]

/-- Whether the fields of a clause behind the item are words. -/
def FieldsAreWords (c : ItemClause) : Prop :=
  ∀ t, t ∈ c.quantity ∨ t ∈ c.location ∨ t ∈ c.slot → Snbt.IsWord t

/-- A clause that is placed keeps its quantity. -/
theorem FieldsAreWords.placed (h : c.FieldsAreWords) {location : Text}
    (hl : Snbt.IsWord location) {slot : Option Text} (hs : ∀ t ∈ slot, Snbt.IsWord t) :
    FieldsAreWords { c with location := some location, slot := slot } := by
  rintro t (ht | ht | ht)
  · exact h t (.inl ht)
  · rw [← Option.some.inj ht]
    exact hl
  · exact hs t ht

/-- A clause is readable if its item and its fields are words. -/
theorem FieldsAreWords.readable (h : c.FieldsAreWords) (hitem : Snbt.IsWord c.item) :
    Snbt.Readable c.tag := by
  rw [tag, Snbt.Readable, Snbt.readableEntries_iff, fields, List.forall_mem_cons]
  refine ⟨hitem, fun entry he => ?_⟩
  simp only [fieldEntry, List.mem_append, Option.mem_toList, Option.map_eq_some_iff] at he
  rcases he with (⟨t, ht, rfl⟩ | ⟨t, ht, rfl⟩) | ⟨t, ht, rfl⟩
  · exact h t (.inl ht)
  · exact h t (.inr (.inl ht))
  · exact h t (.inr (.inr ht))

theorem isSeparator_equals : Snbt.IsSeparator '=' := by
  decide

/-- A list of clauses of words is readable, also one of a single clause. -/
theorem readable_list (h : ∀ c ∈ cs, c.FieldsAreWords ∧ Snbt.IsWord c.item) :
    Snbt.Readable (.list (cs.map tag)) := by
  refine ⟨Snbt.readableItems_iff.2 fun t ht => ?_, fun mark _ t ht => ?_⟩
  · obtain ⟨c, hc, rfl⟩ := List.mem_map.1 ht
    exact (h c hc).1.readable (h c hc).2
  · rw [List.head?_map] at ht
    obtain ⟨c, -, hc⟩ := Option.map_eq_some_iff.1 ht
    exact absurd hc (by simp [tag])

theorem readable_tagOf (h : ∀ c ∈ cs, c.FieldsAreWords ∧ Snbt.IsWord c.item) :
    Snbt.Readable (tagOf cs) := by
  match cs with
  | [] => exact readable_list h
  | [c] => exact (h c (by simp)).1.readable (h c (by simp)).2
  | c :: d :: cs => exact readable_list h

/-- A list of clauses of words is read back, also one of a single clause. -/
theorem clauses_printList (h : ∀ c ∈ cs, c.FieldsAreWords ∧ Snbt.IsWord c.item) :
    Item.clauses (Snbt.print '=' (.list (cs.map tag))) = pure (cs.map fields) := by
  have hentries : (cs.map tag).filterMap Tag.entries? = cs.map fields := by
    rw [List.filterMap_map]
    exact List.filterMap_eq_map_iff_forall_eq_some.2 fun _ _ => rfl
  rw [Item.clauses, Snbt.read_print isSeparator_equals (readable_list h)]
  exact congrArg pure hentries

/-- Clauses of words are read back from the text of their parameter. -/
theorem clauses_print (hne : cs ≠ []) (h : ∀ c ∈ cs, c.FieldsAreWords ∧ Snbt.IsWord c.item) :
    Item.clauses (Snbt.print '=' (tagOf cs)) = pure (cs.map fields) := by
  match cs with
  | [] => exact absurd rfl hne
  | [c] =>
    rw [Item.clauses, Snbt.read_print isSeparator_equals (readable_tagOf h)]
    rfl
  | c :: d :: cs => exact clauses_printList h

end ItemClause

/-! ## Clauses that were found -/

namespace Item

/-- The characters of counts and slots: digits of any script, a sign and a point. -/
def isNumberChar (c : Char) : Bool :=
  Text.isDecimalDigit c || c = '-' || c = '.'

theorem isInner_of_isNumberChar {c : Char} (h : isNumberChar c = true) :
    Snbt.isInner c = true := by
  have hblank : ∀ first ∈ Text.decimalZeros, ∀ range ∈ Text.blankRanges,
      first + 9 < range.1 ∨ range.2 < first := by
    decide
  have hother : ∀ first ∈ Text.decimalZeros, ∀ c ∈ ([',', '}', ']', '{', '[', '"', '\''] : Text),
      first + 9 < c.toNat ∨ c.toNat < first := by
    decide
  simp only [isNumberChar, Bool.or_eq_true, decide_eq_true_eq] at h
  rcases h with (h | rfl) | rfl
  · obtain ⟨first, hz, hc⟩ := List.any_eq_true.1 h
    simp only [Bool.and_eq_true, decide_eq_true_eq] at hc
    have hne : ∀ d ∈ ([',', '}', ']', '{', '[', '"', '\''] : Text), c ≠ d := by
      rintro d hd rfl
      have := hother first hz c hd
      omega
    refine Snbt.isInner_iff.2 ⟨?_, ?_, ?_⟩
    · by_contra hb
      rw [Bool.not_eq_false] at hb
      obtain ⟨range, hr, hm⟩ := List.any_eq_true.1 hb
      simp only [Bool.and_eq_true, decide_eq_true_eq] at hm
      have := hblank first hz range hr
      omega
    · simp [Snbt.isWordChar, hne]
    · simp [Snbt.isOpening, hne]
  · decide
  · decide

theorem mem_of_mem_dropEndWhile {p : Char → Bool} {t : Text} {c : Char}
    (h : c ∈ Text.dropEndWhile p t) : c ∈ t :=
  List.mem_reverse.1 ((List.dropWhile_sublist p).subset (List.mem_reverse.1 h))

/-- Normalizing adds no character but a zero. -/
theorem mem_of_mem_normalize {t : Text} {c : Char} (h : c ∈ Numeral.normalize t) :
    c ∈ t ∨ c = '0' := by
  simp only [Numeral.normalize] at h
  split_ifs at h
  · exact .inr (by simpa using h)
  · exact .inl (Text.mem_of_mem_trim (mem_of_mem_dropEndWhile (mem_of_mem_dropEndWhile h)))
  · exact .inl (Text.mem_of_mem_trim h)

theorem isNumberChar_of_mem_numberFraction {t : Text} {c : Char}
    (h : c ∈ (numberFraction t).1) : isNumberChar c = true := by
  unfold numberFraction at h
  split at h
  · simp only at h
    split_ifs at h
    · simp at h
    · rcases List.mem_cons.1 h with rfl | h
      · decide
      · simp [isNumberChar, List.mem_takeWhile_imp h]
  · simp at h

theorem normalize_ne_nil {t : Text} (h : Text.trim t ≠ []) : Numeral.normalize t ≠ [] := by
  simp only [Numeral.normalize]
  split_ifs with _ hshort
  · decide
  · exact fun hn => hshort (.inl hn)
  · exact h

/-- A number that was found is spelled with characters of numbers. -/
theorem isNumberChar_of_number? {t n : Text} (h : number? t = some n) :
    n ≠ [] ∧ ∀ c ∈ n, isNumberChar c = true := by
  have hnumber : ∀ sign body : Text, (∀ c ∈ sign, c = '-') →
      body.takeWhile Text.isDecimalDigit ≠ [] →
      Numeral.normalize (sign ++ body.takeWhile Text.isDecimalDigit
        ++ (numberFraction (body.dropWhile Text.isDecimalDigit)).1) = n →
      n ≠ [] ∧ ∀ c ∈ n, isNumberChar c = true := by
    rintro sign body hsign hne rfl
    have hall : ∀ c ∈ sign ++ body.takeWhile Text.isDecimalDigit
        ++ (numberFraction (body.dropWhile Text.isDecimalDigit)).1, isNumberChar c = true := by
      intro c hc
      rw [List.mem_append, List.mem_append] at hc
      rcases hc with (hc | hc) | hc
      · rw [hsign c hc]
        decide
      · simp [isNumberChar, List.mem_takeWhile_imp hc]
      · exact isNumberChar_of_mem_numberFraction hc
    have hword := Snbt.isWord_of_isInner (by simp [hne]) fun c hc =>
      isInner_of_isNumberChar (hall c hc)
    refine ⟨normalize_ne_nil (by rw [hword.2.1]; exact hword.1), fun c hc => ?_⟩
    rcases mem_of_mem_normalize hc with hc | rfl
    · exact hall c hc
    · decide
  simp only [number?] at h
  split at h
  · next body _ =>
    split_ifs at h with hw
    exact hnumber "-" body (by decide) hw.1 (Option.some.inj h)
  · split_ifs at h with hw
    exact hnumber "" (Text.trim t) (by decide) hw.1 (Option.some.inj h)

theorem isNumberChar_of_mem_ofInt {n : Int} {c : Char} (h : c ∈ Text.ofInt n) :
    isNumberChar c = true := by
  have hdigit : ∀ c ∈ Text.ofNat n.natAbs, isNumberChar c = true := fun c hc => by
    simp [isNumberChar, Text.isDecimalDigit_of_isDigit (Text.isDigit_of_mem_ofNat hc)]
  unfold Text.ofInt at h
  split_ifs at h
  · rcases List.mem_cons.1 h with rfl | h
    · decide
    · exact hdigit c h
  · exact hdigit c h

theorem isWord_ofInt (n : Int) : Snbt.IsWord (Text.ofInt n) := by
  refine Snbt.isWord_of_isInner ?_ fun c hc =>
    isInner_of_isNumberChar (isNumberChar_of_mem_ofInt hc)
  unfold Text.ofInt
  split_ifs
  · simp
  · exact Text.ofNat_ne_nil _

theorem isWord_location : (∀ slot, Snbt.IsWord (placeOfSlot slot).1) ∧ Snbt.IsWord mainhand ∧
    ∀ worn ∈ equipment, Snbt.IsWord worn.2 := by
  have hwords : Snbt.IsWord mainhand ∧ Snbt.IsWord offhand ∧ Snbt.IsWord hotbar ∧
      Snbt.IsWord inventory := by
    decide
  refine ⟨fun slot => ?_, hwords.1, by decide⟩
  unfold placeOfSlot
  split_ifs
  · exact hwords.1
  · exact hwords.2.1
  · exact hwords.2.2.1
  · exact hwords.2.2.2

/-- A clause that is not placed asks at most for a number of its item. -/
theorem fieldsAreWords_of_clause? {tag : Tag} {c : ItemClause} (h : clause? tag = some c) :
    c.FieldsAreWords ∧ c.slot = none := by
  simp only [clause?, Option.bind_eq_bind, Option.bind_eq_some_iff, Option.some.injEq] at h
  have hdots : ∀ c ∈ (".." : Text), isNumberChar c = true := by
    decide
  obtain ⟨id, -, rfl⟩ := h
  refine ⟨?_, rfl⟩
  rintro t (ht | ht | ht)
  · obtain ⟨n, hn, rfl⟩ := Option.map_eq_some_iff.1 ht
    obtain ⟨count, -, hn⟩ := Option.bind_eq_some_iff.1 hn
    obtain ⟨hne, hall⟩ := isNumberChar_of_number? hn
    refine Snbt.isWord_of_isInner (by simp [hne]) fun c hc => isInner_of_isNumberChar ?_
    rcases List.mem_append.1 hc with hc | hc
    · exact hall c hc
    · exact hdots c hc
  · simp at ht
  · simp at ht

theorem fieldsAreWords_of_place? {c d : ItemClause} {slot : Tag} (hc : c.FieldsAreWords)
    (h : (place? c slot).value = some d) : d.FieldsAreWords := by
  unfold place? at h
  split at h
  · rw [← Option.some.inj h]
    exact hc
  · split_ifs at h
    rw [← Option.some.inj h]
    refine hc.placed (isWord_location.1 _) fun t ht => ?_
    obtain ⟨n, -, rfl⟩ := Option.map_eq_some_iff.1 ht
    exact isWord_ofInt n

theorem fieldsAreWords_of_slotted? {tag : Tag} {unplaced : ItemClause → ItemClause}
    {d : ItemClause}
    (hu : ∀ c : ItemClause, c.FieldsAreWords → c.slot = none → (unplaced c).FieldsAreWords)
    (h : (slotted? tag unplaced).value = some d) : d.FieldsAreWords := by
  unfold slotted? at h
  split at h
  · simp at h
  · next c hc =>
    obtain ⟨hw, hs⟩ := fieldsAreWords_of_clause? hc
    split at h
    · exact fieldsAreWords_of_place? hw h
    · rw [← Option.some.inj h]
      exact hu c hw hs

theorem fieldsAreWords_of_wornClause? {key : Text} {tag : Tag} {d : ItemClause}
    (h : (wornClause? key tag).value = some d) : d.FieldsAreWords := by
  unfold wornClause? at h
  split at h
  · simp at h
  · next location hl =>
    obtain ⟨c, hc, rfl⟩ := Option.map_eq_some_iff.1 h
    obtain ⟨hw, hs⟩ := fieldsAreWords_of_clause? hc
    obtain ⟨front, rest, he, -⟩ := List.lookup_eq_some_iff.1 hl
    have hm : (key, location) ∈ equipment := by
      rw [he]
      simp
    refine hw.placed (isWord_location.2.2 _ hm) fun t ht => ?_
    rw [hs] at ht
    simp at ht

/-- Of the clauses that are found in `nbt`, only the items may be no words. -/
theorem fieldsAreWords_of_findings? {nbt : Text} {found : Findings}
    (h : (findings? nbt).value = some found) : ∀ c ∈ found.items, c.FieldsAreWords := by
  have hitems : ∀ tag, ∀ c ∈ (itemsOf tag).value, c.FieldsAreWords := by
    intro tag c hc
    simp only [itemsOf, Noted.value_bind, Noted.value_pure, Noted.value_all, List.map_map,
      List.mem_filterMap, List.mem_append, List.mem_map, id_eq, exists_eq_right] at hc
    rcases hc with ((⟨a, -, ha⟩ | ⟨a, -, ha⟩) | ⟨a, -, ha⟩) | hc
    · refine fieldsAreWords_of_slotted? (fun d hd hs => ?_) ha
      refine hd.placed isWord_location.2.1 fun t ht => ?_
      rw [hs] at ht
      simp at ht
    · exact fieldsAreWords_of_slotted? (fun d hd _ => hd) ha
    · exact fieldsAreWords_of_wornClause? ha
    · rcases List.mem_cons.1 hc with hc | hc
      · obtain ⟨tag, -, hc⟩ := Option.bind_eq_some_iff.1 hc.symm
        exact (fieldsAreWords_of_clause? hc).1
      · exact (fieldsAreWords_of_clause? (List.mem_singleton.1 hc).symm).1
  unfold findings? at h
  split at h
  · simp at h
  · simp only [Noted.value_bind] at h
    split_ifs at h
    rw [← Option.some.inj h]
    exact hitems _
  · simp at h

/-- The entity markers of a compound become tags and types. -/
theorem exists_ofTexts_of_mem_extras {nbt : Text} {f : Findings} {p : Parameter}
    (h : (findings? nbt).value = some f) (hp : p ∈ f.extras) :
    ∃ name ∈ (["tag", "type"] : List Text), ∃ t, p = .ofTexts name t := by
  have htag : ∀ tag, ∀ p ∈ (tagParameter? tag).value, ∃ t, p = .ofTexts "tag" t := by
    intro tag p hp
    simp only [tagParameter?] at hp
    split at hp
    · simp at hp
    · split_ifs at hp <;> exact ⟨_, (Option.some.inj hp).symm⟩
  have htype : ∀ tag, ∀ p ∈ typeParameter? tag, ∃ t, p = .ofTexts "type" t := by
    intro tag p hp
    obtain ⟨t, -, rfl⟩ := Option.map_eq_some_iff.1 hp
    exact ⟨t, rfl⟩
  unfold findings? at h
  split at h
  · simp at h
  · simp only [Noted.value_bind] at h
    split_ifs at h
    rw [← Option.some.inj h, List.mem_append, Option.mem_toList, Option.mem_toList] at hp
    rcases hp with hp | hp
    · exact ⟨"tag", by simp, htag _ p hp⟩
    · exact ⟨"type", by simp, htype _ p hp⟩
  · simp at h

theorem name_mem_extras {nbt : Text} {f : Findings} {p : Parameter}
    (h : (findings? nbt).value = some f) (hp : p ∈ f.extras) :
    p.name ∈ (["tag", "type"] : List Text) := by
  obtain ⟨name, hname, t, rfl⟩ := exists_ofTexts_of_mem_extras h hp
  exact hname

end Item

end CrossEdition
