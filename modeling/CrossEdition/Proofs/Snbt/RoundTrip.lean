import CrossEdition.Snbt.Reader
import CrossEdition.Proofs.Text.Scan

/-!
# Printed trees are read back

A printed tree is read back, whatever follows it, if its unquoted values are words: texts
that the reader takes as a whole and that do not look like another kind of tree. Strings
and keys may hold anything, since they are quoted and escaped where they need it.

Results:
* `readKey_keyText`, `readQuoted_quoted`, `readWord_append`: the leaves are read back.
* `readTag_print`: a readable tree is read back in front of any text that can follow it.
* `read_print`: a readable tree is read back from its text.
-/

namespace CrossEdition

/-- Behind the first part each other one follows a separator. -/
theorem Text.join_cons (separator part : Text) (parts : List Text) :
    join separator (part :: parts) = part ++ parts.flatMap (separator ++ ·) := by
  induction parts generalizing part with
  | nil => simp [join]
  | cons next parts ih =>
    rw [join, ih, List.flatMap_cons, List.append_assoc, List.append_assoc]
    simp

namespace Snbt

/-! ## Printing as joining -/

/-- The text of an entry of a compound. -/
def entryText (sep : Char) (entry : Text × Tag) : Text :=
  keyText entry.1 ++ sep :: print sep entry.2

theorem printEntries_eq_join (sep : Char) (entries : List (Text × Tag)) :
    printEntries sep entries = Text.join "," (entries.map (entryText sep)) := by
  induction entries with
  | nil => rfl
  | cons entry rest ih =>
    cases rest with
    | nil => rfl
    | cons next rest =>
      rw [printEntries, ih]
      · simp [Text.join, entryText]
      · simp

theorem printItems_eq_join (sep : Char) (items : List Tag) :
    printItems sep items = Text.join "," (items.map (print sep)) := by
  induction items with
  | nil => rfl
  | cons tag rest ih =>
    cases rest with
    | nil => rfl
    | cons next rest =>
      rw [printItems, ih]
      · simp [Text.join]
      · simp

/-! ## Words -/

/-- The characters with which a tree begins that is no unquoted value. -/
def isOpening (c : Char) : Bool :=
  c = '{' || c = '[' || c = '"' || c = '\''

/-- Whether the reader takes a text, with anything that can follow a value behind it, as one
    unquoted value. -/
def IsWord (t : Text) : Prop :=
  t ≠ [] ∧ Text.trim t = t ∧ (∀ c ∈ t, isWordChar c = true) ∧ ∀ c ∈ t.head?, isOpening c = false

instance (t : Text) : Decidable (IsWord t) :=
  inferInstanceAs (Decidable (_ ∧ _ ∧ _ ∧ _))

/-- Whether a character may stand anywhere in a word. -/
def isInner (c : Char) : Bool :=
  !Text.isBlank c && isWordChar c && !isOpening c

theorem isInner_iff {c : Char} : isInner c = true ↔
    Text.isBlank c = false ∧ isWordChar c = true ∧ isOpening c = false := by
  simp [isInner, and_assoc]

theorem isWord_of_isInner {t : Text} (hne : t ≠ []) (h : ∀ c ∈ t, isInner c = true) : IsWord t := by
  have hall : ∀ c ∈ t, _ := fun c hc => isInner_iff.1 (h c hc)
  refine ⟨hne, Text.trim_eq_self ?_ ?_, fun c hc => (hall c hc).2.1, ?_⟩
  · exact fun c hc => (hall c (List.mem_of_mem_head? hc)).1
  · exact fun c hc => (hall c (List.mem_of_mem_getLast? hc)).1
  · exact fun c hc => (hall c (List.mem_of_mem_head? hc)).2.2

theorem isInner_of_isBareChar {c : Char} (h : isBareChar c = true) : isInner c = true := by
  have hall : ∀ n < 128, isBareChar (Char.ofNat n) = true → isInner (Char.ofNat n) = true := by
    decide
  have hc := hall c.toNat (isBareChar_ascii h)
  rw [Char.ofNat_toNat] at hc
  exact hc h

/-- Whether a text begins with nothing that would prolong an unquoted value. -/
def EndsWord (rest : Text) : Prop :=
  ∀ c ∈ rest.head?, isWordChar c = false

theorem endsWord_nil : EndsWord [] := by
  simp [EndsWord]

theorem endsWord_cons {c : Char} {rest : Text} (h : isWordChar c = false) :
    EndsWord (c :: rest) := by
  simpa [EndsWord] using h

mutual

/-- Whether all unquoted values of a tree are words, and no list begins with one that looks
    like the mark of a typed array. -/
def Readable : Tag → Prop
  | .compound entries => ReadableEntries entries
  | .list items =>
    ReadableItems items ∧ ∀ mark ∈ arrayMarks, ∀ t, items.head? = some (.value t) → ¬ mark <+: t
  | .string _ => True
  | .value t => IsWord t

/-- The same for the entries of a compound. -/
def ReadableEntries : List (Text × Tag) → Prop
  | [] => True
  | (_, tag) :: rest => Readable tag ∧ ReadableEntries rest

/-- The same for the items of a list. -/
def ReadableItems : List Tag → Prop
  | [] => True
  | tag :: rest => Readable tag ∧ ReadableItems rest

end

theorem readableEntries_iff {entries : List (Text × Tag)} :
    ReadableEntries entries ↔ ∀ entry ∈ entries, Readable entry.2 := by
  induction entries with
  | nil => simp [ReadableEntries]
  | cons entry rest ih => rw [ReadableEntries, ih, List.forall_mem_cons]

theorem readableItems_iff {items : List Tag} :
    ReadableItems items ↔ ∀ tag ∈ items, Readable tag := by
  induction items with
  | nil => simp [ReadableItems]
  | cons tag rest ih => rw [ReadableItems, ih, List.forall_mem_cons]

/-- Whether a character may separate keys from values: no bare key goes on with it, and it
    is not skipped. -/
def IsSeparator (c : Char) : Prop :=
  isBareChar c = false ∧ Text.isBlank c = false

instance (c : Char) : Decidable (IsSeparator c) :=
  inferInstanceAs (Decidable (_ ∧ _))

/-- Whether a reader gives `a` and stops in front of `rest`. -/
def Yields {α : Type} (result : Except Error (α × Cursor)) (a : α) (rest : Text) : Prop :=
  ∃ offset, result = .ok (a, ⟨rest, offset⟩)

/-! ## Leaves -/

variable {sep : Char}

theorem skipBlanks_eq_self {c : Cursor} (h : ∀ d ∈ c.rest.head?, Text.isBlank d = false) :
    skipBlanks c = c := by
  obtain ⟨rest, offset⟩ := c
  cases rest with
  | nil => rfl
  | cons d rest => simp [skipBlanks, Cursor.skip, h d rfl, Text.byteLength]

theorem expect_cons {ch : Char} (h : Text.isBlank ch = false) (rest : Text) (offset : Nat) :
    expect ch ⟨ch :: rest, offset⟩ = .ok ⟨rest, offset + ch.utf8Size⟩ := by
  rw [expect, skipBlanks_eq_self (by simpa using h)]
  simp [Cursor.eat?]

theorem readQuoted_quoted (t rest : Text) (offset : Nat) :
    Yields (readQuoted '"' ⟨quoted t ++ rest, offset⟩) t rest := by
  have h := quotedContent?_escape t rest (offset + '"'.utf8Size)
  refine ⟨offset + '"'.utf8Size + Text.byteLength (escape t) + 1, ?_⟩
  simp [readQuoted, quoted, Cursor.drop, h]

theorem not_blank_of_isBareChar {c : Char} (h : isBareChar c = true) : Text.isBlank c = false :=
  (isInner_iff.1 (isInner_of_isBareChar h)).1

theorem takeWhile_append_cons {p : Char → Bool} {t : Text} {c : Char} (rest : Text)
    (ht : ∀ d ∈ t, p d = true) (hc : p c = false) :
    (t ++ c :: rest).takeWhile p = t ∧ (t ++ c :: rest).dropWhile p = c :: rest := by
  rw [List.takeWhile_append_of_pos ht, List.dropWhile_append_of_pos ht]
  simp [hc]

/-- A key is read back in front of the separator. -/
theorem readKey_keyText (hs : IsSeparator sep) (key rest : Text) (offset : Nat) :
    Yields (readKey sep ⟨keyText key ++ sep :: rest, offset⟩) key (sep :: rest) := by
  unfold keyText
  split_ifs with hk
  · rw [isBareKey, Bool.and_eq_true, List.all_eq_true] at hk
    obtain ⟨hne, hbare⟩ := hk
    obtain ⟨c, cs, rfl⟩ := List.exists_cons_of_ne_nil (of_decide_eq_true hne)
    have hc := hbare c (by simp)
    have hsep : ∀ d, isBareChar d = true → d ≠ sep := by
      rintro d hd rfl
      rw [hs.1] at hd
      exact Bool.false_ne_true hd
    obtain ⟨htake, hdrop⟩ := takeWhile_append_cons (t := c :: cs) (c := sep)
      (p := fun d => isBareChar d && decide (d ≠ sep)) rest
      (fun d hd => by simp [hbare d hd, hsep d (hbare d hd)]) (by simp)
    have hquote : c ≠ '"' ∧ c ≠ '\'' := by
      have hall : isBareChar '"' = false ∧ isBareChar '\'' = false := by decide
      constructor
      · rintro rfl
        exact Bool.false_ne_true (hall.1.symm.trans hc)
      · rintro rfl
        exact Bool.false_ne_true (hall.2.symm.trans hc)
    rw [readKey, skipBlanks_eq_self (by simpa using not_blank_of_isBareChar hc)]
    refine ⟨offset + Text.byteLength (c :: cs), ?_⟩
    simp only [List.cons_append] at htake hdrop ⊢
    split
    · next h => exact absurd (List.cons.inj h).1 hquote.1
    · next h => exact absurd (List.cons.inj h).1 hquote.2
    · simp only [Cursor.skip, htake, hdrop, reduceCtorEq, if_false]
  · have hb : Text.isBlank '"' = false := by decide
    obtain ⟨after, h⟩ := readQuoted_quoted key (sep :: rest) offset
    refine ⟨after, ?_⟩
    rw [readKey, skipBlanks_eq_self (by simpa [quoted] using hb)]
    exact h

/-- An unquoted value is read back in front of what can follow it. -/
theorem readWord_append {t rest : Text} (ht : IsWord t) (hr : EndsWord rest) (offset : Nat) :
    Yields (readWord ⟨t ++ rest, offset⟩) (.value t) rest := by
  obtain ⟨hne, htrim, hword, -⟩ := ht
  have hboth : (t ++ rest).takeWhile isWordChar = t ∧ (t ++ rest).dropWhile isWordChar = rest := by
    rw [List.takeWhile_append_of_pos hword, List.dropWhile_append_of_pos hword]
    cases rest with
    | nil => simp
    | cons c rest => simp [hr c rfl]
  refine ⟨offset + Text.byteLength t, ?_⟩
  simp [readWord, Cursor.skip, hboth, htrim, hne]

/-! ## Trees -/

/-- The text of a tree begins with a character that neither is skipped nor ends what it
    stands in. -/
theorem exists_head_print (sep : Char) (tag : Tag) (h : ∀ t, tag = .value t → IsWord t) :
    ∃ c t, print sep tag = c :: t ∧ Text.isBlank c = false ∧ isWordChar c = true := by
  cases tag with
  | compound entries => exact ⟨'{', _, rfl, by decide, by decide⟩
  | list items => exact ⟨'[', _, rfl, by decide, by decide⟩
  | string t => exact ⟨'"', _, rfl, by decide, by decide⟩
  | value t =>
    obtain ⟨hne, htrim, hword, -⟩ := h t rfl
    obtain ⟨c, cs, rfl⟩ := List.exists_cons_of_ne_nil hne
    refine ⟨c, cs, rfl, ?_, hword c (by simp)⟩
    have := Text.head_trim (c :: cs)
    rw [htrim] at this
    exact this c rfl

theorem skipArrayMarks_eq_self {c : Cursor} (h : ∀ mark ∈ arrayMarks, ¬ mark <+: c.rest) :
    skipArrayMarks c = c := by
  unfold skipArrayMarks
  generalize arrayMarks = marks at h
  induction marks with
  | nil => rfl
  | cons mark marks ih =>
    have hm : ¬ mark.isPrefixOf c.rest = true := by
      rw [List.isPrefixOf_iff_prefix]
      exact h mark (by simp)
    rw [List.foldl_cons, if_neg hm]
    exact ih fun m hm => h m (List.mem_cons_of_mem _ hm)

/-- The text of a key begins with a character that neither is skipped nor closes a
    compound. -/
theorem exists_head_keyText (key : Text) :
    ∃ c t, keyText key = c :: t ∧ Text.isBlank c = false ∧ c ≠ '}' := by
  unfold keyText
  split_ifs with hk
  · rw [isBareKey, Bool.and_eq_true, List.all_eq_true] at hk
    obtain ⟨c, cs, rfl⟩ := List.exists_cons_of_ne_nil (of_decide_eq_true hk.1)
    have hc := hk.2 c (by simp)
    refine ⟨c, cs, rfl, not_blank_of_isBareChar hc, ?_⟩
    rintro rfl
    revert hc
    decide
  · exact ⟨'"', _, rfl, by decide, by decide⟩

theorem exists_head_printEntries (sep : Char) {entries : List (Text × Tag)} (hne : entries ≠ []) :
    ∃ c t, printEntries sep entries = c :: t ∧ Text.isBlank c = false ∧ c ≠ '}' := by
  obtain ⟨⟨key, tag⟩, rest, rfl⟩ := List.exists_cons_of_ne_nil hne
  obtain ⟨c, t, ht, hc⟩ := exists_head_keyText key
  cases rest with
  | nil => exact ⟨c, _, by rw [printEntries, ht]; rfl, hc⟩
  | cons next rest => exact ⟨c, _, by rw [printEntries, ht]; rfl; simp, hc⟩

theorem exists_head_printItems (sep : Char) {items : List Tag} (hne : items ≠ [])
    (h : ∀ t, items.head? = some (.value t) → IsWord t) :
    ∃ c t, printItems sep items = c :: t ∧ Text.isBlank c = false ∧ c ≠ ']' := by
  obtain ⟨tag, rest, rfl⟩ := List.exists_cons_of_ne_nil hne
  obtain ⟨c, t, ht, hb, hw⟩ := exists_head_print sep tag fun t ht => h t (by rw [ht]; rfl)
  have hc : c ≠ ']' := by
    rintro rfl
    revert hw
    decide
  cases rest with
  | nil => exact ⟨c, t, ht, hb, hc⟩
  | cons next rest => exact ⟨c, _, by rw [printItems, ht]; rfl; simp, hb, hc⟩

/-- What stands behind an entry or an item. -/
theorem endsWord_close {c : Char} (h : c = ',' ∨ c = '}' ∨ c = ']') (rest : Text) :
    EndsWord (c :: rest) := by
  refine endsWord_cons ?_
  rcases h with rfl | rfl | rfl <;> decide

/-- A mark in front of which a value stands is a mark of the value. -/
theorem prefix_of_prefix_append {mark t rest : Text} (hm : mark ∈ arrayMarks)
    (hr : EndsWord rest) (h : mark <+: t ++ rest) : mark <+: t := by
  have hword : ∀ mark ∈ arrayMarks, ∀ c ∈ mark, isWordChar c = true := by
    decide
  obtain ⟨s, hs⟩ := h
  rcases List.append_eq_append_iff.1 hs with ⟨u, rfl, -⟩ | ⟨u, rfl, rfl⟩
  · exact List.prefix_append mark u
  · cases u with
    | nil => simp
    | cons c u =>
      have hc := hr c rfl
      rw [hword _ hm c (by simp)] at hc
      exact absurd hc (by simp)

/-- The text of a list goes on behind its first item with a comma or with its end. -/
theorem printItems_cons_append (sep : Char) (tag : Tag) (more : List Tag) (rest : Text) :
    ∃ d tail, (d = ',' ∨ d = ']') ∧
      printItems sep (tag :: more) ++ ']' :: rest = print sep tag ++ d :: tail := by
  cases more with
  | nil => exact ⟨']', rest, .inr rfl, rfl⟩
  | cons next more =>
    refine ⟨',', printItems sep (next :: more) ++ ']' :: rest, .inl rfl, ?_⟩
    rw [printItems, List.append_assoc, List.cons_append]
    simp

/-- The text of a list does not begin like a typed array unless its first item does. -/
theorem unmarked_printItems (sep : Char) {items : List Tag} (hne : items ≠ [])
    (h : ∀ mark ∈ arrayMarks, ∀ t, items.head? = some (.value t) → ¬ mark <+: t)
    (rest : Text) : ∀ mark ∈ arrayMarks, ¬ mark <+: printItems sep items ++ ']' :: rest := by
  have hheads : ∀ mark ∈ arrayMarks, ∀ c ∈ mark.head?, isOpening c = false := by
    decide
  have hsome : ∀ mark ∈ arrayMarks, mark ≠ [] := by
    decide
  obtain ⟨tag, more, rfl⟩ := List.exists_cons_of_ne_nil hne
  obtain ⟨d, tail, hd, ht⟩ := printItems_cons_append sep tag more rest
  have hends : EndsWord (d :: tail) := endsWord_close (hd.imp_right .inr) tail
  intro mark hm hp
  rw [ht] at hp
  have hopen : ∀ c t, print sep tag = c :: t → isOpening c = true → False := by
    intro c t hc ho
    rw [hc] at hp
    obtain ⟨d, ds, rfl⟩ := List.exists_cons_of_ne_nil (hsome mark hm)
    obtain ⟨rfl, -⟩ := List.cons_prefix_cons.1 hp
    rw [hheads _ hm d rfl] at ho
    exact Bool.false_ne_true ho
  cases tag with
  | compound entries => exact hopen '{' _ rfl (by decide)
  | list items => exact hopen '[' _ rfl (by decide)
  | string t => exact hopen '"' _ rfl (by decide)
  | value t => exact h mark hm t rfl (prefix_of_prefix_append hm hends hp)

/-! ### One step into a tree -/

variable {fuel offset : Nat} {rest : Text}

theorem readTag_emptyCompound :
    Yields (readTag sep (fuel + 1) ⟨print sep (.compound []) ++ rest, offset⟩) (.compound [])
      rest := by
  refine ⟨offset + '{'.utf8Size + '}'.utf8Size, ?_⟩
  simp [readTag, print, printEntries, skipBlanks, Cursor.skip, Cursor.drop, Cursor.eat?]
  rfl

/-- A compound is read back if its entries are. -/
theorem readTag_compound {entries : List (Text × Tag)} (hne : entries ≠ [])
    (h : Yields (readEntries sep fuel
      ⟨printEntries sep entries ++ '}' :: rest, offset + '{'.utf8Size⟩) entries rest) :
    Yields (readTag sep (fuel + 1) ⟨print sep (.compound entries) ++ rest, offset⟩)
      (.compound entries) rest := by
  have hbrace : Text.isBlank '{' = false := by decide
  obtain ⟨c, t, ht, hb, hc⟩ := exists_head_printEntries sep hne
  obtain ⟨after, ha⟩ := h
  refine ⟨after, ?_⟩
  rw [readTag, skipBlanks_eq_self (by simpa [print] using hbrace)]
  rw [ht, List.cons_append] at ha
  simp only [print, ht, List.cons_append, List.append_assoc, List.nil_append, Cursor.drop,
    List.drop_succ_cons, List.drop_zero, List.take_succ_cons, List.take_zero,
    Text.byteLength_cons, Text.byteLength_nil, Nat.add_zero]
  rw [skipBlanks_eq_self (by simpa using hb)]
  simp only [Cursor.eat?, if_neg hc, ha]
  rfl

theorem readTag_emptyList :
    Yields (readTag sep (fuel + 1) ⟨print sep (.list []) ++ rest, offset⟩) (.list []) rest := by
  refine ⟨offset + '['.utf8Size + ']'.utf8Size, ?_⟩
  simp [readTag, print, printItems, skipBlanks, Cursor.skip, Cursor.drop, Cursor.eat?,
    skipArrayMarks, arrayMarks]
  rfl

/-- A list is read back if its items are. -/
theorem readTag_list {items : List Tag} (hne : items ≠ []) (hread : Readable (.list items))
    (h : Yields (readItems sep fuel
      ⟨printItems sep items ++ ']' :: rest, offset + '['.utf8Size⟩) items rest) :
    Yields (readTag sep (fuel + 1) ⟨print sep (.list items) ++ rest, offset⟩) (.list items)
      rest := by
  have hbracket : Text.isBlank '[' = false := by decide
  obtain ⟨c, t, ht, hb, hc⟩ := exists_head_printItems sep hne fun t ht =>
    readableItems_iff.1 hread.1 (.value t) (List.mem_of_mem_head? ht)
  have hmarks := unmarked_printItems sep hne hread.2 rest
  obtain ⟨after, ha⟩ := h
  refine ⟨after, ?_⟩
  rw [readTag, skipBlanks_eq_self (by simpa [print] using hbracket)]
  rw [ht, List.cons_append] at ha hmarks
  simp only [print, ht, List.cons_append, List.append_assoc, List.nil_append, Cursor.drop,
    List.drop_succ_cons, List.drop_zero, List.take_succ_cons, List.take_zero,
    Text.byteLength_cons, Text.byteLength_nil, Nat.add_zero]
  rw [skipArrayMarks_eq_self hmarks, skipBlanks_eq_self (by simpa using hb)]
  simp only [Cursor.eat?, if_neg hc, ha]
  rfl

theorem readTag_string (t : Text) :
    Yields (readTag sep (fuel + 1) ⟨print sep (.string t) ++ rest, offset⟩) (.string t) rest := by
  have hquote : Text.isBlank '"' = false := by decide
  obtain ⟨after, ha⟩ := readQuoted_quoted t rest offset
  refine ⟨after, ?_⟩
  rw [readTag, skipBlanks_eq_self (by simpa [print, quoted] using hquote)]
  simp only [print, quoted, List.cons_append] at ha ⊢
  rw [ha]
  rfl

theorem readTag_value {t : Text} (h : IsWord t) (hr : EndsWord rest) :
    Yields (readTag sep (fuel + 1) ⟨print sep (.value t) ++ rest, offset⟩) (.value t) rest := by
  obtain ⟨c, cs, hc, hb, -⟩ := exists_head_print sep (.value t) fun u hu =>
    Tag.value.inj hu ▸ h
  obtain ⟨after, ha⟩ := readWord_append h hr offset
  refine ⟨after, ?_⟩
  obtain rfl : t = c :: cs := hc
  rw [readTag, skipBlanks_eq_self (by simpa [print] using hb)]
  have ho : isOpening c = false := h.2.2.2 c rfl
  simp only [isOpening, Bool.or_eq_false_iff, decide_eq_false_iff_not] at ho
  obtain ⟨⟨⟨h1, h2⟩, h3⟩, h4⟩ := ho
  simp only [print, List.cons_append] at ha ⊢
  split
  · next he => exact absurd he (by simp)
  · next he => exact absurd (List.cons.inj he).1 h1
  · next he => exact absurd (List.cons.inj he).1 h2
  · next he => exact absurd (List.cons.inj he).1 h3
  · next he => exact absurd (List.cons.inj he).1 h4
  · exact ha

/-! ### Whole trees -/

mutual

/-- A readable tree is read back in front of anything that can follow it. Two steps for each
    character are enough, and one more for the items of a list. -/
theorem readTag_print (hs : IsSeparator sep) : ∀ (tag : Tag), Readable tag → ∀ (fuel : Nat),
    2 * (print sep tag).length ≤ fuel → ∀ rest, EndsWord rest → ∀ offset,
      Yields (readTag sep fuel ⟨print sep tag ++ rest, offset⟩) tag rest
  | .compound entries, h, fuel, hf, rest, _, offset => by
    simp only [print, List.cons_append, List.length_cons, List.length_append,
      List.length_nil] at hf
    obtain ⟨fuel, rfl⟩ : ∃ n, fuel = n + 1 := ⟨fuel - 1, by omega⟩
    by_cases hne : entries = []
    · subst hne
      exact readTag_emptyCompound
    · exact readTag_compound hne (readEntries_print hs entries hne h fuel (by omega) rest _)
  | .list items, h, fuel, hf, rest, _, offset => by
    simp only [print, List.cons_append, List.length_cons, List.length_append,
      List.length_nil] at hf
    obtain ⟨fuel, rfl⟩ : ∃ n, fuel = n + 1 := ⟨fuel - 1, by omega⟩
    by_cases hne : items = []
    · subst hne
      exact readTag_emptyList
    · exact readTag_list hne h (readItems_print hs items hne h.1 fuel (by omega) rest _)
  | .string t, _, fuel, hf, rest, _, offset => by
    simp only [print, quoted, List.cons_append, List.length_cons] at hf
    obtain ⟨fuel, rfl⟩ : ∃ n, fuel = n + 1 := ⟨fuel - 1, by omega⟩
    exact readTag_string t
  | .value t, h, fuel, hf, rest, hr, offset => by
    have hne : 0 < t.length := List.length_pos_of_ne_nil h.1
    rw [print] at hf
    obtain ⟨fuel, rfl⟩ : ∃ n, fuel = n + 1 := ⟨fuel - 1, by omega⟩
    exact readTag_value h hr

theorem readEntries_print (hs : IsSeparator sep) : ∀ (entries : List (Text × Tag)),
    entries ≠ [] → ReadableEntries entries → ∀ (fuel : Nat),
    2 * (printEntries sep entries).length ≤ fuel → ∀ rest offset,
      Yields (readEntries sep fuel ⟨printEntries sep entries ++ '}' :: rest, offset⟩) entries rest
  | [], hne, _, _, _, _, _ => absurd rfl hne
  | [(key, tag)], _, h, fuel, hf, rest, offset => by
    simp only [printEntries, List.length_append, List.length_cons] at hf
    obtain ⟨fuel, rfl⟩ : ∃ n, fuel = n + 1 := ⟨fuel - 1, by omega⟩
    obtain ⟨o₁, h₁⟩ := readKey_keyText hs key (print sep tag ++ '}' :: rest) offset
    obtain ⟨o₂, h₂⟩ := readTag_print hs tag h.1 fuel (by omega) ('}' :: rest)
      (endsWord_close (by simp) rest) (o₁ + sep.utf8Size)
    refine ⟨o₂ + '}'.utf8Size, ?_⟩
    have hb : Text.isBlank '}' = false := by decide
    rw [readEntries]
    simp only [printEntries, List.append_assoc, List.cons_append, h₁, expect_cons hs.2, h₂,
      bind, Except.bind]
    rw [skipBlanks_eq_self (by simpa using hb)]
    simp [Cursor.eat?, expect_cons hb]
  | (key, tag) :: next :: more, _, h, fuel, hf, rest, offset => by
    simp only [printEntries, List.length_append, List.length_cons] at hf
    obtain ⟨fuel, rfl⟩ : ∃ n, fuel = n + 1 := ⟨fuel - 1, by omega⟩
    obtain ⟨o₁, h₁⟩ := readKey_keyText hs key
      (print sep tag ++ ',' :: (printEntries sep (next :: more) ++ '}' :: rest)) offset
    obtain ⟨o₂, h₂⟩ := readTag_print hs tag h.1 fuel (by omega)
      (',' :: (printEntries sep (next :: more) ++ '}' :: rest)) (endsWord_close (by simp) _)
      (o₁ + sep.utf8Size)
    obtain ⟨o₃, h₃⟩ := readEntries_print hs (next :: more) (by simp) h.2 fuel (by omega) rest
      (o₂ + ','.utf8Size)
    refine ⟨o₃, ?_⟩
    have hb : Text.isBlank ',' = false := by decide
    rw [readEntries]
    simp only [printEntries, List.append_assoc, List.cons_append, h₁, expect_cons hs.2, h₂,
      bind, Except.bind]
    rw [skipBlanks_eq_self (by simpa using hb)]
    simp [Cursor.eat?, h₃]

theorem readItems_print (hs : IsSeparator sep) : ∀ (items : List Tag), items ≠ [] →
    ReadableItems items → ∀ (fuel : Nat), 2 * (printItems sep items).length + 1 ≤ fuel →
    ∀ rest offset,
      Yields (readItems sep fuel ⟨printItems sep items ++ ']' :: rest, offset⟩) items rest
  | [], hne, _, _, _, _, _ => absurd rfl hne
  | [tag], _, h, fuel, hf, rest, offset => by
    obtain ⟨fuel, rfl⟩ : ∃ n, fuel = n + 1 := ⟨fuel - 1, by omega⟩
    rw [printItems] at hf
    obtain ⟨o, ho⟩ := readTag_print hs tag h.1 fuel (by omega) (']' :: rest)
      (endsWord_close (by simp) rest) offset
    refine ⟨o + ']'.utf8Size, ?_⟩
    have hb : Text.isBlank ']' = false := by decide
    rw [readItems]
    simp only [printItems, ho, bind, Except.bind]
    rw [skipBlanks_eq_self (by simpa using hb)]
    simp [Cursor.eat?, expect_cons hb]
  | tag :: next :: more, _, h, fuel, hf, rest, offset => by
    simp only [printItems, List.length_append, List.length_cons] at hf
    obtain ⟨fuel, rfl⟩ : ∃ n, fuel = n + 1 := ⟨fuel - 1, by omega⟩
    obtain ⟨o₁, h₁⟩ := readTag_print hs tag h.1 fuel (by omega)
      (',' :: (printItems sep (next :: more) ++ ']' :: rest)) (endsWord_close (by simp) _) offset
    obtain ⟨o₂, h₂⟩ := readItems_print hs (next :: more) (by simp) h.2 fuel (by omega) rest
      (o₁ + ','.utf8Size)
    refine ⟨o₂, ?_⟩
    have hb : Text.isBlank ',' = false := by decide
    rw [readItems]
    simp only [printItems, List.append_assoc, List.cons_append, h₁, bind, Except.bind]
    rw [skipBlanks_eq_self (by simpa using hb)]
    simp [Cursor.eat?, h₂]

end

/-- A readable tree is read back from its text. -/
theorem read_print (hs : IsSeparator sep) {tag : Tag} (h : Readable tag) :
    read sep (print sep tag) = .ok tag := by
  obtain ⟨after, ha⟩ := readTag_print hs tag h (2 * (print sep tag).length + 2) (by omega) []
    endsWord_nil 0
  rw [List.append_nil] at ha
  simp only [read, Cursor.start, ha, bind, Except.bind]
  rfl

end Snbt

end CrossEdition
