import CrossEdition.Proofs.Snbt.Reading

/-!
# The text of a tree is a normal form

A tree that was read holds words for its unquoted values, whatever text it was read from, so
its own text is read as the same tree again. The one exception is a list whose first item
looks like the mark of a typed array: the reader takes the mark for one and leaves it out.

Results:
* `Tag.inductionOnMembers`: induction over trees.
* `worded_of_readTag`: the unquoted values of a tree that was read are words.
* `readable_iff`: a tree is read back if its values are words and no list of it begins with
  a mark.
* `honest_of_worded`: no other tree of words is read back.
* `read_print_iff`: a tree that was read is read back from its text exactly if no list of it
  begins with a mark.
-/

namespace CrossEdition

/-- Induction over a tree, with the hypothesis for all members of a compound or a list. -/
@[elab_as_elim]
theorem Tag.inductionOnMembers {motive : Tag → Prop}
    (compound : ∀ entries, (∀ entry ∈ entries, motive entry.2) → motive (.compound entries))
    (list : ∀ items, (∀ tag ∈ items, motive tag) → motive (.list items))
    (string : ∀ u, motive (.string u)) (value : ∀ u, motive (.value u)) : ∀ tag, motive tag
  | .compound entries =>
    compound entries fun entry hm =>
      have : sizeOf entry.2 < sizeOf entries := by
        have hentry := List.sizeOf_lt_of_mem hm
        have hsecond : sizeOf entry = 1 + sizeOf entry.1 + sizeOf entry.2 := rfl
        omega
      inductionOnMembers compound list string value entry.2
  | .list items =>
    list items fun tag hm =>
      have := List.sizeOf_lt_of_mem hm
      inductionOnMembers compound list string value tag
  | .string u => string u
  | .value u => value u
termination_by tag => sizeOf tag

namespace Snbt

/-! ## Parts of a tree -/

/-- Whether a tree is another one or stands somewhere in it. -/
inductive Subtree (part : Tag) : Tag → Prop
  | refl : Subtree part part
  | entry {entries : List (Text × Tag)} {key : Text} {tag : Tag} (hm : (key, tag) ∈ entries)
      (h : Subtree part tag) : Subtree part (.compound entries)
  | item {items : List Tag} {tag : Tag} (hm : tag ∈ items) (h : Subtree part tag) :
      Subtree part (.list items)

/-- Whether all unquoted values in a tree are words. -/
def Worded (tag : Tag) : Prop :=
  ∀ t, Subtree (.value t) tag → IsWord t

/-- Whether no list in a tree has an unquoted value for its first item that begins with the
    mark of a typed array. -/
def FreeOfMarks (tag : Tag) : Prop :=
  ∀ t items, Subtree (.list (.value t :: items)) tag → ∀ mark ∈ arrayMarks, ¬ mark <+: t

theorem subtree_compound {part : Tag} {entries : List (Text × Tag)} :
    Subtree part (.compound entries) ↔
      part = .compound entries ∨ ∃ entry ∈ entries, Subtree part entry.2 := by
  constructor
  · intro h
    cases h with
    | refl => exact .inl rfl
    | entry hm h => exact .inr ⟨_, hm, h⟩
  · rintro (rfl | ⟨entry, hm, h⟩)
    · exact .refl
    · exact .entry hm h

theorem subtree_list {part : Tag} {items : List Tag} :
    Subtree part (.list items) ↔ part = .list items ∨ ∃ tag ∈ items, Subtree part tag := by
  constructor
  · intro h
    cases h with
    | refl => exact .inl rfl
    | item hm h => exact .inr ⟨_, hm, h⟩
  · rintro (rfl | ⟨tag, hm, h⟩)
    · exact .refl
    · exact .item hm h

theorem subtree_string {part : Tag} {u : Text} : Subtree part (.string u) ↔ part = .string u :=
  ⟨fun h => by cases h; rfl, fun h => h ▸ .refl⟩

theorem subtree_value {part : Tag} {u : Text} : Subtree part (.value u) ↔ part = .value u :=
  ⟨fun h => by cases h; rfl, fun h => h ▸ .refl⟩

@[simp] theorem worded_compound {entries : List (Text × Tag)} :
    Worded (.compound entries) ↔ ∀ entry ∈ entries, Worded entry.2 := by
  simp only [Worded, subtree_compound, reduceCtorEq, false_or]
  exact ⟨fun h entry hm t ht => h t ⟨entry, hm, ht⟩, fun h t ⟨entry, hm, ht⟩ => h entry hm t ht⟩

@[simp] theorem worded_list {items : List Tag} :
    Worded (.list items) ↔ ∀ tag ∈ items, Worded tag := by
  simp only [Worded, subtree_list, reduceCtorEq, false_or]
  exact ⟨fun h tag hm t ht => h t ⟨tag, hm, ht⟩, fun h t ⟨tag, hm, ht⟩ => h tag hm t ht⟩

@[simp] theorem worded_string (u : Text) : Worded (.string u) := by
  simp [Worded, subtree_string]

@[simp] theorem worded_value {u : Text} : Worded (.value u) ↔ IsWord u := by
  simp [Worded, subtree_value]

@[simp] theorem freeOfMarks_compound {entries : List (Text × Tag)} :
    FreeOfMarks (.compound entries) ↔ ∀ entry ∈ entries, FreeOfMarks entry.2 := by
  simp only [FreeOfMarks, subtree_compound, reduceCtorEq, false_or]
  exact ⟨fun h entry hm t items ht => h t items ⟨entry, hm, ht⟩,
    fun h t items ⟨entry, hm, ht⟩ => h entry hm t items ht⟩

@[simp] theorem freeOfMarks_list {items : List Tag} : FreeOfMarks (.list items) ↔
    (∀ t, items.head? = some (.value t) → ∀ mark ∈ arrayMarks, ¬ mark <+: t) ∧
      ∀ tag ∈ items, FreeOfMarks tag := by
  constructor
  · refine fun h => ⟨fun t ht => ?_, fun tag hm t items ht => h t items (.item hm ht)⟩
    obtain ⟨more, rfl⟩ := List.head?_eq_some_iff.1 ht
    exact h t more .refl
  · rintro ⟨hhead, hitems⟩ t more hp
    rcases subtree_list.1 hp with he | ⟨tag, hm, hp⟩
    · exact hhead t (by rw [← Tag.list.inj he]; rfl)
    · exact hitems tag hm t more hp

@[simp] theorem freeOfMarks_string (u : Text) : FreeOfMarks (.string u) := by
  simp [FreeOfMarks, subtree_string]

@[simp] theorem freeOfMarks_value (u : Text) : FreeOfMarks (.value u) := by
  simp [FreeOfMarks, subtree_value]

/-! ## Readable trees -/

/-- A tree is readable if its values are words and no list of it begins with a mark. -/
theorem readable_iff {tag : Tag} : Readable tag ↔ Worded tag ∧ FreeOfMarks tag := by
  induction tag using Tag.inductionOnMembers with
  | compound entries ih =>
    rw [Readable, readableEntries_iff, worded_compound, freeOfMarks_compound, ← forall₂_and]
    exact forall₂_congr ih
  | list items ih =>
    rw [Readable, readableItems_iff, worded_list, freeOfMarks_list, forall₂_congr ih,
      forall₂_and, and_assoc]
    refine and_congr_right fun _ => and_comm.trans (and_congr_left fun _ => ?_)
    exact ⟨fun h t ht mark hm => h mark hm t ht, fun h mark hm t ht => h t ht mark hm⟩
  | string u => simp [Readable]
  | value u => simp [Readable]

/-! ## Trees that were read -/

variable {sep : Char} {fuel : Nat} {c after : Cursor} {tag : Tag}

/-- What was read at any place holds words only. By induction on the fuel, since every step
    into a tree takes some. -/
theorem worded_of_fuel (sep : Char) (fuel : Nat) :
    (∀ {c tag after}, readTag sep fuel c = .ok (tag, after) → Worded tag) ∧
      (∀ {c entries after}, readEntries sep fuel c = .ok (entries, after) →
        ∀ entry ∈ entries, Worded entry.2) ∧
      ∀ {c items after}, readItems sep fuel c = .ok (items, after) →
        ∀ tag ∈ items, Worded tag := by
  induction fuel with
  | zero => simp [readTag, readEntries, readItems]
  | succ fuel ih =>
    obtain ⟨htag, hentries, hitems⟩ := ih
    refine ⟨fun h => ?_, fun h => ?_, fun h => ?_⟩
    · cases readAs_of_readTag h with
      | emptyCompound => simp
      | compound _ he => exact worded_compound.2 (hentries he)
      | emptyList => simp
      | list _ hi => exact worded_list.2 (hitems hi)
      | string => exact worded_string _
      | value _ hword => exact worded_value.2 hword
    · obtain ⟨n, hn, he⟩ := entriesAs_of_readEntries h
      obtain rfl := Nat.succ.inj hn
      cases he with
      | last _ _ ht _ => exact List.forall_mem_singleton.2 (htag ht)
      | more _ _ ht _ hmore => exact List.forall_mem_cons.2 ⟨htag ht, hentries hmore⟩
    · obtain ⟨n, hn, hi⟩ := itemsAs_of_readItems h
      obtain rfl := Nat.succ.inj hn
      cases hi with
      | last ht _ => exact List.forall_mem_singleton.2 (htag ht)
      | more ht _ hmore => exact List.forall_mem_cons.2 ⟨htag ht, hitems hmore⟩

theorem worded_of_readTag (h : readTag sep fuel c = .ok (tag, after)) : Worded tag :=
  (worded_of_fuel sep fuel).1 h

theorem worded_of_read {t : Text} (h : read sep t = .ok tag) : Worded tag := by
  obtain ⟨after, htag⟩ := readTag_of_read h
  exact worded_of_readTag htag

/-! ## Lists that begin with a mark -/

/-- Marks in front of a text are taken from it and leave less, if there are any. -/
theorem exists_rest_skipArrayMarks {t tail : Text} (htail : EndsWord tail) (offset : Nat) :
    ∃ u, (skipArrayMarks ⟨t ++ tail, offset⟩).rest = u ++ tail ∧ u.length ≤ t.length ∧
      ((∃ mark ∈ arrayMarks, mark <+: t) → u.length < t.length) := by
  have hmarks : ∀ mark ∈ arrayMarks, 0 < mark.length := by decide
  unfold skipArrayMarks
  -- the marks of the list are tried in a row, each of them on what is left
  have hfold : ∀ marks ⊆ arrayMarks, ∀ (t : Text) (offset : Nat),
      ∃ u, (marks.foldl (fun c mark => if mark.isPrefixOf c.rest then c.drop mark.length else c)
          (⟨t ++ tail, offset⟩ : Cursor)).rest = u ++ tail ∧ u.length ≤ t.length ∧
        ((∃ mark ∈ marks, mark <+: t) → u.length < t.length) := by
    intro marks
    induction marks with
    | nil => exact fun _ t _ => ⟨t, rfl, Nat.le_refl _, by simp⟩
    | cons mark marks ih =>
      intro hsub t offset
      obtain ⟨hmark, hsub⟩ := List.cons_subset.1 hsub
      rw [List.foldl_cons]
      by_cases hp : mark <+: t ++ tail
      · obtain ⟨v, rfl⟩ := prefix_of_prefix_append hmark htail hp
        have hdrop : Cursor.drop mark.length ⟨mark ++ v ++ tail, offset⟩ =
            ⟨v ++ tail, offset + Text.byteLength mark⟩ := by
          simp [Cursor.drop]
        obtain ⟨u, hu, hle, -⟩ := ih hsub v (offset + Text.byteLength mark)
        rw [if_pos (List.isPrefixOf_iff_prefix.2 hp), hdrop]
        have hpos := hmarks mark hmark
        refine ⟨u, hu, ?_, fun _ => ?_⟩
        · rw [List.length_append]
          omega
        · rw [List.length_append]
          omega
      · obtain ⟨u, hu, hle, hlt⟩ := ih hsub t offset
        rw [if_neg (mt List.isPrefixOf_iff_prefix.1 hp)]
        refine ⟨u, hu, hle, fun hm => hlt ?_⟩
        obtain ⟨m, hm, hmt⟩ := hm
        rcases List.mem_cons.1 hm with rfl | hm
        · exact absurd (hmt.trans (List.prefix_append t tail)) hp
        · exact ⟨m, hm, hmt⟩
  exact hfold arrayMarks (List.Subset.refl _) t offset

theorem length_takeWhile_append_cons_le {p : Char → Bool} {d : Char} (hd : p d = false)
    (u rest : Text) : ((u ++ d :: rest).takeWhile p).length ≤ u.length := by
  induction u with
  | nil => simp [hd]
  | cons e u ih =>
    rw [List.cons_append, List.takeWhile_cons]
    split_ifs
    · simpa using ih
    · simp

/-- An unquoted value is not longer than the text that stands in front of its end. -/
theorem length_le_of_readTag_value {d : Char} (hd : d = ',' ∨ d = ']') {t u rest : Text}
    (hc : c.rest = u ++ d :: rest) (h : readTag sep fuel c = .ok (.value t, after)) :
    t.length ≤ u.length := by
  obtain ⟨fuel, rfl⟩ := exists_fuel_of_readTag h
  have hend : Text.isBlank d = false ∧ isWordChar d = false := by
    rcases hd with rfl | rfl
    · exact ⟨by decide, by decide⟩
    · exact ⟨by decide, by decide⟩
  have hskip : (skipBlanks c).rest = Text.trimStart u ++ d :: rest := by
    obtain ⟨r, offset⟩ := c
    obtain rfl : r = u ++ d :: rest := hc
    exact rest_skipBlanks_append hend.1 u rest offset
  cases readAs_of_readTag h with
  | value _ _ ht =>
    rw [hskip] at ht
    calc t.length
        ≤ ((Text.trimStart u ++ d :: rest).takeWhile isWordChar).length :=
          ht ▸ Text.length_trim_le _
      _ ≤ (Text.trimStart u).length := length_takeWhile_append_cons_le hend.2 _ _
      _ ≤ u.length := (List.dropWhile_suffix _).length_le

/-- A list that begins with a mark is not read back: the mark is lost from its first item. -/
theorem not_mark_of_readTag_print {t : Text} {more : List Tag} {rest : Text} {offset : Nat}
    (h : readTag sep fuel ⟨print sep (.list (.value t :: more)) ++ rest, offset⟩ =
      .ok (.list (.value t :: more), after)) : ∀ mark ∈ arrayMarks, ¬ mark <+: t := by
  have hbracket : Text.isBlank '[' = false := by decide
  obtain ⟨fuel, rfl⟩ := exists_fuel_of_readTag h
  have hread := readAs_of_readTag h
  rw [skipBlanks_eq_self (by simpa [print] using hbracket)] at hread
  obtain ⟨d, tail, hd, htext⟩ := printItems_cons_append sep (.value t) more rest
  cases hread with
  | list _ hi =>
    obtain ⟨n, -, hitems⟩ := itemsAs_of_readItems hi
    obtain ⟨c', hfirst⟩ : ∃ c', readTag sep n (skipBlanks (skipArrayMarks
        (Cursor.drop 1 ⟨print sep (.list (.value t :: more)) ++ rest, offset⟩))) =
          .ok (.value t, c') := by
      cases hitems with
      | last ht _ => exact ⟨_, ht⟩
      | more ht _ _ => exact ⟨_, ht⟩
    have hdrop : Cursor.drop 1 ⟨print sep (.list (.value t :: more)) ++ rest, offset⟩ =
        ⟨t ++ d :: tail, offset + '['.utf8Size⟩ := by
      have hprint : print sep (.list (.value t :: more)) ++ rest = '[' :: (t ++ d :: tail) := by
        rw [print, List.cons_append, List.cons_append, List.append_assoc]
        exact congrArg _ htext
      simp [Cursor.drop, hprint]
    obtain ⟨u, hu, -, hlt⟩ := exists_rest_skipArrayMarks (t := t)
      (endsWord_close (hd.imp_right .inr) tail) (offset + '['.utf8Size)
    rw [hdrop] at hfirst
    have hblank : Text.isBlank d = false := by
      rcases hd with rfl | rfl <;> decide
    have hskip : (skipBlanks (skipArrayMarks ⟨t ++ d :: tail, offset + '['.utf8Size⟩)).rest =
        Text.trimStart u ++ d :: tail := by
      generalize skipArrayMarks ⟨t ++ d :: tail, offset + '['.utf8Size⟩ = c₁ at hu
      obtain ⟨r, offset₁⟩ := c₁
      obtain rfl : r = u ++ d :: tail := hu
      exact rest_skipBlanks_append hblank u tail offset₁
    have hle := length_le_of_readTag_value hd hskip hfirst
    have htrim : (Text.trimStart u).length ≤ u.length := (List.dropWhile_suffix _).length_le
    intro mark hm hp
    have := hlt ⟨mark, hm, hp⟩
    omega

/-! ## Trees that are read back -/

/-- Whether a tree is readable if it is read back in front of anything. -/
def Honest (sep : Char) (tag : Tag) : Prop :=
  ∀ fuel rest offset after, 2 * (print sep tag).length ≤ fuel →
    readTag sep fuel ⟨print sep tag ++ rest, offset⟩ = .ok (tag, after) → Readable tag

theorem honest_compound (hs : IsSeparator sep) {entries : List (Text × Tag)}
    (hentries : ∀ entry ∈ entries, Honest sep entry.2) : Honest sep (.compound entries) := by
  intro fuel rest offset after hfuel h
  obtain ⟨fuel, rfl⟩ := exists_fuel_of_readTag h
  by_cases hne : entries = []
  · subst hne
    trivial
  have hhead : ∀ d ∈ (printEntries sep entries ++ '}' :: rest).head?,
      Text.isBlank d = false ∧ d ≠ '}' := by
    obtain ⟨d, t, ht, hd⟩ := exists_head_printEntries sep hne
    simpa [ht] using hd
  simp only [print, List.cons_append, List.append_assoc, List.nil_append, List.length_cons,
    List.length_append] at hfuel h
  obtain ⟨found, he, hread⟩ := readEntries_of_readTag hhead h
  obtain rfl := Tag.compound.inj he
  -- each entry is taken with the knowledge that it is one of the compound
  have htext : printEntries sep entries = Text.join ","
      (entries.attach.map fun entry => keyText entry.1.1 ++ sep :: print sep entry.1.2) := by
    rw [printEntries_eq_join, ← List.attach_map_subtype_val entries, List.map_map,
      List.attach_map_subtype_val]
    rfl
  rw [htext] at hread hfuel
  have hall : ∀ entry ∈ entries.attach, Readable entry.1.2 := by
    refine forall_of_readEntries hs (fun entry => entry.1.1) (fun entry => entry.1.2)
      (fun found entries => found = entries.map Subtype.val)
      (fun entry hr => ⟨hr, rfl⟩) ?_ ?_ (by omega) hread (List.attach_map_subtype_val entries).symm
    · intro entry _ tag _ fuel offset after rest hfuel hread htells
      obtain rfl : tag = entry.1.2 := congrArg Prod.snd (List.cons.inj htells).1
      exact hentries entry.1 entry.2 fuel rest offset after hfuel hread
    · intro entry _ _ htells
      exact (List.cons.inj htells).2
  exact readableEntries_iff.2 fun entry hm => hall ⟨entry, hm⟩ (List.mem_attach _ _)

theorem honest_list (hs : IsSeparator sep) {items : List Tag}
    (hword : ∀ t, items.head? = some (.value t) → IsWord t)
    (hitems : ∀ tag ∈ items, Honest sep tag) : Honest sep (.list items) := by
  intro fuel rest offset after hfuel h
  by_cases hne : items = []
  · subst hne
    exact ⟨trivial, by simp⟩
  have hmarks : ∀ mark ∈ arrayMarks, ∀ t, items.head? = some (.value t) → ¬ mark <+: t := by
    intro mark hm t ht
    obtain ⟨more, rfl⟩ := List.head?_eq_some_iff.1 ht
    exact not_mark_of_readTag_print h mark hm
  obtain ⟨fuel, rfl⟩ := exists_fuel_of_readTag h
  have hhead : ∀ d ∈ (printItems sep items ++ ']' :: rest).head?,
      Text.isBlank d = false ∧ d ≠ ']' := by
    obtain ⟨d, t, ht, hd⟩ := exists_head_printItems sep hne hword
    simpa [ht] using hd
  simp only [print, List.cons_append, List.append_assoc, List.nil_append, List.length_cons,
    List.length_append] at hfuel h
  obtain ⟨found, he, hread⟩ :=
    readItems_of_readTag (unmarked_printItems sep hne hmarks rest) hhead h
  obtain rfl := Tag.list.inj he
  have htext : printItems sep items =
      Text.join "," (items.attach.map fun tag => print sep tag.1) := by
    rw [printItems_eq_join, ← List.attach_map_subtype_val items, List.map_map,
      List.attach_map_subtype_val]
    rfl
  rw [htext] at hread hfuel
  have hall : ∀ tag ∈ items.attach, Readable tag.1 := by
    refine forall_of_readItems hs Subtype.val (fun found items => found = items.map Subtype.val)
      (fun tag hr => ⟨hr, rfl⟩) ?_ ?_ (by omega) hread (List.attach_map_subtype_val items).symm
    · intro item _ tag _ fuel offset after rest hfuel hread htells
      obtain rfl : tag = item.1 := (List.cons.inj htells).1
      exact hitems item.1 item.2 fuel rest offset after hfuel hread
    · intro item _ _ htells
      exact (List.cons.inj htells).2
  exact ⟨readableItems_iff.2 fun tag hm => hall ⟨tag, hm⟩ (List.mem_attach _ _), hmarks⟩

/-- A tree of words that is read back is readable. -/
theorem honest_of_worded (hs : IsSeparator sep) (hw : Worded tag) : Honest sep tag := by
  induction tag using Tag.inductionOnMembers with
  | compound entries ih =>
    apply honest_compound hs
    intro entry hm
    exact ih entry hm (worded_compound.1 hw entry hm)
  | list items ih =>
    have hitems := worded_list.1 hw
    apply honest_list hs
    · intro t ht
      exact worded_value.1 (hitems _ (List.mem_of_mem_head? ht))
    · intro tag hm
      exact ih tag hm (hitems tag hm)
  | string u => exact fun _ _ _ _ _ _ => trivial
  | value u => exact fun _ _ _ _ _ _ => worded_value.1 hw

/-- A tree that was read is read back from its text exactly if no list in it begins with an
    unquoted value that looks like the mark of a typed array. -/
theorem read_print_iff (hs : IsSeparator sep) {t : Text} {tag : Tag} (h : read sep t = .ok tag) :
    read sep (print sep tag) = .ok tag ↔ FreeOfMarks tag := by
  have hw := worded_of_read h
  constructor
  · intro hread
    obtain ⟨after, htag⟩ := readTag_of_read hread
    rw [← List.append_nil (print sep tag)] at htag
    exact (readable_iff.1 (honest_of_worded hs hw _ [] 0 after (by simp) htag)).2
  · intro hm
    exact read_print hs (readable_iff.2 ⟨hw, hm⟩)

/-- Keys and strings of all kinds, an unquoted value with brackets in it and typed arrays; and
    a list whose first item looks like a mark. -/
theorem read_print_iff_marks :
    (∃ tag, read ':'
        " \x7b a : [B; 1b ,'x\"\\\\y'] , '' : v w\"\x7b[ , \"k:\" : [I;\x7b\x7d,[ ]] \x7d " = .ok tag ∧
      print ':' tag = "\x7ba:[1b,\"x\\\"\\\\y\"],\"\":v w\"\x7b[,\"k:\":[\x7b\x7d,[]]\x7d" ∧
      read ':' (print ':' tag) = .ok tag) ∧
    ∃ tag, read '=' "[B;B;1,2]" = .ok tag ∧ print '=' tag = "[B;1,2]" ∧
      read '=' (print '=' tag) ≠ .ok tag := by
  constructor
  · have h : read ':'
        " \x7b a : [B; 1b ,'x\"\\\\y'] , '' : v w\"\x7b[ , \"k:\" : [I;\x7b\x7d,[ ]] \x7d " =
        .ok (.compound [("a", .list [.value "1b", .string "x\"\\y"]), ("", .value "v w\"\x7b["),
          ("k:", .list [.compound [], .list []])]) := by
      decide +kernel
    exact ⟨_, h, by decide +kernel, (read_print_iff (by decide) h).2 (by simp [arrayMarks])⟩
  · have h : read '=' "[B;B;1,2]" = .ok (.list [.value "B;1", .value "2"]) := by
      decide +kernel
    refine ⟨_, h, by decide +kernel, fun hread => ?_⟩
    exact (read_print_iff (by decide) h).1 hread _ _ .refl "B;" (by decide) (by decide)

end Snbt

end CrossEdition
