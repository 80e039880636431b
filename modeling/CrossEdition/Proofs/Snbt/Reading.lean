import CrossEdition.Proofs.Snbt.RoundTrip

/-!
# What reading gives

A text that is not a printed tree may still be read, as something else. What was read begins
with what stands first in the text, so a reading can be taken apart in the order in which the
reader goes on.

Results:
* `readAs_of_readTag`: the kinds of trees, with the texts that they are read from.
* `idxOf_quote_of_quotedContent?`, `idxOf_le_of_quotedContent?`: the content of a string that
  was read, when it is known where a quote or another character stands.
* `isWord_of_readTag`: an unquoted value that was read as it stands is a word.
* `entriesAs_of_readEntries`, `itemsAs_of_readItems`: the entries of a compound and the items of
  a list, one by one.
* `readEntries_cons`, `readItems_cons`: the first entry and the first item, and the rest.
* `forall_of_readItems`, `forall_of_readEntries`: what can be told of each item of a list, or
  each entry of a compound, from what was read.
-/

namespace CrossEdition

namespace Snbt

/-! ## Strings -/

/-- The first character of a string: the quote that ends it, a backslash that is left out in
    front of a character that is kept, or a character that is kept. -/
theorem quotedContent?_cons {q c : Char} {rest u : Text} {offset : Nat} {after : Cursor}
    (h : quotedContent? q (c :: rest) offset = some (u, after)) :
    (c = q ∧ u = []) ∨
      (c ≠ q ∧ c = '\\' ∧ ∃ d rest' v offset', rest = d :: rest' ∧ u = d :: v ∧
        quotedContent? q rest' offset' = some (v, after)) ∨
      (c ≠ q ∧ c ≠ '\\' ∧ ∃ v offset', u = c :: v ∧
        quotedContent? q rest offset' = some (v, after)) := by
  unfold quotedContent? at h
  split_ifs at h with hq hb
  · simp only [Option.some.injEq, Prod.mk.injEq] at h
    exact .inl ⟨hq, h.1.symm⟩
  · cases rest with
    | nil => simp at h
    | cons d rest =>
      obtain ⟨⟨v, after'⟩, hv, he⟩ := Option.map_eq_some_iff.1 h
      simp only [Prod.mk.injEq] at he
      obtain ⟨rfl, rfl⟩ := he
      exact .inr (.inl ⟨hq, hb, d, rest, v, _, rfl, rfl, hv⟩)
  · obtain ⟨⟨v, after'⟩, hv, he⟩ := Option.map_eq_some_iff.1 h
    simp only [Prod.mk.injEq] at he
    obtain ⟨rfl, rfl⟩ := he
    exact .inr (.inr ⟨hq, hb, v, _, rfl, hv⟩)

/-- A string whose text holds a backslash in front of the first quote is read as something
    else: the quote stands nearer to its start, or it is shorter. -/
theorem idxOf_quote_of_quotedContent? {q : Char} {a b u : Text} {offset : Nat} {after : Cursor}
    (ha : q ∉ a) (h : quotedContent? q (a ++ q :: b) offset = some (u, after)) :
    ('\\' ∉ a ∧ u = a) ∨ u.idxOf q < a.length := by
  -- a backslash takes the next character with it
  induction hn : a.length using Nat.strong_induction_on generalizing a u offset with
  | _ n ih =>
    subst hn
    cases a with
    | nil =>
      rcases quotedContent?_cons h with ⟨-, rfl⟩ | ⟨hne, -⟩ | ⟨hne, -⟩
      · exact .inl ⟨by simp, rfl⟩
      · exact absurd rfl hne
      · exact absurd rfl hne
    | cons c a =>
      rw [List.mem_cons, not_or] at ha
      rcases quotedContent?_cons h with ⟨rfl, -⟩ | ⟨-, -, d, rest, v, _, hr, rfl, hv⟩ |
        ⟨-, hb, v, _, rfl, hv⟩
      · exact absurd rfl ha.1
      · right
        cases a with
        | nil =>
          obtain ⟨rfl, -⟩ := List.cons.inj hr
          simp
        | cons e a =>
          obtain ⟨rfl, rfl⟩ := List.cons.inj hr
          rw [List.mem_cons, not_or] at ha
          rw [List.idxOf_cons_ne _ (Ne.symm ha.2.1), List.length_cons, List.length_cons]
          have hlen : a.length < (c :: e :: a).length := by
            simp only [List.length_cons]
            omega
          rcases ih a.length hlen ha.2.2 hv rfl with ⟨-, rfl⟩ | hlt
          · have := List.idxOf_le_length (a := q) (l := v)
            omega
          · omega
      · rcases ih a.length (by simp) ha.2 hv rfl with ⟨hba, rfl⟩ | hlt
        · exact .inl ⟨by simp [Ne.symm hb, hba], rfl⟩
        · right
          rw [List.idxOf_cons_ne _ (Ne.symm ha.1), List.length_cons]
          omega

/-- A character stands in a string that was read not behind its first place in the text. -/
theorem idxOf_le_of_quotedContent? {q d : Char} {t u : Text} {offset : Nat} {after : Cursor}
    (hq : d ≠ q) (hb : d ≠ '\\') (h : quotedContent? q t offset = some (u, after)) :
    u.idxOf d ≤ t.idxOf d := by
  induction hn : t.length using Nat.strong_induction_on generalizing t u offset with
  | _ n ih =>
    subst hn
    cases t with
    | nil => simp [quotedContent?] at h
    | cons c t =>
      rcases quotedContent?_cons h with ⟨rfl, rfl⟩ | ⟨-, rfl, e, rest, v, _, rfl, rfl, hv⟩ |
        ⟨-, -, v, _, rfl, hv⟩
      · simp
      · have := ih rest.length (by simp only [List.length_cons]; omega) hv rfl
        rw [List.idxOf_cons_ne _ (Ne.symm hb)]
        by_cases he : e = d
        · simp [he]
        · rw [List.idxOf_cons_ne _ he, List.idxOf_cons_ne _ he]
          omega
      · have := ih t.length (by simp) hv rfl
        by_cases he : c = d
        · simp [he]
        · rw [List.idxOf_cons_ne _ he, List.idxOf_cons_ne _ he]
          omega

/-- A character is found in the first part of a text, or right behind it. -/
theorem idxOf_append_cons (d : Char) (t rest : Text) :
    (t ++ d :: rest).idxOf d = t.idxOf d := by
  rw [List.idxOf_append]
  split_ifs with h
  · rfl
  · rw [List.idxOf_cons_self, List.idxOf_of_notMem h, Nat.zero_add]

/-- The content of a string is not the text in front of `d` with the opening quote and blanks:
    `d` would stand too far behind. -/
theorem quotedContent?_ne {q d : Char} {blanks t rest : Text} {offset : Nat} {after : Cursor}
    (hq : d ≠ q) (hb : d ≠ '\\') (hm : d ∉ blanks) :
    quotedContent? q (t ++ d :: rest) offset ≠ some (blanks ++ q :: t, after) := by
  intro h
  have hle := idxOf_le_of_quotedContent? hq hb h
  rw [idxOf_append_cons, List.idxOf_append, if_neg hm, List.idxOf_cons_ne _ (Ne.symm hq)] at hle
  omega

/-! ## Trees -/

variable {sep : Char} {fuel : Nat} {c after : Cursor} {tag : Tag}

/-- What is read at a cursor that is behind blanks, with so much fuel for what is in it. -/
inductive ReadAs (sep : Char) (fuel : Nat) (c : Cursor) : Tag → Cursor → Prop
  | emptyCompound {t : Text} {after : Cursor} (hr : c.rest = '{' :: t)
      (h : (skipBlanks (c.drop 1)).eat? '}' = some after) : ReadAs sep fuel c (.compound []) after
  | compound {t : Text} {entries : List (Text × Tag)} {after : Cursor} (hr : c.rest = '{' :: t)
      (h : readEntries sep fuel (skipBlanks (c.drop 1)) = .ok (entries, after)) :
      ReadAs sep fuel c (.compound entries) after
  | emptyList {t : Text} {after : Cursor} (hr : c.rest = '[' :: t)
      (h : (skipBlanks (skipArrayMarks (c.drop 1))).eat? ']' = some after) :
      ReadAs sep fuel c (.list []) after
  | list {t : Text} {items : List Tag} {after : Cursor} (hr : c.rest = '[' :: t)
      (h : readItems sep fuel (skipBlanks (skipArrayMarks (c.drop 1))) = .ok (items, after)) :
      ReadAs sep fuel c (.list items) after
  | string {q : Char} {t u : Text} {offset : Nat} {after : Cursor} (hq : q = '"' ∨ q = '\'')
      (hr : c.rest = q :: t) (h : quotedContent? q t offset = some (u, after)) :
      ReadAs sep fuel c (.string u) after
  | value {t : Text} {after : Cursor} (hr : ∀ d ∈ c.rest.head?, isOpening d = false)
      (h : IsWord t) (ht : t = Text.trim (c.rest.takeWhile isWordChar)) :
      ReadAs sep fuel c (.value t) after

theorem head_skipBlanks (c : Cursor) :
    ∀ d ∈ (skipBlanks c).rest.head?, Text.isBlank d = false := by
  intro d hd
  have := List.head?_dropWhile_not Text.isBlank c.rest
  simp only [skipBlanks, Cursor.skip] at hd
  rw [Option.mem_def.1 hd] at this
  simpa using this

theorem readQuoted_eq_ok {q : Char} {t u : Text} {offset : Nat}
    (h : readQuoted q ⟨q :: t, offset⟩ = .ok (u, after)) :
    ∃ offset', quotedContent? q t offset' = some (u, after) := by
  simp only [readQuoted, Cursor.drop, List.drop_succ_cons, List.drop_zero] at h
  split at h
  · next found hf => exact ⟨_, hf.trans (congrArg some (Except.ok.inj h))⟩
  · simp at h

/-- An unquoted value is a word. -/
theorem isWord_of_readWord (hb : ∀ d ∈ c.rest.head?, Text.isBlank d = false)
    (ho : ∀ d ∈ c.rest.head?, isOpening d = false) (h : readWord c = .ok (tag, after)) :
    ∃ t, tag = .value t ∧ IsWord t ∧ t = Text.trim (c.rest.takeWhile isWordChar) := by
  simp only [readWord] at h
  split_ifs at h with hne
  simp only [Except.ok.injEq, Prod.mk.injEq] at h
  have hhead : ∀ d ∈ (c.rest.takeWhile isWordChar).head?, d ∈ c.rest.head? := by
    intro d hd
    rw [List.head?_takeWhile] at hd
    exact (Option.mem_filter_iff.1 hd).1
  refine ⟨_, h.1.symm, ⟨hne, Text.trim_trim _, fun d hd => ?_, fun d hd => ?_⟩, rfl⟩
  · exact List.mem_takeWhile_imp (Text.mem_of_mem_trim hd)
  · exact ho d (hhead d (Text.mem_head_of_mem_head_trim (fun e he => hb e (hhead e he)) hd))

theorem readAs_of_readTag (h : readTag sep (fuel + 1) c = .ok (tag, after)) :
    ReadAs sep fuel (skipBlanks c) tag after := by
  rw [readTag] at h
  have hblank := head_skipBlanks c
  generalize skipBlanks c = c at h hblank ⊢
  obtain ⟨rest, offset⟩ := c
  simp only at h
  split at h
  · simp at h
  · split at h
    · next he =>
      obtain ⟨rfl, rfl⟩ := Prod.mk.inj (Except.ok.inj h)
      exact .emptyCompound rfl he
    · obtain ⟨⟨entries, after'⟩, he, h⟩ := exists_of_bind_ok h
      obtain ⟨rfl, rfl⟩ := Prod.mk.inj (Except.ok.inj h)
      exact .compound rfl he
  · split at h
    · next he =>
      obtain ⟨rfl, rfl⟩ := Prod.mk.inj (Except.ok.inj h)
      exact .emptyList rfl he
    · obtain ⟨⟨items, after'⟩, hi, h⟩ := exists_of_bind_ok h
      obtain ⟨rfl, rfl⟩ := Prod.mk.inj (Except.ok.inj h)
      exact .list rfl hi
  · obtain ⟨⟨u, after'⟩, hu, h⟩ := exists_of_bind_ok h
    obtain ⟨rfl, rfl⟩ := Prod.mk.inj (Except.ok.inj h)
    obtain ⟨_, hu⟩ := readQuoted_eq_ok hu
    exact .string (.inl rfl) rfl hu
  · obtain ⟨⟨u, after'⟩, hu, h⟩ := exists_of_bind_ok h
    obtain ⟨rfl, rfl⟩ := Prod.mk.inj (Except.ok.inj h)
    obtain ⟨_, hu⟩ := readQuoted_eq_ok hu
    exact .string (.inr rfl) rfl hu
  · next hnil hbrace hbracket hdouble hsingle =>
    have hopen : ∀ d ∈ rest.head?, isOpening d = false := by
      intro d hd
      obtain ⟨t, rfl⟩ : ∃ t, rest = d :: t := List.head?_eq_some_iff.1 hd
      simp only [isOpening, Bool.or_eq_false_iff, decide_eq_false_iff_not]
      refine ⟨⟨⟨?_, ?_⟩, ?_⟩, ?_⟩ <;> rintro rfl
      · exact hbrace t rfl
      · exact hbracket t rfl
      · exact hdouble t rfl
      · exact hsingle t rfl
    obtain ⟨t, rfl, hword, ht⟩ := isWord_of_readWord hblank hopen h
    exact .value hopen hword ht

/-- Nothing is read without fuel. -/
theorem exists_fuel_of_readTag (h : readTag sep fuel c = .ok (tag, after)) :
    ∃ n, fuel = n + 1 := by
  cases fuel with
  | zero => simp [readTag] at h
  | succ n => exact ⟨n, rfl⟩

/-- A compound whose text goes on with neither a blank nor its end holds entries. -/
theorem readEntries_of_readTag {t : Text} {offset : Nat}
    (hb : ∀ d ∈ t.head?, Text.isBlank d = false ∧ d ≠ '}')
    (h : readTag sep (fuel + 1) ⟨'{' :: t, offset⟩ = .ok (tag, after)) :
    ∃ entries, tag = .compound entries ∧
      readEntries sep fuel ⟨t, offset + '{'.utf8Size⟩ = .ok (entries, after) := by
  have hbrace : Text.isBlank '{' = false := by decide
  have hread := readAs_of_readTag h
  have hself : skipBlanks ⟨'{' :: t, offset⟩ = ⟨'{' :: t, offset⟩ :=
    skipBlanks_eq_self (by simpa using hbrace)
  have hdrop : skipBlanks (Cursor.drop 1 ⟨'{' :: t, offset⟩) = ⟨t, offset + '{'.utf8Size⟩ :=
    skipBlanks_eq_self (c := ⟨t, _⟩) fun d hd => (hb d hd).1
  rw [hself] at hread
  cases hread with
  | emptyCompound _ he =>
    rw [hdrop] at he
    cases t with
    | nil => simp [Cursor.eat?] at he
    | cons d t => simp [Cursor.eat?, (hb d rfl).2] at he
  | compound _ he =>
    rw [hdrop] at he
    exact ⟨_, rfl, he⟩
  | emptyList hr => simp at hr
  | list hr => simp at hr
  | string hq hr =>
    rcases hq with rfl | rfl <;> simp at hr
  | value hr => exact absurd (hr '{' rfl) (by decide)

/-- A list whose text goes on with neither a mark, a blank nor its end holds items. -/
theorem readItems_of_readTag {t : Text} {offset : Nat} (hm : ∀ mark ∈ arrayMarks, ¬ mark <+: t)
    (hb : ∀ d ∈ t.head?, Text.isBlank d = false ∧ d ≠ ']')
    (h : readTag sep (fuel + 1) ⟨'[' :: t, offset⟩ = .ok (tag, after)) :
    ∃ items, tag = .list items ∧
      readItems sep fuel ⟨t, offset + '['.utf8Size⟩ = .ok (items, after) := by
  have hbracket : Text.isBlank '[' = false := by decide
  have hread := readAs_of_readTag h
  have hself : skipBlanks ⟨'[' :: t, offset⟩ = ⟨'[' :: t, offset⟩ :=
    skipBlanks_eq_self (by simpa using hbracket)
  have hdrop : skipBlanks (skipArrayMarks (Cursor.drop 1 ⟨'[' :: t, offset⟩)) =
      ⟨t, offset + '['.utf8Size⟩ := by
    rw [skipArrayMarks_eq_self hm]
    exact skipBlanks_eq_self (c := ⟨t, _⟩) fun d hd => (hb d hd).1
  rw [hself] at hread
  cases hread with
  | emptyCompound hr => simp at hr
  | compound hr => simp at hr
  | emptyList _ he =>
    rw [hdrop] at he
    cases t with
    | nil => simp [Cursor.eat?] at he
    | cons d t => simp [Cursor.eat?, (hb d rfl).2] at he
  | list _ he =>
    rw [hdrop] at he
    exact ⟨_, rfl, he⟩
  | string hq hr =>
    rcases hq with rfl | rfl <;> simp at hr
  | value hr => exact absurd (hr '[' rfl) (by decide)

/-- No mark begins like a compound. -/
theorem unmarked_brace (t : Text) : ∀ mark ∈ arrayMarks, ¬ mark <+: '{' :: t := by
  simp [arrayMarks, List.cons_prefix_cons]

/-- A string begins with a quote. -/
theorem quotedContent?_of_readTag {t : Text} {offset : Nat}
    (h : readTag sep (fuel + 1) ⟨'"' :: t, offset⟩ = .ok (tag, after)) :
    ∃ u offset', tag = .string u ∧ quotedContent? '"' t offset' = some (u, after) := by
  have hquote : Text.isBlank '"' = false := by decide
  have hread := readAs_of_readTag h
  rw [skipBlanks_eq_self (by simpa using hquote)] at hread
  cases hread with
  | emptyCompound hr => simp at hr
  | compound hr => simp at hr
  | emptyList hr => simp at hr
  | list hr => simp at hr
  | string hq hr hu =>
    obtain ⟨rfl, rfl⟩ := List.cons.inj hr
    exact ⟨_, _, rfl, hu⟩
  | value hr => exact absurd (hr '"' rfl) (by decide)

theorem rest_skipBlanks_append {d : Char} (hd : Text.isBlank d = false) (t rest : Text)
    (offset : Nat) :
    (skipBlanks ⟨t ++ d :: rest, offset⟩).rest = Text.trimStart t ++ d :: rest := by
  rw [skipBlanks, Cursor.skip, List.dropWhile_append]
  split_ifs with hnil
  · rw [Text.trimStart, List.isEmpty_iff.1 hnil, List.dropWhile_cons_of_neg (by simp [hd])]
    rfl
  · rfl

/-- A scalar that is read as the very text that stands in front of the end of an entry is an
    unquoted value: the content of a string would be shorter than its text. -/
theorem isWord_of_readTag {d : Char} (hd : d = ',' ∨ d = '}') {t rest : Text} {offset : Nat}
    (h : readTag sep fuel ⟨t ++ d :: rest, offset⟩ = .ok (tag, after))
    (ht : tag.scalar? = some t) : IsWord t := by
  obtain ⟨fuel, rfl⟩ := exists_fuel_of_readTag h
  have hread := readAs_of_readTag h
  have hend : Text.isBlank d = false ∧ d ≠ '\\' ∧ ∀ q, q = '"' ∨ q = '\'' → d ≠ q := by
    rcases hd with rfl | rfl
    · exact ⟨by decide, by decide, by rintro q (rfl | rfl) <;> decide⟩
    · exact ⟨by decide, by decide, by rintro q (rfl | rfl) <;> decide⟩
  obtain ⟨hdb, hback, hquote⟩ := hend
  have hskip := rest_skipBlanks_append hdb t rest offset
  generalize skipBlanks ⟨t ++ d :: rest, offset⟩ = c at hread hskip
  cases hread with
  | emptyCompound => simp [Tag.scalar?] at ht
  | compound => simp [Tag.scalar?] at ht
  | emptyList => simp [Tag.scalar?] at ht
  | list => simp [Tag.scalar?] at ht
  | value _ hword =>
    rw [← Option.some.inj ht]
    exact hword
  | string hq hr hu =>
    obtain ⟨blanks, hblanks, hb⟩ := Text.trimStart_append t
    have hmem : d ∉ blanks := fun hm => by simp [hblanks d hm] at hdb
    rw [Option.some.inj ht, hb] at hu
    rw [hskip] at hr
    cases hw : Text.trimStart t with
    | nil =>
      rw [hw] at hr
      exact absurd (List.cons.inj hr).1 (hquote _ hq)
    | cons q' w =>
      rw [hw, List.cons_append] at hr
      obtain ⟨rfl, rfl⟩ := List.cons.inj hr
      rw [hw] at hu
      exact absurd hu (quotedContent?_ne (hquote _ hq) hback hmem)

theorem eat?_skipBlanks {d : Char} (hd : Text.isBlank d = false) {rest : Text}
    (h : c.rest = d :: rest) :
    (skipBlanks c).eat? d = some ⟨rest, c.offset + d.utf8Size⟩ := by
  rw [skipBlanks_eq_self (by simpa [h] using hd)]
  simp [Cursor.eat?, h]

/-- What is read at the entries of a compound, with so much fuel for what is in them: a key, a
    tree, and behind a comma the other entries. -/
inductive EntriesAs (sep : Char) (fuel : Nat) (c : Cursor) : List (Text × Tag) → Cursor → Prop
  | last {key : Text} {tag : Tag} {c₁ c₂ c₃ after : Cursor} (hkey : readKey sep c = .ok (key, c₁))
      (hsep : expect sep c₁ = .ok c₂) (htag : readTag sep fuel c₂ = .ok (tag, c₃))
      (hcomma : (skipBlanks c₃).eat? ',' = none) : EntriesAs sep fuel c [(key, tag)] after
  | more {key : Text} {tag : Tag} {entries : List (Text × Tag)} {c₁ c₂ c₃ c₄ after : Cursor}
      (hkey : readKey sep c = .ok (key, c₁)) (hsep : expect sep c₁ = .ok c₂)
      (htag : readTag sep fuel c₂ = .ok (tag, c₃)) (hcomma : (skipBlanks c₃).eat? ',' = some c₄)
      (hmore : readEntries sep fuel c₄ = .ok (entries, after)) :
      EntriesAs sep fuel c ((key, tag) :: entries) after

theorem entriesAs_of_readEntries {entries : List (Text × Tag)}
    (h : readEntries sep fuel c = .ok (entries, after)) :
    ∃ n, fuel = n + 1 ∧ EntriesAs sep n c entries after := by
  cases fuel with
  | zero => simp [readEntries] at h
  | succ n =>
    rw [readEntries] at h
    obtain ⟨⟨key, c₁⟩, hkey, h⟩ := exists_of_bind_ok h
    obtain ⟨c₂, hsep, h⟩ := exists_of_bind_ok h
    obtain ⟨⟨tag, c₃⟩, htag, h⟩ := exists_of_bind_ok h
    refine ⟨n, rfl, ?_⟩
    simp only at h
    split at h
    · next c₄ hcomma =>
      obtain ⟨⟨more, after'⟩, hmore, h⟩ := exists_of_bind_ok h
      obtain ⟨rfl, rfl⟩ := Prod.mk.inj (Except.ok.inj h)
      exact .more hkey hsep htag hcomma hmore
    · next hcomma =>
      obtain ⟨_, -, h⟩ := exists_of_bind_ok h
      simp only [Except.ok.injEq, Prod.mk.injEq] at h
      obtain ⟨rfl, -⟩ := h
      exact .last hkey hsep htag hcomma

/-- What is read at the items of a list: a tree, and behind a comma the other items. -/
inductive ItemsAs (sep : Char) (fuel : Nat) (c : Cursor) : List Tag → Cursor → Prop
  | last {tag : Tag} {c₁ after : Cursor} (htag : readTag sep fuel c = .ok (tag, c₁))
      (hcomma : (skipBlanks c₁).eat? ',' = none) : ItemsAs sep fuel c [tag] after
  | more {tag : Tag} {items : List Tag} {c₁ c₂ after : Cursor}
      (htag : readTag sep fuel c = .ok (tag, c₁)) (hcomma : (skipBlanks c₁).eat? ',' = some c₂)
      (hmore : readItems sep fuel c₂ = .ok (items, after)) :
      ItemsAs sep fuel c (tag :: items) after

theorem itemsAs_of_readItems {items : List Tag} (h : readItems sep fuel c = .ok (items, after)) :
    ∃ n, fuel = n + 1 ∧ ItemsAs sep n c items after := by
  cases fuel with
  | zero => simp [readItems] at h
  | succ n =>
    rw [readItems] at h
    obtain ⟨⟨tag, c₁⟩, htag, h⟩ := exists_of_bind_ok h
    refine ⟨n, rfl, ?_⟩
    simp only at h
    split at h
    · next c₂ hcomma =>
      obtain ⟨⟨more, after'⟩, hmore, h⟩ := exists_of_bind_ok h
      obtain ⟨rfl, rfl⟩ := Prod.mk.inj (Except.ok.inj h)
      exact .more htag hcomma hmore
    · next hcomma =>
      obtain ⟨_, -, h⟩ := exists_of_bind_ok h
      simp only [Except.ok.injEq, Prod.mk.injEq] at h
      obtain ⟨rfl, -⟩ := h
      exact .last htag hcomma

/-- What is read at the text of an entry: its key, a tree, and behind a comma the other
    entries. -/
theorem readEntries_cons (hs : IsSeparator sep) {key t : Text} {offset : Nat}
    {entries : List (Text × Tag)}
    (h : readEntries sep fuel ⟨keyText key ++ sep :: t, offset⟩ = .ok (entries, after)) :
    ∃ n offset' tag c more, fuel = n + 1 ∧ readTag sep n ⟨t, offset'⟩ = .ok (tag, c) ∧
      entries = (key, tag) :: more ∧ ∀ rest, c.rest = ',' :: rest →
        ∃ offset'', readEntries sep n ⟨rest, offset''⟩ = .ok (more, after) := by
  have hblank : Text.isBlank ',' = false := by decide
  obtain ⟨offset₁, hread⟩ := readKey_keyText hs key t offset
  -- behind the key of the text stands the tree
  have hbehind : ∀ {key' : Text} {c₁ c₂ : Cursor},
      readKey sep ⟨keyText key ++ sep :: t, offset⟩ = .ok (key', c₁) →
      expect sep c₁ = .ok c₂ → key' = key ∧ c₂ = ⟨t, offset₁ + sep.utf8Size⟩ := by
    intro key' c₁ c₂ hkey hsep
    rw [hread, Except.ok.injEq, Prod.mk.injEq] at hkey
    obtain ⟨rfl, rfl⟩ := hkey
    rw [expect_cons hs.2, Except.ok.injEq] at hsep
    exact ⟨rfl, hsep.symm⟩
  obtain ⟨n, rfl, hentries⟩ := entriesAs_of_readEntries h
  cases hentries with
  | last hkey hsep htag hcomma =>
    obtain ⟨rfl, rfl⟩ := hbehind hkey hsep
    refine ⟨n, _, _, _, [], rfl, htag, rfl, fun rest hrest => ?_⟩
    simp [eat?_skipBlanks hblank hrest] at hcomma
  | more hkey hsep htag hcomma hmore =>
    obtain ⟨rfl, rfl⟩ := hbehind hkey hsep
    refine ⟨n, _, _, _, _, rfl, htag, rfl, fun rest hrest => ?_⟩
    obtain rfl := Option.some.inj ((eat?_skipBlanks hblank hrest).symm.trans hcomma)
    exact ⟨_, hmore⟩

/-- What is read at the text of an item: a tree, and behind a comma the other items. -/
theorem readItems_cons {items : List Tag} (h : readItems sep fuel c = .ok (items, after)) :
    ∃ n tag c' more, fuel = n + 1 ∧ readTag sep n c = .ok (tag, c') ∧ items = tag :: more ∧
      ∀ rest, c'.rest = ',' :: rest →
        ∃ offset, readItems sep n ⟨rest, offset⟩ = .ok (more, after) := by
  have hblank : Text.isBlank ',' = false := by decide
  obtain ⟨n, rfl, hitems⟩ := itemsAs_of_readItems h
  cases hitems with
  | last htag hcomma =>
    refine ⟨n, _, _, [], rfl, htag, rfl, fun rest hrest => ?_⟩
    simp [eat?_skipBlanks hblank hrest] at hcomma
  | more htag hcomma hmore =>
    refine ⟨n, _, _, _, rfl, htag, rfl, fun rest hrest => ?_⟩
    obtain rfl := Option.some.inj ((eat?_skipBlanks hblank hrest).symm.trans hcomma)
    exact ⟨_, hmore⟩

/-- A text that was read begins with the tree that it spells. -/
theorem readTag_of_read {t : Text} (h : read sep t = .ok tag) :
    ∃ after, readTag sep (2 * t.length + 2) ⟨t, 0⟩ = .ok (tag, after) := by
  obtain ⟨⟨tag', after⟩, htag, h⟩ := exists_of_bind_ok h
  simp only at h
  split_ifs at h
  rw [← Except.ok.inj h]
  exact ⟨after, htag⟩

/-- A compound that was read holds the tree behind its first key. -/
theorem readTag_of_read_compound (hs : IsSeparator sep) {key t : Text}
    (h : read sep ('{' :: (keyText key ++ sep :: t)) = .ok tag) :
    ∃ n offset tag' more after, 2 * t.length + 4 ≤ n ∧ tag = .compound ((key, tag') :: more) ∧
      readTag sep n ⟨t, offset⟩ = .ok (tag', after) := by
  obtain ⟨after, htag⟩ := readTag_of_read h
  have hhead : ∀ d ∈ (keyText key ++ sep :: t).head?, Text.isBlank d = false ∧ d ≠ '}' := by
    obtain ⟨d, ds, hd, hdb⟩ := exists_head_keyText key
    simpa [hd] using hdb
  obtain ⟨entries, rfl, hentries⟩ := readEntries_of_readTag hhead htag
  obtain ⟨n, offset, tag', c, more, hn, htag', rfl, -⟩ := readEntries_cons hs hentries
  refine ⟨n, offset, tag', more, c, ?_, rfl, htag'⟩
  simp only [List.length_cons, List.length_append] at hn
  omega

/-- Nothing else is read at the text of a readable tree. -/
theorem eq_of_readTag_print (hs : IsSeparator sep) {tag' : Tag} {rest : Text} {offset : Nat}
    (hread : Readable tag) (hfuel : 2 * (print sep tag).length ≤ fuel) (hrest : EndsWord rest)
    (h : readTag sep fuel ⟨print sep tag ++ rest, offset⟩ = .ok (tag', after)) :
    tag' = tag ∧ after.rest = rest := by
  obtain ⟨offset', hprint⟩ := readTag_print hs tag hread fuel hfuel rest hrest offset
  rw [hprint] at h
  simp only [Except.ok.injEq, Prod.mk.injEq] at h
  exact ⟨h.1.symm, by rw [← h.2]⟩

/-- A property of the items of a list, if their texts are those of readable trees where it holds:
    it holds of all of them, if the first tree that was read tells that it holds of the first
    item, and the other trees tell of the others in the same way. -/
theorem forall_of_readItems (hs : IsSeparator sep) {α : Type} {text : α → Text} (tree : α → Tag)
    {Good : α → Prop} (Tells : List Tag → List α → Prop)
    (hgood : ∀ a, Good a → Readable (tree a) ∧ text a = print sep (tree a))
    (hhead : ∀ {a as tag tags fuel offset after rest}, 2 * (text a).length ≤ fuel →
      readTag sep fuel ⟨text a ++ rest, offset⟩ = .ok (tag, after) →
        Tells (tag :: tags) (a :: as) → Good a)
    (htail : ∀ {a as tags}, Tells (tree a :: tags) (a :: as) → Tells tags as)
    {items : List α} {tags : List Tag} {rest : Text} {offset : Nat}
    (hfuel : 2 * (Text.join "," (items.map text)).length + 1 ≤ fuel)
    (h : readItems sep fuel ⟨Text.join "," (items.map text) ++ ']' :: rest, offset⟩ =
      .ok (tags, after)) (htells : Tells tags items) : ∀ a ∈ items, Good a := by
  induction items generalizing fuel offset tags with
  | nil => simp
  | cons a as ih =>
    obtain ⟨n, tag, c, more, rfl, htag, rfl, hmore⟩ := readItems_cons h
    cases as with
    | nil =>
      simp only [List.map_cons, List.map_nil, Text.join] at hfuel htag
      rw [List.forall_mem_singleton]
      exact hhead (by omega) htag htells
    | cons b bs =>
      have hjoin : Text.join "," ((a :: b :: bs).map text) =
          text a ++ ',' :: Text.join "," ((b :: bs).map text) := by
        simp [Text.join]
      rw [hjoin, List.length_append, List.length_cons] at hfuel
      rw [hjoin, List.append_assoc, List.cons_append] at htag
      have ha : Good a := hhead (by omega) htag htells
      obtain ⟨hread, hprint⟩ := hgood a ha
      rw [hprint] at hfuel htag
      obtain ⟨rfl, hrest⟩ :=
        eq_of_readTag_print hs hread (by omega) (endsWord_close (.inl rfl) _) htag
      obtain ⟨offset', hmore⟩ := hmore _ hrest
      rw [List.forall_mem_cons]
      exact ⟨ha, ih (by omega) hmore (htail htells)⟩

/-- The same for the entries of a compound. -/
theorem forall_of_readEntries (hs : IsSeparator sep) {α : Type} (key : α → Text) {text : α → Text}
    (tree : α → Tag) {Good : α → Prop} (Tells : List (Text × Tag) → List α → Prop)
    (hgood : ∀ a, Good a → Readable (tree a) ∧ text a = print sep (tree a))
    (hhead : ∀ {a as tag entries fuel offset after rest}, 2 * (text a).length ≤ fuel →
      readTag sep fuel ⟨text a ++ rest, offset⟩ = .ok (tag, after) →
        Tells ((key a, tag) :: entries) (a :: as) → Good a)
    (htail : ∀ {a as entries}, Tells ((key a, tree a) :: entries) (a :: as) → Tells entries as)
    {items : List α} {entries : List (Text × Tag)} {rest : Text} {offset : Nat}
    (hfuel :
      2 * (Text.join "," (items.map fun a => keyText (key a) ++ sep :: text a)).length ≤ fuel)
    (h : readEntries sep fuel
      ⟨Text.join "," (items.map fun a => keyText (key a) ++ sep :: text a) ++ '}' :: rest, offset⟩ =
        .ok (entries, after)) (htells : Tells entries items) : ∀ a ∈ items, Good a := by
  induction items generalizing fuel offset entries with
  | nil => simp
  | cons a as ih =>
    cases as with
    | nil =>
      simp only [List.map_cons, List.map_nil, Text.join, List.append_assoc, List.cons_append,
        List.length_append, List.length_cons] at hfuel h
      obtain ⟨n, _, tag, c, more, rfl, htag, rfl, -⟩ := readEntries_cons hs h
      rw [List.forall_mem_singleton]
      exact hhead (by omega) htag htells
    | cons b bs =>
      have hjoin : Text.join "," ((a :: b :: bs).map fun a => keyText (key a) ++ sep :: text a) =
          keyText (key a) ++ sep :: (text a ++
            ',' :: Text.join "," ((b :: bs).map fun a => keyText (key a) ++ sep :: text a)) := by
        simp [Text.join]
      rw [hjoin] at hfuel h
      simp only [List.append_assoc, List.cons_append, List.length_append, List.length_cons]
        at hfuel h
      obtain ⟨n, _, tag, c, more, rfl, htag, rfl, hmore⟩ := readEntries_cons hs h
      have ha : Good a := hhead (by omega) htag htells
      obtain ⟨hread, hprint⟩ := hgood a ha
      rw [hprint] at hfuel htag
      obtain ⟨rfl, hrest⟩ :=
        eq_of_readTag_print hs hread (by omega) (endsWord_close (.inl rfl) _) htag
      obtain ⟨offset', hmore⟩ := hmore _ hrest
      rw [List.forall_mem_cons]
      exact ⟨ha, ih (by omega) hmore (htail htells)⟩

end Snbt

end CrossEdition
