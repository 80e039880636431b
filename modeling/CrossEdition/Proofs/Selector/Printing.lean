import CrossEdition.Selector.Basic
import CrossEdition.Proofs.Selector.Values

/-!
# Selectors that are read again

The text of a selector is read as the same selector with each value read again, if its
names and values are closed for the separators around them. Every selector that was
read from a text with closed quotes and brackets is of that kind.

Results:
* `wellFormed_read`: what is read from a closed parameter list is well formed.
* `WellFormed.read_text`: the text of a well-formed selector gives the selector back,
  with its values read again.
* `WellFormed.text_reread`: reading again does not change the text.
-/

namespace CrossEdition

/-- Whether only commas and closing brackets are separators. -/
def Separates (q : Char → Bool) : Prop :=
  ∀ c, q c = true → c = ',' ∨ Text.isClosing c = true

theorem separates_or_comma {p : Char → Bool} (hp : ∀ c, p c = true → Text.isClosing c = true) :
    Separates fun c => p c || c = ',' := by
  intro c hc
  rcases Bool.or_eq_true_iff.1 hc with hc | hc
  · exact .inr (hp c hc)
  · exact .inl (by simpa using hc)

/-- All separators of parameter lists. -/
def isSeparator (c : Char) : Bool :=
  Text.isClosing c || c = ','

theorem separates_isSeparator : Separates isSeparator :=
  separates_or_comma fun _ hc => hc

/-- Whether a character is neither a mark nor a comma. -/
def isInert (c : Char) : Bool :=
  !Nesting.isMark c && c ≠ ','

theorem Separates.eq_false {q : Char → Bool} (hq : Separates q) {c : Char}
    (hc : isInert c = true) : q c = false := by
  by_contra hn
  rw [Bool.not_eq_false] at hn
  simp only [isInert, Nesting.isMark, Bool.and_eq_true, Bool.not_eq_true', Bool.or_eq_false_iff,
    decide_eq_false_iff_not, decide_eq_true_eq] at hc
  rcases hq c hn with h | h
  · exact hc.2 h
  · simp only [Text.isClosing, Bool.or_eq_true, decide_eq_true_eq] at h
    tauto

/-- A text of inert characters is closed for every separator. -/
theorem Separates.closed {q : Char → Bool} (hq : Separates q) {t : Text}
    (ht : ∀ c ∈ t, isInert c = true) : Text.Closed q t := by
  refine Text.closed_of_forall fun c hc => ⟨?_, hq.eq_false (ht c hc)⟩
  have hi := ht c hc
  simp only [isInert, Bool.and_eq_true, Bool.not_eq_true'] at hi
  exact hi.1

theorem isInert_of_isNumeralChar {c : Char} (h : Numeral.isNumeralChar c = true) :
    isInert c = true := by
  by_contra hn
  have hm : c = ',' ∨ Nesting.isMark c = true := by
    simp only [isInert, Bool.and_eq_true, Bool.not_eq_true', decide_eq_true_eq] at hn
    by_cases hc : c = ','
    · exact .inl hc
    · exact .inr (by simpa [hc] using hn)
  simp only [Nesting.isMark, Bool.or_eq_true, decide_eq_true_eq] at hm
  rcases hm with rfl | ((((rfl | rfl) | rfl) | rfl) | rfl) | rfl <;>
    (revert h; decide)

theorem isInert_of_isBlank {c : Char} (h : Text.isBlank c = true) : isInert c = true := by
  have hmark := (Nesting.plain_of_blank (List.forall_mem_singleton.2 h) c (by simp)).1
  rw [isInert, hmark, Bool.not_false, Bool.true_and, decide_eq_true_iff]
  rintro rfl
  revert h
  decide

namespace Parameter

variable {q : Char → Bool} {p : Parameter}

@[simp] theorem name_ofTexts (name value : Text) : (ofTexts name value).name = name := rfl

@[simp] theorem value_ofTexts (name value : Text) : (ofTexts name value).value = .read value := rfl

/-- A parameter that is found again in a parameter list with the separators `q`. -/
structure WellFormed (q : Char → Bool) (p : Parameter) : Prop where
  name_ne_nil : p.name ≠ []
  eq_notMem : '=' ∉ p.name
  trim_name : Text.trim p.name = p.name
  closed : Text.Closed q p.text
  faithful : p.value.Faithful

/-- The parameter with its value read again. -/
def reread (p : Parameter) : Parameter :=
  ⟨p.name, p.value.reread⟩

@[simp] theorem name_reread (p : Parameter) : p.reread.name = p.name := rfl

@[simp] theorem value_reread (p : Parameter) : p.reread.value = p.value.reread := rfl

theorem WellFormed.text_reread (h : p.WellFormed q) : p.reread.text = p.text := by
  simp only [text, name_reread, value_reread, h.faithful.text_reread]

theorem WellFormed.reread (h : p.WellFormed q) : p.reread.WellFormed q where
  name_ne_nil := h.name_ne_nil
  eq_notMem := h.eq_notMem
  trim_name := h.trim_name
  closed := h.text_reread.symm ▸ h.closed
  faithful := Value.faithful_reread _

/-- A parameter keeps its name and gets another value that is closed. -/
theorem WellFormed.setValue (h : p.WellFormed q) {value : Value}
    (hc : Text.Closed q (p.name ++ '=' :: value.text)) (hf : value.Faithful) :
    (Parameter.mk p.name value).WellFormed q :=
  ⟨h.name_ne_nil, h.eq_notMem, h.trim_name, hc, hf⟩

theorem WellFormed.closed_name (h : p.WellFormed q) (hb : p.value.bounds?.isSome = true) :
    Text.Closed q p.name := by
  have ht := Numeral.plain_of_isNumeralChar (h.faithful.isNumeralChar_text hb)
  exact Text.Closed.of_append_plain h.closed (Nesting.plain_cons.2 ⟨by decide, ht⟩)

/-- A parameter made of a name and a value that are closed together. -/
theorem wellFormed_ofTexts (hq : Separates q) {name value : Text} (hne : name ≠ [])
    (heq : '=' ∉ name) (ht : Text.trim name = name)
    (hc : Text.Closed q (name ++ '=' :: Text.trim value)) :
    (ofTexts name value).WellFormed q := by
  refine ⟨hne, heq, ht, ?_, Value.faithful_read value⟩
  rcases Value.read_cases value with ⟨bounds, hb, hn⟩ | ⟨htext, -⟩
  · -- the name is closed by itself, and so is the text of a range
    have hname := Text.Closed.of_append_plain hc (Nesting.plain_cons.2
      ⟨by decide, Bounds.plain_of_ofText? hn⟩)
    rw [text, ofTexts, hb]
    refine hname.append (hq.closed ?_)
    rw [List.forall_mem_cons]
    exact ⟨by decide, fun c hm => isInert_of_isNumeralChar
      (Bounds.isNumeralChar_text (Bounds.numeric_of_ofText? hn) c hm)⟩
  · rw [text, ofTexts, htext]
    exact hc

/-- Whether a text may be the name of a parameter in every parameter list. -/
def IsKeyword (name : Text) : Prop :=
  name ≠ [] ∧ '=' ∉ name ∧ Text.trim name = name ∧ ∀ c ∈ name, isInert c = true

instance (name : Text) : Decidable (IsKeyword name) :=
  inferInstanceAs (Decidable (_ ∧ _ ∧ _ ∧ _))

/-- A parameter with such a name and a closed value. -/
theorem wellFormed_of_isKeyword (hq : Separates q) {name value : Text} (hn : IsKeyword name)
    (hv : Text.Closed q (Text.trim value)) : (ofTexts name value).WellFormed q := by
  obtain ⟨hne, heq, ht, hi⟩ := hn
  refine wellFormed_ofTexts hq hne heq ht ((hq.closed hi).append ?_)
  have he : Text.Closed q ['='] := hq.closed (by decide)
  exact he.append hv

theorem closed_trim_of_inert (hq : Separates q) {t : Text} (h : ∀ c ∈ t, isInert c = true) :
    Text.Closed q (Text.trim t) :=
  hq.closed fun c hc => h c (Text.mem_of_mem_trim hc)

/-- What an entry spells is well formed if the entry is closed. -/
theorem wellFormed_of_parameter? (hq : Separates q) {entry : Text} (hc : Text.Closed q entry)
    (h : (Selector.parameter? entry).value = some p) : p.WellFormed q := by
  unfold Selector.parameter? at h
  cases he : Text.cut '=' entry with
  | none => simp [he] at h
  | some sides =>
    obtain ⟨name, value⟩ := sides
    obtain ⟨rfl, hn⟩ := Text.cut_eq_some_iff.1 he
    simp only [he] at h
    by_cases hne : Text.trim name = []
    · simp [hne] at h
    · simp only [if_neg hne, Noted.value_pure, Option.some.injEq] at h
      subst h
      refine wellFormed_ofTexts hq hne ?_ (Text.trim_trim name) ?_
      · intro hm
        exact hn (Text.mem_of_mem_trim hm)
      · exact Text.closed_trim (hq.eq_false (by decide)) hc

/-- An entry of a parameter list with such a name spells it and the text behind the `=`. -/
theorem parameter?_entry {name : Text} (hn : IsKeyword name) (value : Text) :
    Selector.parameter? (name ++ '=' :: value) = pure (some (.ofTexts name value)) := by
  obtain ⟨hne, heq, ht, -⟩ := hn
  have hc : Text.cut '=' (name ++ '=' :: value) = some (name, value) :=
    Text.cut_eq_some_iff.2 ⟨rfl, heq⟩
  simp only [Selector.parameter?, hc, ht, if_neg hne]

/-- A well-formed parameter is spelled by its own text. -/
theorem WellFormed.parameter?_text (h : p.WellFormed q) :
    Selector.parameter? p.text = pure (some p.reread) := by
  have hc : Text.cut '=' p.text = some (p.name, p.value.text) :=
    Text.cut_eq_some_iff.2 ⟨rfl, h.eq_notMem⟩
  simp only [Selector.parameter?, hc, h.trim_name, if_neg h.name_ne_nil]
  rfl

end Parameter

/-- A variable that is found again in front of a parameter list. -/
structure Variable.Readable (v : Variable) : Prop where
  ofText : .ofText v.text = v
  bracket_notMem : '[' ∉ v.text
  trim_text : Text.trim v.text = v.text

theorem Variable.readable_of_known {v : Variable} (h : v ∈ known) : v.Readable := by
  have hall : ∀ v ∈ known, .ofText v.text = v ∧ '[' ∉ v.text ∧ Text.trim v.text = v.text := by
    decide
  obtain ⟨h₁, h₂, h₃⟩ := hall v h
  exact ⟨h₁, h₂, h₃⟩

namespace Selector

variable {q : Char → Bool} {s : Selector}

/-- A selector whose text can be taken apart again. -/
structure WellFormed (q : Char → Bool) (s : Selector) : Prop where
  head : s.head.Readable
  parameters : ∀ p ∈ s.parameters, p.WellFormed q

/-- The selector with all values read again. -/
def reread (s : Selector) : Selector :=
  { s with parameters := s.parameters.map Parameter.reread }

@[simp] theorem head_reread (s : Selector) : s.reread.head = s.head := rfl

@[simp] theorem parameters_reread (s : Selector) :
    s.reread.parameters = s.parameters.map Parameter.reread := rfl

theorem WellFormed.text_parameters (h : s.WellFormed q) :
    s.reread.parameters.map Parameter.text = s.parameters.map Parameter.text := by
  rw [parameters_reread, List.map_map]
  exact List.map_congr_left fun p hp => (h.parameters p hp).text_reread

/-- Reading the values again does not change the text of a selector. -/
theorem WellFormed.text_reread (h : s.WellFormed q) : s.reread.text = s.text := by
  have hn : s.reread.parameters = [] ↔ s.parameters = [] := List.map_eq_nil_iff
  simp only [text, h.text_parameters, hn, head_reread]

theorem WellFormed.reread (h : s.WellFormed q) : s.reread.WellFormed q where
  head := h.head
  parameters := by
    intro p hp
    obtain ⟨p', hp', rfl⟩ := List.mem_map.1 hp
    exact (h.parameters p' hp').reread

/-! ## Reading the text of a selector -/

/-- The parameter list of a selector as it is written. -/
def list (s : Selector) : Text :=
  Text.join "," (s.parameters.map Parameter.text)

theorem text_eq (hp : s.parameters ≠ []) : s.text = s.head.text ++ '[' :: (s.list ++ [']']) := by
  simp [text, hp, list]

/-- A parameter list is closed for all separators of its entries but the comma. -/
theorem WellFormed.closed_list (h : s.WellFormed q) {q' : Char → Bool}
    (hq : ∀ c, q' c = true → q c = true) (hc : q' ',' = false) : Text.Closed q' s.list := by
  apply Text.closed_join (by decide) hc
  intro e he
  obtain ⟨p, hp, rfl⟩ := List.mem_map.1 he
  exact (h.parameters p hp).closed.mono hq

/-- No blanks are around a readable variable with a parameter list. -/
theorem trim_bracketed {v : Variable} (hv : v.Readable) (list : Text) :
    Text.trim (v.text ++ '[' :: (list ++ [']'])) = v.text ++ '[' :: (list ++ [']']) := by
  refine Text.trim_eq_self ?_ ?_
  · cases ht : v.text with
    | nil => simp; decide
    | cons c t =>
      have hc := Text.head_trim v.text
      rw [hv.trim_text, ht] at hc
      simpa using hc
  · rw [← List.cons_append, ← List.append_assoc, List.getLast?_concat]
    simp
    decide

/-- A parameter list of closed entries is read entry by entry. -/
theorem read_entries {v : Variable} (hv : v.Readable) {entries : List Text} (hne : entries ≠ [])
    (hc : q ',' = true) (hb : q ']' = true) (h : ∀ e ∈ entries, Text.Closed q e) :
    read (v.text ++ '[' :: (Text.join "," entries ++ [']'])) =
      Noted.all (entries.map parameter?) >>= fun ps => pure ⟨v, ps.filterMap id⟩ := by
  have hcut : Text.cut '[' (v.text ++ '[' :: (Text.join "," entries ++ [']'])) =
      some (v.text, Text.join "," entries ++ [']']) :=
    Text.cut_eq_some_iff.2 ⟨rfl, hv.bracket_notMem⟩
  have hclosed : ∀ c, q c = true → ∀ e ∈ entries, Text.Closed (· = c) e := by
    intro c hq e he
    apply (h e he).mono
    intro d hd
    rw [decide_eq_true_eq] at hd
    rw [hd, hq]
  have hl : Text.Closed (· = ']') (Text.join "," entries) :=
    Text.closed_join (by decide) (by decide) (hclosed ']' hb)
  have hbreak : Text.breakTop (· = ']') .outside (Text.join "," entries ++ [']']) =
      (Text.join "," entries, [']']) :=
    Text.breakTop_append_of_clear hl.1 hl.isTop (by decide)
  have hsplit : Text.splitTop ',' .outside (Text.join "," entries) = entries :=
    Text.splitTop_join hne (hclosed ',' hc)
  simp only [read, body?, trim_bracketed hv, hcut, Option.map_some, Option.getD_some, hbreak,
    hsplit, hv.trim_text, hv.ofText]

theorem all_parameter? (h : ∀ p ∈ s.parameters, p.WellFormed q) :
    (Noted.all ((s.parameters.map Parameter.text).map parameter?)) =
      pure (s.reread.parameters.map some) := by
  have he : (s.parameters.map Parameter.text).map parameter? =
      s.parameters.map fun p => pure (some p.reread) := by
    rw [List.map_map]
    exact List.map_congr_left fun p hp => (h p hp).parameter?_text
  rw [he, Noted.all, List.map_map, List.flatMap_map]
  simp [Function.comp_def, pure]

/-- A well-formed selector is read back from its text, with each value read again. -/
theorem WellFormed.read_text (h : s.WellFormed q) (hc : q ',' = true) (hb : q ']' = true) :
    read s.text = pure s.reread := by
  by_cases hp : s.parameters = []
  · have hcut : Text.cut '[' s.head.text = none := Text.cut_eq_none_iff.2 h.head.bracket_notMem
    rw [text, if_pos hp, Selector.reread, hp]
    simp only [read, body?, h.head.trim_text, hcut, Option.map_none, Option.getD_none, List.map_nil,
      h.head.ofText]
    rfl
  · have hentries : ∀ e ∈ s.parameters.map Parameter.text, Text.Closed q e := by
      intro e he
      obtain ⟨p, hp, rfl⟩ := List.mem_map.1 he
      exact (h.parameters p hp).closed
    have hf : (s.reread.parameters.map some).filterMap id = s.reread.parameters := by
      simp [List.filterMap_map]
    rw [text_eq hp, list, read_entries h.head (by simpa using hp) hc hb hentries,
      all_parameter? h.parameters, Noted.pure_bind, hf]
    rfl

/-- A parameter list of names and inert texts is read as these. -/
theorem read_ofTexts {v : Variable} (hv : v.Readable) {entries : List (Text × Text)}
    (hne : entries ≠ []) (hname : ∀ e ∈ entries, Parameter.IsKeyword e.1)
    (hvalue : ∀ e ∈ entries, ∀ c ∈ e.2, isInert c = true) :
    (read (v.text ++ '[' ::
        (Text.join "," (entries.map fun e => e.1 ++ '=' :: e.2) ++ [']']))).value =
      ⟨v, entries.map fun e => .ofTexts e.1 e.2⟩ := by
  have hclosed : ∀ e ∈ entries.map (fun e => e.1 ++ '=' :: e.2), Text.Closed isSeparator e := by
    intro t ht
    obtain ⟨e, he, rfl⟩ := List.mem_map.1 ht
    refine separates_isSeparator.closed fun c hc => ?_
    rcases List.mem_append.1 hc with hc | hc
    · exact (hname e he).2.2.2 c hc
    · rcases List.mem_cons.1 hc with rfl | hc
      · decide
      · exact hvalue e he c hc
  have hall : (entries.map fun e => e.1 ++ '=' :: e.2).map parameter? =
      entries.map fun e => pure (some (.ofTexts e.1 e.2)) := by
    rw [List.map_map]
    exact List.map_congr_left fun e he => Parameter.parameter?_entry (hname e he) e.2
  rw [read_entries hv (by simpa using hne) (by decide) (by decide) hclosed, hall]
  simp [List.filterMap_map, Function.comp_def]

/-! ## Selectors that were read -/

/-- The text in front of the first bracket. -/
theorem notMem_front (t : Text) : '[' ∉ ((Text.cut '[' t).map (·.1)).getD t := by
  cases h : Text.cut '[' t with
  | none => exact Text.cut_eq_none_iff.1 h
  | some sides => exact (Text.cut_eq_some_iff.1 h).2

theorem readable_head_read (t : Text) : (read t).value.head.Readable := by
  have hh : ∀ u : Text, (Variable.ofText u).text = u := Variable.text_ofText
  refine ⟨?_, ?_, ?_⟩
  · simp only [read, Noted.value_bind, Noted.value_pure, hh]
  · simp only [read, Noted.value_bind, Noted.value_pure, hh]
    intro hm
    exact notMem_front _ (Text.mem_of_mem_trim hm)
  · simp only [read, Noted.value_bind, Noted.value_pure, hh, Text.trim_trim]

/-- Every parameter that was read is spelled by an entry of the parameter list. -/
theorem exists_entry {t : Text} {p : Parameter} (hp : p ∈ (read t).value.parameters) :
    ∃ body ∈ body? (Text.trim t), ∃ entry ∈ Text.splitTop ',' .outside body,
      (parameter? entry).value = some p := by
  simp only [read, Noted.value_bind, Noted.value_pure, Noted.value_all, List.mem_filterMap,
    List.mem_map, id_eq, exists_eq_right, exists_exists_and_eq_and] at hp
  obtain ⟨entry, he, hv⟩ := hp
  cases hb : body? (Text.trim t) with
  | none => simp [hb] at he
  | some body =>
    simp only [hb, Option.map_some, Option.getD_some] at he
    exact ⟨body, rfl, entry, he, hv⟩

/-- The value of a parameter that was read is read from some text. -/
theorem exists_read_of_mem {t : Text} {p : Parameter} (hp : p ∈ (read t).value.parameters) :
    ∃ u, p.value = .read u := by
  obtain ⟨body, -, entry, -, hv⟩ := exists_entry hp
  unfold parameter? at hv
  split at hv
  · simp at hv
  · split_ifs at hv
    rw [← Option.some.inj hv]
    exact ⟨_, rfl⟩

/-- What was read has values that are classified by their texts. -/
theorem faithful_of_mem_read {t : Text} {p : Parameter} (hp : p ∈ (read t).value.parameters) :
    p.value.Faithful := by
  obtain ⟨u, hu⟩ := exists_read_of_mem hp
  rw [hu]
  exact Value.faithful_read u

/-- A parameter list whose quotes and brackets are closed at its end is closed. -/
theorem closed_body {t : Text}
    (h : ∀ body ∈ body? (Text.trim t), (Nesting.outside.scan body).isTop = true) :
    ∀ body ∈ body? (Text.trim t), Text.Closed (· = ']') body := by
  intro body hb
  refine ⟨?_, (Nesting.tidy_outside.scan body).eq_outside (h body hb)⟩
  obtain ⟨sides, -, rfl⟩ := Option.map_eq_some_iff.1 hb
  exact Text.clear_breakTop _ _ _

/-- What is read from a closed parameter list is well formed. -/
theorem wellFormed_read {p : Char → Bool} {t : Text}
    (hp : ∀ c, p c = true → Text.isClosing c = true)
    (h : ∀ body ∈ body? (Text.trim t), Text.Closed p body) :
    (read t).value.WellFormed (fun c => p c || c = ',') := by
  refine ⟨readable_head_read t, fun q hm => ?_⟩
  obtain ⟨body, hb, entry, he, hv⟩ := exists_entry hm
  exact Parameter.wellFormed_of_parameter? (separates_or_comma hp)
    (Text.closed_of_mem_splitTop (by decide) (h body hb) he) hv

end Selector

end CrossEdition
