import CrossEdition.Selector.Score
import CrossEdition.Proofs.Selector.Printing

/-!
# Score maps without negated entries

A flat score map is `{` and `}` around entries without further brackets and quotes. Its
entries are found again in the text that is made of them, so leaving out the negated ones
and writing the map again keeps the others as they are and in their order.

Results:
* `entries_read_text`: a map that was made of clean entries has these entries.
* `entries_purged`, `negated_of_mem_purged`: what a flat map leaves has its other entries only.
-/

namespace CrossEdition

namespace Text

/-- What holds of the separator and of the parts holds of the joined text. -/
theorem forall_mem_join {separator : Text} {parts : List Text} {q : Char → Prop}
    (hs : ∀ c ∈ separator, q c) (h : ∀ part ∈ parts, ∀ c ∈ part, q c) :
    ∀ c ∈ join separator parts, q c := by
  induction parts with
  | nil => simp [join]
  | cons part parts ih =>
    have hpart := h part (by simp)
    have hrest := ih fun other ho => h other (List.mem_cons_of_mem _ ho)
    cases parts with
    | nil => exact hpart
    | cons next parts =>
      rw [join]
      · simp only [List.mem_append]
        rintro c ((hc | hc) | hc)
        · exact hpart c hc
        · exact hs c hc
        · exact hrest c hc
      · simp

/-- A text without quotes and brackets is split at all commas. -/
theorem isInert_of_mem_splitTop {t part : Text} (ht : ∀ c ∈ t, Nesting.isMark c = false)
    (hp : part ∈ splitTop ',' .outside t) : ∀ c ∈ part, isInert c = true := by
  induction t generalizing part with
  | nil =>
    rw [splitTop, List.mem_singleton] at hp
    simp [hp]
  | cons d t ih =>
    obtain ⟨hd, ht⟩ := List.forall_mem_cons.1 ht
    have hstep : Nesting.outside.step d = .outside := Nesting.step_of_not_mark rfl hd
    have hrest : ∀ part ∈ splitTop ',' .outside t, ∀ c ∈ part, isInert c = true := fun part hm =>
      ih ht hm
    obtain ⟨next, parts, hs⟩ := List.exists_cons_of_ne_nil (splitTop_ne_nil ',' .outside t)
    rw [splitTop, hstep] at hp
    split_ifs at hp with hc
    · rcases List.mem_cons.1 hp with rfl | hp
      · simp
      · exact hrest part hp
    · rw [hs] at hp hrest
      have hcomma : d ≠ ',' := by simpa [Nesting.isTop, Nesting.outside] using hc
      rcases List.mem_cons.1 hp with rfl | hp
      · exact List.forall_mem_cons.2 ⟨by simp [isInert, hd, hcomma], hrest next (by simp)⟩
      · exact hrest part (List.mem_cons_of_mem _ hp)

end Text

namespace Score

variable {v : Value} {es : List (Text × Text)}

/-- A map with one pair of braces and no other brackets or quotes in it. -/
def IsFlat : Value → Prop
  | .compound t =>
    ∃ body, Text.trim t = '{' :: (body ++ ['}']) ∧ ∀ c ∈ body, Nesting.isMark c = false
  | _ => False

/-- An entry that is found again in the text of a map. -/
structure Clean (entry : Text × Text) : Prop where
  name : ∀ c ∈ entry.1, isInert c = true ∧ c ≠ '='
  value : ∀ c ∈ entry.2, isInert c = true
  trimmed : Text.trim entry.1 = entry.1 ∧ Text.trim entry.2 = entry.2

/-- The text of an entry. -/
def entryText (entry : Text × Text) : Text :=
  entry.1 ++ '=' :: entry.2

theorem Clean.isInert_entryText {entry : Text × Text} (h : Clean entry) :
    ∀ c ∈ entryText entry, isInert c = true := by
  intro c hc
  rcases List.mem_append.1 hc with hc | hc
  · exact (h.name c hc).1
  · rcases List.mem_cons.1 hc with rfl | hc
    · decide
    · exact h.value c hc

theorem Clean.cut_entryText {entry : Text × Text} (h : Clean entry) :
    Text.cut '=' (entryText entry) = some entry :=
  Text.cut_eq_some_iff.2 ⟨rfl, fun hm => (h.name '=' hm).2 rfl⟩

theorem inside_braces {body : Text} (h : ∀ c ∈ body, Nesting.isMark c = false) :
    Text.dropEndWhile (· = '}') (('{' :: (body ++ ['}'])).dropWhile (· = '{')) = body := by
  have hne : ∀ {c d : Char}, c ∈ body → Nesting.isMark d = true → decide (c = d) = false := by
    rintro c d hc hd
    refine decide_eq_false ?_
    rintro rfl
    rw [h c hc] at hd
    exact Bool.false_ne_true hd
  have hopen : ('{' :: (body ++ ['}'])).dropWhile (· = '{') = body ++ ['}'] := by
    rw [List.dropWhile_cons_of_pos (by decide)]
    cases body with
    | nil => rfl
    | cons c body =>
      rw [List.cons_append, List.dropWhile_cons_of_neg]
      rw [hne (by simp) (by decide)]
      exact Bool.false_ne_true
  have hclose : Text.dropEndWhile (· = '}') ['}'] = [] := by
    decide
  rw [hopen, Text.dropEndWhile_append, if_pos hclose, Text.dropEndWhile_eq_self]
  intro c hc
  exact hne (List.mem_of_getLast? hc) (by decide)

theorem entries_of_trim {t body : Text} (h : ∀ c ∈ body, Nesting.isMark c = false)
    (ht : Text.trim t = '{' :: (body ++ ['}'])) :
    entries (.compound t) = (Text.splitTop ',' .outside body).filterMap fun entry =>
      (Text.cut '=' entry).map fun (name, value) => (Text.trim name, Text.trim value) := by
  rw [entries, ht, inside_braces h]

theorem clean_of_mem_entries (h : IsFlat v) : ∀ e ∈ entries v, Clean e := by
  cases v with
  | compound t =>
    obtain ⟨body, ht, hb⟩ := h
    intro e he
    rw [entries_of_trim hb ht] at he
    obtain ⟨part, hp, hc⟩ := List.mem_filterMap.1 he
    obtain ⟨⟨name, value⟩, hcut, rfl⟩ := Option.map_eq_some_iff.1 hc
    obtain ⟨rfl, hn⟩ := Text.cut_eq_some_iff.1 hcut
    have hinert := Text.isInert_of_mem_splitTop hb hp
    refine ⟨fun c hc => ⟨hinert c ?_, ?_⟩, fun c hc => hinert c ?_, Text.trim_trim name,
      Text.trim_trim value⟩
    · exact List.mem_append_left _ (Text.mem_of_mem_trim hc)
    · rintro rfl
      exact hn (Text.mem_of_mem_trim hc)
    · exact List.mem_append_right _ (List.mem_cons_of_mem _ (Text.mem_of_mem_trim hc))
  | _ => exact h.elim

/-- A map that was made of clean entries has these entries. -/
theorem entries_read_text (h : ∀ e ∈ es, Clean e) : entries (.read (text es)) = es := by
  have hinert : ∀ part ∈ es.map entryText, ∀ c ∈ part, isInert c = true := by
    intro part hp
    obtain ⟨e, he, rfl⟩ := List.mem_map.1 hp
    exact (h e he).isInert_entryText
  have hmark : ∀ c ∈ Text.join "," (es.map entryText), Nesting.isMark c = false := by
    refine Text.forall_mem_join (by decide) fun part hp c hc => ?_
    have hi := hinert part hp c hc
    rw [isInert, Bool.and_eq_true, Bool.not_eq_true'] at hi
    exact hi.1
  have htrim : Text.trim (text es) = '{' :: (Text.join "," (es.map entryText) ++ ['}']) :=
    Text.trim_between (by decide) (by decide) _
  have hread : Value.read (text es) = .compound (Text.trim (text es)) := by
    simp only [Value.read]
    rw [if_pos]
    rw [htrim]
    exact .inl rfl
  rw [hread, entries_of_trim hmark (by rw [Text.trim_trim, htrim])]
  by_cases hes : es = []
  · rw [hes]
    rfl
  · have hclosed : ∀ part ∈ es.map entryText, Text.Closed (· = ',') part := fun part hp =>
      (separates_isSeparator.closed (hinert part hp)).mono fun c hc => by simp [isSeparator, hc]
    have hsplit : Text.splitTop ',' .outside (Text.join "," (es.map entryText)) =
        es.map entryText := Text.splitTop_join (by simpa using hes) hclosed
    rw [hsplit, List.filterMap_map]
    refine (List.filterMap_congr fun e he => ?_).trans List.filterMap_some
    have hc := h e he
    simp only [Function.comp_apply, hc.cut_entryText, Option.map_some, hc.trimmed]

/-! ## Leaving out the negated entries -/

/-- The entries of a score map that are not negated. -/
def positive (v : Value) : List (Text × Text) :=
  (entries v).filter fun entry => !isNegated entry

/-- What a score map leaves when its negated entries are taken out: itself if there are
    none, and nothing if there are no others. -/
def purged (v : Value) : List Value :=
  if negated v = [] then [v] else if positive v = [] then [] else [.read (text (positive v))]

theorem length_purged_le (v : Value) : (purged v).length ≤ 1 := by
  unfold purged
  split_ifs <;> simp

theorem entries_read_positive (h : IsFlat v) : entries (.read (text (positive v))) = positive v :=
  entries_read_text fun e he => clean_of_mem_entries h e (List.mem_of_mem_filter he)

/-- What a flat map leaves has the entries that are not negated, in their order. -/
theorem entries_purged (h : IsFlat v) : (purged v).flatMap entries = positive v := by
  unfold purged
  split_ifs with hn hp
  · rw [List.flatMap_singleton, positive, List.filter_eq_self.2]
    intro e he
    have hne := List.filter_eq_nil_iff.1 hn e he
    simpa using hne
  · rw [hp]
    rfl
  · rw [List.flatMap_singleton, entries_read_positive h]

/-- What a flat map leaves has no negated entries. -/
theorem negated_of_mem_purged (h : IsFlat v) : ∀ w ∈ purged v, negated w = [] := by
  intro w hw
  unfold purged at hw
  split_ifs at hw with hn hp
  · rwa [List.mem_singleton.1 hw]
  · simp at hw
  · rw [List.mem_singleton.1 hw, negated, entries_read_positive h, List.filter_eq_nil_iff]
    intro e he
    simpa using (List.mem_filter.1 he).2

end Score

end CrossEdition
