import CrossEdition.Proofs.Json.Numbers
import CrossEdition.Proofs.Json.Strings

/-!
# The reader follows the grammar

Whatever spells a value is read as that value, wherever it stands and whatever follows
it, as long as that does not continue a number.

Results:
* `SpellsString.quotedAs`: a string is spelled by pieces that denote its content.
* `Spells.sentence`: what spells a value is a sentence of JSON.
* `Reads`: a text that is read as a value, in as many steps as it has characters.
* `reads_array`, `reads_object`: brackets around texts that are read are read as well.
* `Spells.reads`: so is all that spells a value.
* `Reads.read_between`: with blanks around it, it is read to the end.
-/

namespace CrossEdition

namespace Json

/-! ## Strings -/

/-- Whether a text is a string of the lenient lexicon that is read as this content. -/
def QuotedAs (content t : Text) : Prop :=
  ∃ ps, (∀ p ∈ ps, p.Lenient) ∧ contents ps = content ∧ t = quoted ps

theorem QuotedAs.readString {content t blanks : Text} (h : QuotedAs content t)
    (hb : IsBlank blanks) (rest : Text) (o : Nat) :
    ∃ o', readString ⟨blanks ++ (t ++ rest), o⟩ = .ok (content, ⟨rest, o'⟩) := by
  obtain ⟨ps, hps, rfl, rfl⟩ := h
  exact readString_pieces hps hb rest o

theorem QuotedAs.head {content t : Text} (h : QuotedAs content t) : ∃ u, t = '"' :: u := by
  obtain ⟨ps, -, -, rfl⟩ := h
  exact ⟨_, rfl⟩

/-- The code of a character is read as that character. -/
theorem codeChar_unit {digits : Text} (h : Piece.IsCode digits)
    (hs : codeUnit digits < 0xd800 ∨ 0xdfff < codeUnit digits) :
    codeChar (unit digits) = Char.ofNat (codeUnit digits) := by
  have hlt := codeUnit_lt h.2
  rw [h.1] at hlt
  rw [h.unit_eq]
  refine if_pos ?_
  simp only [Nat.isValidChar]
  omega

/-- One character in front of the content is one piece in front of it, or the two of a pair. -/
theorem SpellsChar.exists_pieces {c : Char} {u : Text} (h : SpellsChar c u) :
    ∃ qs, (∀ q ∈ qs, q.Valid) ∧ u = qs.flatMap Piece.text ∧
      ∀ ps, contents (qs ++ ps) = c :: contents ps := by
  cases h with
  | raw hc hq hb =>
    refine ⟨[.raw c], by simpa [Piece.Valid] using ⟨hc, hq, hb⟩, rfl, fun ps => ?_⟩
    exact contents_alone fun _ _ _ hp => by simp at hp
  | @short e _ h =>
    refine ⟨[.short e c], by simpa [Piece.Valid] using h, rfl, fun ps => ?_⟩
    exact contents_alone fun _ _ _ hp => by simp at hp
  | @code digits hl hd hs =>
    have hcode : Piece.IsCode digits := ⟨hl, hd⟩
    refine ⟨[.code digits], by simpa [Piece.Valid] using hcode, by simp [Piece.text],
      fun ps => ?_⟩
    rw [← codeChar_unit hcode hs]
    refine contents_alone fun high _ _ hp _ hh => ?_
    rw [← Piece.code.inj hp, hcode.unit_eq] at hh
    simp only [IsHigh] at hh
    omega
  | @pair high low hhl hhd hll hld hh hl =>
    have hhigh : Piece.IsCode high := ⟨hhl, hhd⟩
    have hlow : Piece.IsCode low := ⟨hll, hld⟩
    refine ⟨[.code high, .code low], by simpa [Piece.Valid] using ⟨hhigh, hlow⟩,
      by simp [Piece.text], fun ps => ?_⟩
    rw [← pairChar_eq hh hl, ← hhigh.unit_eq, ← hlow.unit_eq]
    exact contents_pair (by rwa [hhigh.unit_eq])

/-- The content of a string is spelled by pieces. -/
theorem SpellsContent.exists_pieces {content body : Text} (h : SpellsContent content body) :
    ∃ ps, (∀ p ∈ ps, p.Valid) ∧ body = ps.flatMap Piece.text ∧ contents ps = content := by
  induction h with
  | nil => exact ⟨[], by simp, rfl, rfl⟩
  | cons hc _ ih =>
    obtain ⟨qs, hqs, rfl, hq⟩ := hc.exists_pieces
    obtain ⟨ps, hps, rfl, rfl⟩ := ih
    refine ⟨qs ++ ps, ?_, by simp, hq ps⟩
    exact fun p hp => (List.mem_append.1 hp).elim (hqs p) (hps p)

theorem SpellsString.quotedAs {content t : Text} (h : SpellsString content t) :
    QuotedAs content t := by
  obtain ⟨body, hbody, rfl⟩ := h
  obtain ⟨ps, hps, rfl, rfl⟩ := hbody.exists_pieces
  exact ⟨ps, fun p hp => (Piece.valid_iff.1 (hps p hp)).1, rfl, rfl⟩

/-! ## Sentences -/

/-- What spells a value is a sentence of JSON. -/
theorem Spells.sentence {j : Json} {t : Text} (h : Spells j t) : Sentence .strict t := by
  have hstring : ∀ {content t : Text}, SpellsString content t → Lexicon.strict.IsString t := by
    rintro content t ⟨body, hbody, rfl⟩
    obtain ⟨ps, hps, rfl, -⟩ := hbody.exists_pieces
    exact ⟨ps, hps, rfl⟩
  induction h with
  | null => exact .null
  | bool b => exact .bool b
  | number h => exact .number h
  | string h => exact .string (hstring h)
  | emptyArray hb => exact .emptyArray hb
  | @array es hne hb _ ih =>
    have h := @Sentence.array .strict (es.map Element.padded) (by simpa using hne)
      (List.forall_mem_map.2 hb) (List.forall_mem_map.2 ih)
    simpa [Function.comp_def] using h
  | emptyObject hb => exact .emptyObject hb
  | @object ms hne hb hk _ ih =>
    have hblank : ∀ m ∈ ms, m.entry.key.Blank ∧ m.entry.value.Blank := fun m hm =>
      ⟨⟨(hb m hm).1, (hb m hm).2.1⟩, (hb m hm).2.2⟩
    have h := @Sentence.object .strict (ms.map Member.entry) (by simpa using hne)
      (List.forall_mem_map.2 hblank) (List.forall_mem_map.2 fun m hm => hstring (hk m hm))
      (List.forall_mem_map.2 ih)
    simpa [Function.comp_def] using h

/-- A character that begins a number begins nothing else. -/
theorem notMem_of_begins_number {c : Char} (h : c = '-' ∨ c.isDigit = true) :
    c ∉ (['\x7b', '[', ']', '"', 't', 'f', 'n', ' ', '\t', '\n', '\r'] : Text) := by
  intro hm
  simp only [List.mem_cons, List.not_mem_nil, or_false] at hm
  rcases hm with rfl | rfl | rfl | rfl | rfl | rfl | rfl | rfl | rfl | rfl | rfl <;> simp at h

/-- Whether a text begins with a character that is no blank and no bracket behind items. -/
def StartsItem (t : Text) : Prop :=
  ∃ c rest, t = c :: rest ∧ isBlank c = false ∧ c ≠ ']'

theorem Sentence.startsItem {t : Text} (h : Sentence .lenient t) : StartsItem t := by
  cases h with
  | number h =>
    obtain ⟨c, u, hu, hc⟩ := h.head_text
    have hother := notMem_of_begins_number hc
    simp only [List.mem_cons, List.not_mem_nil, or_false, not_or] at hother
    exact ⟨c, u, hu, by simp [isBlank, hother], hother.2.2.1⟩
  | string h =>
    obtain ⟨ps, -, rfl⟩ := h
    exact ⟨'"', _, rfl, by decide, by decide⟩
  | bool b => cases b <;> exact ⟨_, _, rfl, by decide, by decide⟩
  | _ => exact ⟨_, _, rfl, by decide, by decide⟩

theorem Spells.startsItem {j : Json} {t : Text} (h : Spells j t) : StartsItem t :=
  (h.sentence.mono Lexicon.strict_le_lenient).startsItem

/-! ## Values -/

/-- Whether a text is read as this value, wherever it stands, in as many steps as it has
    characters. -/
def Reads (v : Json) (t : Text) : Prop :=
  ∀ blanks rest, IsBlank blanks → Stops rest → ∀ fuel o, t.length ≤ fuel →
    ∃ o', readValue fuel ⟨blanks ++ (t ++ rest), o⟩ = .ok (v, ⟨rest, o'⟩)

theorem stops_cons {c : Char} {t : Text} (h : c.isDigit = false ∧ c ≠ '.' ∧ c ≠ 'e' ∧ c ≠ 'E') :
    Stops (c :: t) := by
  intro d hd
  rwa [← Option.some.inj hd]

/-- Blanks continue no number. -/
theorem stops_append {blanks t : Text} (hb : IsBlank blanks) (ht : Stops t) :
    Stops (blanks ++ t) := by
  cases blanks with
  | nil => exact ht
  | cons c blanks =>
    have : ∀ c ∈ ([' ', '\t', '\n', '\r'] : Text),
        c.isDigit = false ∧ c ≠ '.' ∧ c ≠ 'e' ∧ c ≠ 'E' := by decide
    exact stops_cons (this c (hb c (by simp)))

/-- Blanks in front of a value may have been skipped already. -/
theorem skipBlanks_skipBlanks (c : Cursor) : skipBlanks (skipBlanks c) = skipBlanks c := by
  have hnot := List.head?_dropWhile_not isBlank c.rest
  have ht : (c.rest.dropWhile isBlank).takeWhile isBlank = [] := by
    cases h : c.rest.dropWhile isBlank with
    | nil => rfl
    | cons d u =>
      rw [h] at hnot
      simp only [List.head?_cons] at hnot
      simp [hnot]
  simp [skipBlanks, Cursor.skip, List.dropWhile_idempotent, ht]

theorem expect_skipBlanks (ch : Char) (c : Cursor) : expect ch (skipBlanks c) = expect ch c := by
  simp only [expect, skipBlanks_skipBlanks]

theorem readItems_skipBlanks (fuel : Nat) (c : Cursor) :
    readItems fuel (skipBlanks c) = readItems fuel c := by
  cases fuel with
  | zero => rw [readItems, readItems]
  | succ fuel =>
    have hv : readValue fuel (skipBlanks c) = readValue fuel c := by
      cases fuel with
      | zero => rw [readValue, readValue]
      | succ fuel => rw [readValue, readValue, skipBlanks_skipBlanks]
    rw [readItems, readItems, hv]

theorem readEntries_skipBlanks (fuel : Nat) (c : Cursor) :
    readEntries fuel (skipBlanks c) = readEntries fuel c := by
  have hs : readString (skipBlanks c) = readString c := by
    simp only [readString, expect_skipBlanks]
  cases fuel with
  | zero => rw [readEntries, readEntries]
  | succ fuel => rw [readEntries, readEntries, hs]

/-- What stands between items, or behind the last one. -/
def IsSeparator (ch : Char) : Prop :=
  ch ∈ ([',', ']', '\x7d'] : Text)

theorem IsSeparator.stops {ch : Char} (h : IsSeparator ch) (u : Text) : Stops (ch :: u) := by
  have : ∀ c ∈ ([',', ']', '\x7d'] : Text),
      c.isDigit = false ∧ c ≠ '.' ∧ c ≠ 'e' ∧ c ≠ 'E' := by decide
  exact stops_cons (this ch h)

theorem IsSeparator.not_blank {ch : Char} (h : IsSeparator ch) : isBlank ch = false := by
  have : ∀ c ∈ ([',', ']', '\x7d'] : Text), isBlank c = false := by decide
  exact this ch h

/-- An item is read up to what separates it from the next one. -/
theorem readValue_element {e : Element} (hb : IsBlank e.before ∧ IsBlank e.after)
    (hv : Reads e.value e.text) {c : Char} (hc : IsSeparator c) (u : Text) {fuel : Nat}
    (hf : e.text.length ≤ fuel) (o : Nat) :
    ∃ d o', readValue fuel ⟨e.full ++ c :: u, o⟩ = .ok (e.value, d) ∧
      skipBlanks d = ⟨c :: u, o'⟩ := by
  obtain ⟨o₁, h₁⟩ :=
    hv e.before (e.after ++ c :: u) hb.1 (stops_append hb.2 (hc.stops u)) fuel o hf
  obtain ⟨o₂, h₂⟩ := skipBlanks_eq (u := c :: u) hb.2 (by simpa using hc.not_blank) o₁
  refine ⟨_, o₂, ?_, h₂⟩
  simpa [Element.full] using h₁

/-- The last item of an array. -/
theorem readItems_last {e : Element} (hb : IsBlank e.before ∧ IsBlank e.after)
    (hv : Reads e.value e.text) (rest : Text) {fuel : Nat} (hf : e.text.length ≤ fuel) (o : Nat) :
    ∃ o', readItems (fuel + 1) ⟨e.full ++ ']' :: rest, o⟩ = .ok ([e.value], ⟨rest, o'⟩) := by
  obtain ⟨d, o₁, h₁, h₂⟩ := readValue_element hb hv (c := ']') (by simp [IsSeparator]) rest hf o
  obtain ⟨o₂, h₃⟩ := expect_eq (u := rest) isBlank_nil (c := ']') (by decide) o₁
  refine ⟨o₂, ?_⟩
  simp only [readItems, h₁, h₂, Cursor.eat?, bind, Except.bind]
  simp at h₃
  simp [h₃]

/-- An item with others behind it. -/
theorem readItems_more {e : Element} (hb : IsBlank e.before ∧ IsBlank e.after)
    (hv : Reads e.value e.text) (u : Text) {fuel : Nat} (hf : e.text.length ≤ fuel) (o : Nat) :
    ∃ o', readItems (fuel + 1) ⟨e.full ++ ',' :: u, o⟩ =
      (readItems fuel ⟨u, o'⟩).map fun (items, d) => (e.value :: items, d) := by
  obtain ⟨d, o₁, h₁, h₂⟩ := readValue_element hb hv (c := ',') (by simp [IsSeparator]) u hf o
  refine ⟨o₁ + ','.utf8Size, ?_⟩
  simp only [readItems, h₁, h₂, Cursor.eat?, bind, Except.bind]
  simp [Except.map]

/-- Items are read up to the bracket behind them. -/
theorem readItems_reads {es : List Element} (hne : es ≠ [])
    (hb : ∀ e ∈ es, IsBlank e.before ∧ IsBlank e.after) (hv : ∀ e ∈ es, Reads e.value e.text)
    (rest : Text) : ∀ fuel o, (Text.join "," (es.map Element.full)).length < fuel →
      ∃ o', readItems fuel ⟨Text.join "," (es.map Element.full) ++ ']' :: rest, o⟩ =
        .ok (es.map (·.value), ⟨rest, o'⟩) := by
  induction es with
  | nil => exact absurd rfl hne
  | cons e es ih =>
    intro fuel o hf
    obtain ⟨fuel, rfl⟩ := Nat.exists_eq_add_one.2 (Nat.zero_lt_of_lt hf)
    have hlen : e.text.length ≤ e.full.length := by
      simp only [Element.full, List.length_append]
      omega
    rcases eq_or_ne es [] with rfl | hes
    · rw [List.map_singleton, Text.join] at hf ⊢
      exact readItems_last (hb e (by simp)) (hv e (by simp)) rest (by omega) o
    · have hjoin : Text.join "," (e.full :: es.map Element.full) =
          e.full ++ ',' :: Text.join "," (es.map Element.full) :=
        Text.join_cons_of_ne_nil ',' _ (by simpa using hes)
      rw [List.map_cons, hjoin] at hf ⊢
      rw [List.length_append, List.length_cons] at hf
      obtain ⟨o₁, h₁⟩ := readItems_more (hb e (by simp)) (hv e (by simp))
        (Text.join "," (es.map Element.full) ++ ']' :: rest) (show e.text.length ≤ fuel by omega) o
      obtain ⟨o₂, h₂⟩ := ih hes (fun f hf => hb f (by simp [hf])) (fun f hf => hv f (by simp [hf]))
        fuel o₁ (by omega)
      refine ⟨o₂, ?_⟩
      rw [List.append_assoc, List.cons_append, h₁, h₂]
      rfl

/-! ### Entries -/

/-- The key of an entry and the colon behind it. -/
theorem readEntries_key {m : Member} (hk : QuotedAs m.key m.text) (hb : IsBlank m.before)
    (ha : IsBlank m.after) (u : Text) (o : Nat) :
    ∃ d o', readString ⟨m.full ++ u, o⟩ = .ok (m.key, d) ∧
      expect ':' d = .ok ⟨m.element.full ++ u, o'⟩ := by
  obtain ⟨o₁, h₁⟩ := hk.readString hb (m.after ++ ':' :: (m.element.full ++ u)) o
  obtain ⟨o₂, h₂⟩ := expect_eq (u := m.element.full ++ u) (c := ':') ha (by decide) o₁
  refine ⟨_, o₂, ?_, h₂⟩
  simpa [Member.full] using h₁

/-- Whether the parts of an entry are blanks, a key and a value that is read. -/
structure Member.Reads (m : Member) : Prop where
  before : IsBlank m.before
  after : IsBlank m.after
  key : QuotedAs m.key m.text
  element : IsBlank m.element.before ∧ IsBlank m.element.after
  value : Json.Reads m.element.value m.element.text

/-- The last entry of an object. -/
theorem readEntries_last {m : Member} (h : m.Reads) (rest : Text) {fuel : Nat}
    (hf : m.element.text.length ≤ fuel) (o : Nat) :
    ∃ o', readEntries (fuel + 1) ⟨m.full ++ '\x7d' :: rest, o⟩ =
      .ok ([(m.key, m.element.value)], ⟨rest, o'⟩) := by
  obtain ⟨c, o₁, h₁, h₂⟩ := readEntries_key h.key h.before h.after ('\x7d' :: rest) o
  obtain ⟨d, o₂, h₃, h₄⟩ := readValue_element h.element h.value (c := '\x7d')
    (by simp [IsSeparator]) rest hf o₁
  obtain ⟨o₃, h₅⟩ := expect_eq (u := rest) isBlank_nil (c := '\x7d') (by decide) o₂
  refine ⟨o₃, ?_⟩
  rw [List.nil_append] at h₅
  simp [readEntries, h₁, h₂, h₃, h₄, h₅, Cursor.eat?, bind, Except.bind]

/-- An entry with others behind it. -/
theorem readEntries_more {m : Member} (h : m.Reads) (u : Text) {fuel : Nat}
    (hf : m.element.text.length ≤ fuel) (o : Nat) :
    ∃ o', readEntries (fuel + 1) ⟨m.full ++ ',' :: u, o⟩ =
      (readEntries fuel ⟨u, o'⟩).map fun (entries, d) =>
        ((m.key, m.element.value) :: entries, d) := by
  obtain ⟨c, o₁, h₁, h₂⟩ := readEntries_key h.key h.before h.after (',' :: u) o
  obtain ⟨d, o₂, h₃, h₄⟩ := readValue_element h.element h.value (c := ',')
    (by simp [IsSeparator]) u hf o₁
  refine ⟨o₂ + ','.utf8Size, ?_⟩
  simp [readEntries, h₁, h₂, h₃, h₄, Cursor.eat?, bind, Except.bind, Except.map]

/-- Entries are read up to the brace behind them. -/
theorem readEntries_reads {ms : List Member} (hne : ms ≠ []) (h : ∀ m ∈ ms, m.Reads)
    (rest : Text) : ∀ fuel o, (Text.join "," (ms.map Member.full)).length < fuel →
      ∃ o', readEntries fuel ⟨Text.join "," (ms.map Member.full) ++ '\x7d' :: rest, o⟩ =
        .ok (ms.map fun m => (m.key, m.element.value), ⟨rest, o'⟩) := by
  induction ms with
  | nil => exact absurd rfl hne
  | cons m ms ih =>
    intro fuel o hf
    obtain ⟨fuel, rfl⟩ := Nat.exists_eq_add_one.2 (Nat.zero_lt_of_lt hf)
    have hlen : m.element.text.length ≤ m.full.length := by
      simp only [Member.full, Element.full, List.length_append, List.length_cons]
      omega
    rcases eq_or_ne ms [] with rfl | hms
    · rw [List.map_singleton, Text.join] at hf ⊢
      exact readEntries_last (h m (by simp)) rest (by omega) o
    · have hjoin : Text.join "," (m.full :: ms.map Member.full) =
          m.full ++ ',' :: Text.join "," (ms.map Member.full) :=
        Text.join_cons_of_ne_nil ',' _ (by simpa using hms)
      rw [List.map_cons, hjoin] at hf ⊢
      rw [List.length_append, List.length_cons] at hf
      obtain ⟨o₁, h₁⟩ := readEntries_more (h m (by simp))
        (Text.join "," (ms.map Member.full) ++ '\x7d' :: rest)
        (show m.element.text.length ≤ fuel by omega) o
      obtain ⟨o₂, h₂⟩ := ih hms (fun n hn => h n (by simp [hn])) fuel o₁ (by omega)
      refine ⟨o₂, ?_⟩
      rw [List.append_assoc, List.cons_append, h₁, h₂]
      rfl

/-! ### Brackets -/

/-- What is left to show of a value once the blanks in front of it are gone. -/
theorem reads_of_head {v : Json} {t : Text} (hne : t ≠ []) (hh : ∀ c ∈ t.head?, isBlank c = false)
    (h : ∀ rest, Stops rest → ∀ fuel o, t.length ≤ fuel + 1 →
      ∃ o', readValue (fuel + 1) ⟨t ++ rest, o⟩ = .ok (v, ⟨rest, o'⟩)) : Reads v t := by
  intro blanks rest hb hr fuel o hf
  obtain ⟨c, t, rfl⟩ := List.exists_cons_of_ne_nil hne
  obtain ⟨fuel, rfl⟩ := Nat.exists_eq_add_one.2 (Nat.zero_lt_of_lt hf)
  obtain ⟨o₁, h₁⟩ := skipBlanks_eq (u := c :: t ++ rest) hb (by simpa using hh) o
  obtain ⟨o₂, h₂⟩ := h rest hr fuel o₁ hf
  refine ⟨o₂, ?_⟩
  rw [← h₂, readValue, readValue, h₁, ← h₁, skipBlanks_skipBlanks]

/-- What is read behind an opening bracket. -/
theorem readValue_bracket (fuel : Nat) (u : Text) (o : Nat) :
    readValue (fuel + 1) ⟨'[' :: u, o⟩ =
      match (skipBlanks ⟨u, o + 1⟩).eat? ']' with
      | some c => .ok (.array [], c)
      | none => (readItems fuel ⟨u, o + 1⟩).map fun (items, c) => (.array items, c) := by
  rw [← readItems_skipBlanks fuel ⟨u, o + 1⟩, readValue]
  rfl

/-- What is read behind an opening brace. -/
theorem readValue_brace (fuel : Nat) (u : Text) (o : Nat) :
    readValue (fuel + 1) ⟨'\x7b' :: u, o⟩ =
      match (skipBlanks ⟨u, o + 1⟩).eat? '\x7d' with
      | some c => .ok (.object [], c)
      | none => (readEntries fuel ⟨u, o + 1⟩).map fun (entries, c) => (.object entries, c) := by
  rw [← readEntries_skipBlanks fuel ⟨u, o + 1⟩, readValue]
  rfl

/-- Blanks and a bracket behind them. -/
theorem eat?_skipBlanks {blanks : Text} (hb : IsBlank blanks) {c : Char}
    (hc : isBlank c = false) (rest : Text) (o : Nat) :
    ∃ o', (skipBlanks ⟨blanks ++ c :: rest, o⟩).eat? c = some ⟨rest, o'⟩ := by
  obtain ⟨o₁, h₁⟩ := skipBlanks_eq (u := c :: rest) hb (by simpa using hc) o
  exact ⟨o₁ + c.utf8Size, by simp [h₁, Cursor.eat?]⟩

/-- Blanks and something else behind them. -/
theorem eat?_skipBlanks_of_ne {blanks t : Text} (hb : IsBlank blanks) {ch c : Char}
    (hc : isBlank c = false) (hne : c ≠ ch) (o : Nat) :
    (skipBlanks ⟨blanks ++ c :: t, o⟩).eat? ch = none := by
  obtain ⟨o₁, h₁⟩ := skipBlanks_eq (u := c :: t) hb (by simpa using hc) o
  simp [h₁, Cursor.eat?, hne]

theorem reads_emptyArray {blanks : Text} (hb : IsBlank blanks) :
    Reads (.array []) ('[' :: (blanks ++ [']'])) := by
  refine reads_of_head (by simp) (by simp [isBlank]) ?_
  intro rest hr fuel o hf
  obtain ⟨o₁, h₁⟩ := eat?_skipBlanks (c := ']') hb (by decide) rest (o + 1)
  refine ⟨o₁, ?_⟩
  rw [List.cons_append, List.append_assoc, List.singleton_append, readValue_bracket, h₁]

theorem reads_emptyObject {blanks : Text} (hb : IsBlank blanks) :
    Reads (.object []) ('\x7b' :: (blanks ++ ['\x7d'])) := by
  refine reads_of_head (by simp) (by simp [isBlank]) ?_
  intro rest hr fuel o hf
  obtain ⟨o₁, h₁⟩ := eat?_skipBlanks (c := '\x7d') hb (by decide) rest (o + 1)
  refine ⟨o₁, ?_⟩
  rw [List.cons_append, List.append_assoc, List.singleton_append, readValue_brace, h₁]

theorem reads_array {es : List Element} (hne : es ≠ [])
    (hb : ∀ e ∈ es, IsBlank e.before ∧ IsBlank e.after) (hs : ∀ e ∈ es, StartsItem e.text)
    (hv : ∀ e ∈ es, Reads e.value e.text) :
    Reads (.array (es.map (·.value))) ('[' :: (Text.join "," (es.map Element.full) ++ [']'])) := by
  refine reads_of_head (by simp) (by simp [isBlank]) ?_
  intro rest hr fuel o hf
  obtain ⟨o₁, h₁⟩ := readItems_reads hne hb hv rest fuel (o + 1) (by
    simp only [List.length_cons, List.length_append, List.length_nil] at hf
    omega)
  have hfirst : (skipBlanks ⟨Text.join "," (es.map Element.full) ++ ']' :: rest, o + 1⟩).eat? ']' =
      none := by
    obtain ⟨e, es, rfl⟩ := List.exists_cons_of_ne_nil hne
    obtain ⟨c, t, ht, hc, hcb⟩ := hs e (by simp)
    obtain ⟨u, hu⟩ : ∃ u, Text.join "," ((e :: es).map Element.full) = e.before ++ c :: u := by
      cases es with
      | nil => exact ⟨_, by simp [Text.join, Element.full, ht]; rfl⟩
      | cons f fs => exact ⟨_, by simp [Text.join, Element.full, ht]; rfl⟩
    rw [hu, List.append_assoc]
    exact eat?_skipBlanks_of_ne (hb e (by simp)).1 hc hcb (o + 1)
  refine ⟨o₁, ?_⟩
  rw [List.cons_append, List.append_assoc, List.singleton_append, readValue_bracket, hfirst, h₁]
  rfl

theorem reads_object {ms : List Member} (hne : ms ≠ []) (h : ∀ m ∈ ms, m.Reads) :
    Reads (.object (ms.map fun m => (m.key, m.element.value)))
      ('\x7b' :: (Text.join "," (ms.map Member.full) ++ ['\x7d'])) := by
  refine reads_of_head (by simp) (by simp [isBlank]) ?_
  intro rest hr fuel o hf
  obtain ⟨o₁, h₁⟩ := readEntries_reads hne h rest fuel (o + 1) (by
    simp only [List.length_cons, List.length_append, List.length_nil] at hf
    omega)
  have hfirst : (skipBlanks ⟨Text.join "," (ms.map Member.full) ++ '\x7d' :: rest, o + 1⟩).eat?
      '\x7d' = none := by
    obtain ⟨m, ms, rfl⟩ := List.exists_cons_of_ne_nil hne
    obtain ⟨body, ht⟩ := (h m (by simp)).key.head
    obtain ⟨u, hu⟩ : ∃ u, Text.join "," ((m :: ms).map Member.full) = m.before ++ '"' :: u := by
      cases ms with
      | nil => exact ⟨_, by simp [Text.join, Member.full, ht]; rfl⟩
      | cons n ns => exact ⟨_, by simp [Text.join, Member.full, ht]; rfl⟩
    rw [hu, List.append_assoc]
    exact eat?_skipBlanks_of_ne (h m (by simp)).before (by decide) (by decide) (o + 1)
  refine ⟨o₁, ?_⟩
  rw [List.cons_append, List.append_assoc, List.singleton_append, readValue_brace, hfirst, h₁]
  rfl

/-! ### Leaves -/

theorem reads_null : Reads .null "null" := by
  refine reads_of_head (by simp) (by simp [isBlank]) fun rest hr fuel o hf => ⟨o + 4, ?_⟩
  simp [readValue, skipBlanks, isBlank, Cursor.skip, readWord, Except.map, Cursor.drop,
    List.isPrefixOf]
  rfl

theorem reads_bool (b : Bool) : Reads (.bool b) (if b then "true" else "false" : String) := by
  refine reads_of_head (by cases b <;> simp) (by cases b <;> simp [isBlank])
    fun rest hr fuel o hf => ⟨o + if b then 4 else 5, ?_⟩
  cases b
  all_goals
    simp [readValue, skipBlanks, isBlank, Cursor.skip, readWord, Except.map, Cursor.drop,
      List.isPrefixOf]
    rfl

theorem reads_number {n : NumberSpelling} (h : n.Lenient) :
    Reads (.number n.decimal.toDouble) n.text := by
  obtain ⟨c, t, ht, hc⟩ := h.head_text
  have hother := notMem_of_begins_number hc
  simp only [List.mem_cons, List.not_mem_nil, or_false, not_or] at hother
  have hblank : isBlank c = false := by simp [isBlank, hother]
  refine reads_of_head (by simp [ht]) (by simp [ht, hblank]) ?_
  intro rest hr fuel o hf
  obtain ⟨o₁, h₁⟩ := readNumber_text h hr o
  refine ⟨o₁, ?_⟩
  rw [ht, List.cons_append] at h₁ ⊢
  simp [readValue, skipBlanks, Cursor.skip, hblank, hother, hc, h₁, Except.map]

theorem reads_string {content t : Text} (h : QuotedAs content t) : Reads (.string content) t := by
  obtain ⟨u, rfl⟩ := h.head
  refine reads_of_head (by simp) (by simp [isBlank]) ?_
  intro rest hr fuel o hf
  obtain ⟨o₁, h₁⟩ := h.readString isBlank_nil rest o
  refine ⟨o₁, ?_⟩
  rw [List.nil_append] at h₁
  rw [List.cons_append] at h₁ ⊢
  simp [readValue, skipBlanks, Cursor.skip, isBlank, bind, Except.bind, h₁]

/-- A value is read to its end. -/
theorem Spells.reads {j : Json} {t : Text} (h : Spells j t) : Reads j t := by
  induction h with
  | null => exact reads_null
  | bool b => exact reads_bool b
  | number h => exact reads_number h.lenient
  | string h => exact reads_string h.quotedAs
  | emptyArray hb => exact reads_emptyArray hb
  | array hne hb hv ih => exact reads_array hne hb (fun e he => (hv e he).startsItem) ih
  | emptyObject hb => exact reads_emptyObject hb
  | object hne hb hk hv ih =>
    exact reads_object hne fun m hm =>
      ⟨(hb m hm).1, (hb m hm).2.1, (hk m hm).quotedAs, (hb m hm).2.2, ih m hm⟩

/-- What is read as a value wherever it stands is read between blanks to the end. -/
theorem Reads.read_between {v : Json} {t before after : Text} (h : Reads v t)
    (hb : IsBlank before) (ha : IsBlank after) : read (before ++ (t ++ after)) = .ok v := by
  have hr : Stops after := by simpa using stops_append ha stops_nil
  obtain ⟨o, ho⟩ := h before after hb hr (2 * (before ++ (t ++ after)).length + 2) 0 (by
    simp only [List.length_append]
    omega)
  obtain ⟨o', ho'⟩ := skipBlanks_eq (u := []) ha (by simp) o
  rw [List.append_nil] at ho'
  simp only [read, Cursor.start, ho, ho', bind, Except.bind]
  rfl

/-- A text that spells a value is read as that value. -/
theorem read_spells {j : Json} {t : Text} (h : Spells j t) : read t = .ok j := by
  simpa using h.reads.read_between isBlank_nil isBlank_nil

/-! ## Documents -/

/-- A string of pieces is read as what they denote. -/
theorem read_pieces {ps : List Piece} (h : ∀ p ∈ ps, p.Lenient) :
    read (quoted ps) = .ok (.string (contents ps)) := by
  simpa using (reads_string ⟨ps, h, rfl, rfl⟩).read_between isBlank_nil isBlank_nil

/-- However a value is written, with blanks around it or without, it is read as that value; and
    what a number denotes is the double that its literal is read as. -/
theorem read_written {j : Json} {t before after : Text} (hb : IsBlank before) (ha : IsBlank after)
    (h : Spells j t) :
    read (before ++ (t ++ after)) = .ok j ∧
      ∀ v u, Spells (.number v) u → Double.ofText? u = some v := by
  refine ⟨h.reads.read_between hb ha, fun v u hu => ?_⟩
  cases hu with
  | number hn => exact hn.lenient.double_text

/-- Keys may come twice, codes in either case and in pairs, and blanks wherever they may stand. -/
theorem read_written_nested :
    let t : Text := "\x7b\"a\" : [ 1 , -2.5E+1 ,null] ,\"a\":\"\\u00A7\\ud83d\\ude00\\/x\" \x7d"
    let j : Json := .object [("a", .array [.number (.ofInt 1), .number (.ofInt (-25)), .null]),
      ("a", .string "§😀/x")]
    IsBlank "\n " ∧ IsBlank "\t" ∧ Spells j t ∧ read ("\n " ++ (t ++ "\t")) = .ok j := by
  intro t j
  have hb : ∀ u ∈ [("\n " : Text), "\t", " ", ""], IsBlank u := by unfold IsBlank; decide
  have hone : Spells (.number (.ofInt 1)) "1" := by
    rw [← Decimal.toDouble_whole]
    exact @Spells.number ⟨false, "1", none, none⟩
      ⟨⟨by decide, by decide⟩, by decide, by simp, by simp⟩
  have hother : Spells (.number (.ofInt (-25))) "-2.5E+1" := by
    rw [← Decimal.toDouble_whole]
    exact @Spells.number ⟨true, "2", some "5", some ('E', "+", "1")⟩
      ⟨⟨by decide, by decide⟩, by decide, by simp [NumberSpelling.IsDigits],
        by simp [NumberSpelling.IsDigits]⟩
  have hkey : SpellsString "a" "\"a\"" :=
    ⟨"a", .cons (.raw (by decide) (by decide) (by decide)) .nil, rfl⟩
  have hsign : SpellsChar '§' "\\u00A7" := by
    have h := @SpellsChar.code "00A7" rfl (by simp [IsHexDigit]) (by decide +kernel)
    rwa [show Char.ofNat (codeUnit "00A7") = '§' by decide +kernel] at h
  have hface : SpellsChar '😀' "\\ud83d\\ude00" := by
    have h := @SpellsChar.pair "d83d" "de00" rfl (by simp [IsHexDigit]) rfl (by simp [IsHexDigit])
      (by decide +kernel) (by decide +kernel)
    rwa [show Char.ofNat _ = '😀' by decide +kernel] at h
  have hstring : SpellsString "§😀/x" "\"\\u00A7\\ud83d\\ude00\\/x\"" :=
    ⟨"\\u00A7\\ud83d\\ude00\\/x", .cons hsign (.cons hface (.cons (.short (by decide))
      (.cons (.raw (by decide) (by decide) (by decide)) .nil))), rfl⟩
  have harray : Spells (.array [.number (.ofInt 1), .number (.ofInt (-25)), .null])
      "[ 1 , -2.5E+1 ,null]" := by
    refine @Spells.array [⟨" ", _, "1", " "⟩, ⟨" ", _, "-2.5E+1", " "⟩, ⟨"", _, "null", ""⟩]
      (by simp) ?_ ?_
    · simp [hb]
    · simpa using ⟨hone, hother, .null⟩
  have ht : Spells j t := by
    have h := @Spells.object [⟨"", "a", "\"a\"", " ", " ", _, "[ 1 , -2.5E+1 ,null]", " "⟩,
      ⟨"", "a", "\"a\"", "", "", _, "\"\\u00A7\\ud83d\\ude00\\/x\"", " "⟩] (by simp) (by simp [hb])
      (by simpa using hkey) (by simpa using ⟨harray, .string hstring⟩)
    exact h
  exact ⟨hb _ (by simp), hb _ (by simp), ht, (read_written (hb _ (by simp)) (hb _ (by simp)) ht).1⟩

end Json

end CrossEdition
