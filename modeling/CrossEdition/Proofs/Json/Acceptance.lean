import CrossEdition.Command
import CrossEdition.Proofs.Json.Reading

/-!
# What the reader accepts

The texts that are read are the documents over the lenient lexicon: the grammar of JSON, with
the spellings of numbers, codes and characters that the reader lets through. Each of its parts
is an induction: on the steps of the reader for what was read, and on the grammar for what will
be read.

Results:
* `sentences_of_reader`: what was read as a value is a sentence behind blanks, and so are the
  items and the values of entries.
* `Sentence.reads`: every sentence is read as some value.
* `read_ok_iff`, `validate_iff_document`: a text is read exactly if it is a lenient document, and
  a command passes exactly with such a message.
* `accepted_iff`: both, and what of it is JSON.
-/

namespace CrossEdition

namespace Json

/-! ## What was read -/

/-- Whether what stands between two cursors is blanks and a value. -/
def IsValue (c d : Cursor) : Prop :=
  ∃ before t, IsBlank before ∧ Sentence .lenient t ∧ c.rest = before ++ (t ++ d.rest)

/-- Whether what stands between two cursors is items and the bracket behind them. -/
def IsItems (c d : Cursor) : Prop :=
  ∃ es : List Padded, es ≠ [] ∧ (∀ e ∈ es, e.Blank) ∧ (∀ e ∈ es, Sentence .lenient e.text) ∧
    c.rest = Text.join "," (es.map Padded.full) ++ ']' :: d.rest

/-- Whether what stands between two cursors is entries and the brace behind them. -/
def IsEntries (c d : Cursor) : Prop :=
  ∃ es : List Entry, es ≠ [] ∧ (∀ e ∈ es, e.key.Blank ∧ e.value.Blank) ∧
    (∀ e ∈ es, Lexicon.lenient.IsString e.key.text) ∧
    (∀ e ∈ es, Sentence .lenient e.value.text) ∧
    c.rest = Text.join "," (es.map Entry.full) ++ '\x7d' :: d.rest

theorem rest_of_readWord {word : Text} {c d : Cursor} (h : readWord word c = .ok d) :
    c.rest = word ++ d.rest := by
  unfold readWord at h
  split_ifs at h with hp
  obtain ⟨u, hu⟩ := List.isPrefixOf_iff_prefix.1 hp
  rw [← Except.ok.inj h, ← hu]
  simp [Cursor.drop, ← hu]

/-- A value with the blanks in front of it and those behind it. -/
theorem IsValue.exists_padded {c d : Cursor} (h : IsValue c d) {after u : Text}
    (ha : IsBlank after) (hd : d.rest = after ++ u) :
    ∃ e : Padded, e.Blank ∧ Sentence .lenient e.text ∧ c.rest = e.full ++ u := by
  obtain ⟨before, t, hb, ht, hc⟩ := h
  exact ⟨⟨before, t, after⟩, ⟨hb, ha⟩, ht, by simp [hc, hd, Padded.full]⟩

/-- What is read behind an opening bracket. -/
theorem sentence_of_bracket {fuel : Nat}
    (hitems : ∀ {c d items}, readItems fuel c = .ok (items, d) → IsItems c d)
    {c d : Cursor} {v : Json}
    (h : (match (skipBlanks c).eat? ']' with
      | some c => .ok (.array [], c)
      | none => do
        let (items, c) ← readItems fuel (skipBlanks c)
        .ok (.array items, c) : Except Error (Json × Cursor)) = .ok (v, d)) :
    ∃ t, Sentence .lenient t ∧ '[' :: c.rest = t ++ d.rest := by
  split at h
  · next c₁ he =>
    obtain ⟨blanks, hb, hc⟩ := skipBlanks_append c
    obtain rfl := snd_eq_of_ok h
    exact ⟨_, .emptyArray hb, by simp [hc, Cursor.rest_of_eat? he]⟩
  · obtain ⟨⟨items, c₁⟩, hi, h⟩ := exists_of_bind_ok h
    obtain rfl := snd_eq_of_ok h
    rw [readItems_skipBlanks] at hi
    obtain ⟨es, hne, hb, hs, hc⟩ := hitems hi
    exact ⟨_, .array hne hb hs, by simp [hc]⟩

/-- What is read behind an opening brace. -/
theorem sentence_of_brace {fuel : Nat}
    (hentries : ∀ {c d entries}, readEntries fuel c = .ok (entries, d) → IsEntries c d)
    {c d : Cursor} {v : Json}
    (h : (match (skipBlanks c).eat? '\x7d' with
      | some c => .ok (.object [], c)
      | none => do
        let (entries, c) ← readEntries fuel (skipBlanks c)
        .ok (.object entries, c) : Except Error (Json × Cursor)) = .ok (v, d)) :
    ∃ t, Sentence .lenient t ∧ '\x7b' :: c.rest = t ++ d.rest := by
  split at h
  · next c₁ he =>
    obtain ⟨blanks, hb, hc⟩ := skipBlanks_append c
    obtain rfl := snd_eq_of_ok h
    exact ⟨_, .emptyObject hb, by simp [hc, Cursor.rest_of_eat? he]⟩
  · obtain ⟨⟨entries, c₁⟩, hi, h⟩ := exists_of_bind_ok h
    obtain rfl := snd_eq_of_ok h
    rw [readEntries_skipBlanks] at hi
    obtain ⟨es, hne, hb, hk, hs, hc⟩ := hentries hi
    exact ⟨_, .object hne hb hk hs, by simp [hc]⟩

/-- A value is read as a sentence if what is read inside brackets is. -/
theorem isValue_step {fuel : Nat}
    (hitems : ∀ {c d items}, readItems fuel c = .ok (items, d) → IsItems c d)
    (hentries : ∀ {c d entries}, readEntries fuel c = .ok (entries, d) → IsEntries c d)
    {c d : Cursor} {v : Json} (h : readValue (fuel + 1) c = .ok (v, d)) : IsValue c d := by
  obtain ⟨blanks, hb, hc⟩ := skipBlanks_append c
  suffices hs : ∃ t, Sentence .lenient t ∧ (skipBlanks c).rest = t ++ d.rest by
    obtain ⟨t, ht, hrest⟩ := hs
    exact ⟨blanks, t, hb, ht, by rw [hc, hrest]⟩
  rw [readValue] at h
  generalize skipBlanks c = c₁ at h ⊢
  obtain ⟨rest, o⟩ := c₁
  -- by the first character
  simp only at h
  split at h
  · simp at h
  · next u => exact sentence_of_brace hentries h
  · next u => exact sentence_of_bracket hitems h
  · next u =>
    obtain ⟨⟨t, c₂⟩, hr, h⟩ := exists_of_bind_ok h
    obtain rfl := snd_eq_of_ok h
    obtain ⟨blanks, w, hblanks, hw, hrest⟩ := isString_of_readString hr
    -- the quote is there already
    cases blanks with
    | nil => exact ⟨w, .string hw, hrest⟩
    | cons b blanks =>
      have hquote := hblanks b (by simp)
      rw [← (List.cons.inj hrest).1] at hquote
      exact absurd hquote (by decide)
  · obtain ⟨c₂, hw, h⟩ := exists_of_map_ok h
    simp only [Prod.mk.injEq] at h
    obtain ⟨-, rfl⟩ := h
    exact ⟨_, .bool true, rest_of_readWord hw⟩
  · obtain ⟨c₂, hw, h⟩ := exists_of_map_ok h
    simp only [Prod.mk.injEq] at h
    obtain ⟨-, rfl⟩ := h
    exact ⟨_, .bool false, rest_of_readWord hw⟩
  · obtain ⟨c₂, hw, h⟩ := exists_of_map_ok h
    simp only [Prod.mk.injEq] at h
    obtain ⟨-, rfl⟩ := h
    exact ⟨_, .null, rest_of_readWord hw⟩
  · next ch u _ _ _ _ _ _ =>
    split_ifs at h with hch
    obtain ⟨⟨n, c₂⟩, hn, h⟩ := exists_of_map_ok h
    simp only [Prod.mk.injEq] at h
    obtain ⟨-, rfl⟩ := h
    obtain ⟨n, hlenient, hrest⟩ := lenient_of_readNumber (by simpa using hch) hn
    exact ⟨_, .number hlenient, hrest⟩

/-- Items are read as sentences if each of them is. -/
theorem isItems_step {fuel : Nat}
    (hvalue : ∀ {c d v}, readValue fuel c = .ok (v, d) → IsValue c d)
    (hitems : ∀ {c d items}, readItems fuel c = .ok (items, d) → IsItems c d)
    {c d : Cursor} {items : List Json} (h : readItems (fuel + 1) c = .ok (items, d)) :
    IsItems c d := by
  rw [readItems] at h
  obtain ⟨⟨item, c₁⟩, hv, h⟩ := exists_of_bind_ok h
  simp only at h
  split at h
  · next c₂ hcomma =>
    obtain ⟨⟨more, c₃⟩, hmore, h⟩ := exists_of_bind_ok h
    obtain rfl := snd_eq_of_ok h
    obtain ⟨after, ha, hc₁⟩ := skipBlanks_append c₁
    rw [Cursor.rest_of_eat? hcomma] at hc₁
    obtain ⟨e, heb, hes, hc⟩ := (hvalue hv).exists_padded ha hc₁
    obtain ⟨es, hne, hb, hs, hc₂⟩ := hitems hmore
    refine ⟨e :: es, by simp, List.forall_mem_cons.2 ⟨heb, hb⟩, List.forall_mem_cons.2 ⟨hes, hs⟩,
      ?_⟩
    have hjoin : Text.join "," (e.full :: es.map Padded.full) =
        e.full ++ ',' :: Text.join "," (es.map Padded.full) :=
      Text.join_cons_of_ne_nil ',' _ (by simpa using hne)
    rw [List.map_cons, hjoin, hc, hc₂]
    simp
  · obtain ⟨c₂, he, h⟩ := exists_of_bind_ok h
    obtain rfl := snd_eq_of_ok h
    rw [expect_skipBlanks] at he
    obtain ⟨after, ha, hc₁⟩ := rest_of_expect he
    obtain ⟨e, heb, hes, hc⟩ := (hvalue hv).exists_padded ha hc₁
    exact ⟨[e], by simp, by simpa using heb, by simpa using hes, by simpa [Text.join] using hc⟩

/-- A key and the colon behind it. -/
theorem exists_key {c c₁ c₂ : Cursor} {key : Text} (hk : readString c = .ok (key, c₁))
    (he : expect ':' c₁ = .ok c₂) :
    ∃ e : Padded, e.Blank ∧ Lexicon.lenient.IsString e.text ∧
      c.rest = e.full ++ ':' :: c₂.rest := by
  obtain ⟨before, u, hb, hu, hc⟩ := isString_of_readString hk
  obtain ⟨after, ha, hc₁⟩ := rest_of_expect he
  exact ⟨⟨before, u, after⟩, ⟨hb, ha⟩, hu, by simp [hc, hc₁, Padded.full]⟩

/-- Entries are read as keys and sentences if each of their values is. -/
theorem isEntries_step {fuel : Nat}
    (hvalue : ∀ {c d v}, readValue fuel c = .ok (v, d) → IsValue c d)
    (hentries : ∀ {c d entries}, readEntries fuel c = .ok (entries, d) → IsEntries c d)
    {c d : Cursor} {entries : List (Text × Json)}
    (h : readEntries (fuel + 1) c = .ok (entries, d)) : IsEntries c d := by
  rw [readEntries] at h
  obtain ⟨⟨key, c₁⟩, hk, h⟩ := exists_of_bind_ok h
  obtain ⟨c₂, hcolon, h⟩ := exists_of_bind_ok h
  obtain ⟨⟨v, c₃⟩, hv, h⟩ := exists_of_bind_ok h
  obtain ⟨k, hkb, hks, hc⟩ := exists_key hk hcolon
  simp only at h
  split at h
  · next c₄ hcomma =>
    obtain ⟨⟨more, c₅⟩, hmore, h⟩ := exists_of_bind_ok h
    obtain rfl := snd_eq_of_ok h
    obtain ⟨after, ha, hc₃⟩ := skipBlanks_append c₃
    rw [Cursor.rest_of_eat? hcomma] at hc₃
    obtain ⟨e, heb, hes, hc₂⟩ := (hvalue hv).exists_padded ha hc₃
    obtain ⟨es, hne, hb, hks', hs, hc₄⟩ := hentries hmore
    refine ⟨⟨k, e⟩ :: es, by simp, List.forall_mem_cons.2 ⟨⟨hkb, heb⟩, hb⟩,
      List.forall_mem_cons.2 ⟨hks, hks'⟩, List.forall_mem_cons.2 ⟨hes, hs⟩, ?_⟩
    have hjoin : Text.join "," (Entry.full ⟨k, e⟩ :: es.map Entry.full) =
        Entry.full ⟨k, e⟩ ++ ',' :: Text.join "," (es.map Entry.full) :=
      Text.join_cons_of_ne_nil ',' _ (by simpa using hne)
    rw [List.map_cons, hjoin, hc, hc₂, hc₄]
    simp [Entry.full]
  · obtain ⟨c₄, he, h⟩ := exists_of_bind_ok h
    obtain rfl := snd_eq_of_ok h
    rw [expect_skipBlanks] at he
    obtain ⟨after, ha, hc₃⟩ := rest_of_expect he
    obtain ⟨e, heb, hes, hc₂⟩ := (hvalue hv).exists_padded ha hc₃
    refine ⟨[⟨k, e⟩], by simp, by simpa using ⟨hkb, heb⟩, by simpa using hks,
      by simpa using hes, ?_⟩
    rw [hc, hc₂]
    simp [Text.join, Entry.full]

/-- Whatever is read is a sentence, along the steps of the reader. -/
theorem sentences_of_reader (fuel : Nat) :
    (∀ {c d v}, readValue fuel c = .ok (v, d) → IsValue c d) ∧
      (∀ {c d items}, readItems fuel c = .ok (items, d) → IsItems c d) ∧
      ∀ {c d entries}, readEntries fuel c = .ok (entries, d) → IsEntries c d := by
  induction fuel with
  | zero => simp [readValue, readItems, readEntries]
  | succ fuel ih =>
    obtain ⟨hvalue, hitems, hentries⟩ := ih
    exact ⟨isValue_step hitems hentries, isItems_step hvalue hitems,
      isEntries_step hvalue hentries⟩

/-! ## What will be read -/

/-- Every sentence is read as some value. -/
theorem Sentence.reads {t : Text} (h : Sentence .lenient t) : ∃ v, Reads v t := by
  have : Nonempty Json := ⟨.null⟩
  induction h with
  | null => exact ⟨_, reads_null⟩
  | bool b => exact ⟨_, reads_bool b⟩
  | number h => exact ⟨_, reads_number h⟩
  | string h =>
    obtain ⟨ps, hps, rfl⟩ := h
    exact ⟨_, reads_string ⟨ps, hps, rfl, rfl⟩⟩
  | emptyArray hb => exact ⟨_, reads_emptyArray hb⟩
  | @array es hne hb hs ih =>
    choose! value hvalue using ih
    have hblank : ∀ e ∈ es, IsBlank (e.element (value e)).before ∧
      IsBlank (e.element (value e)).after := hb
    have h := @reads_array (es.map fun e => e.element (value e)) (by simpa using hne)
      (List.forall_mem_map.2 hblank) (List.forall_mem_map.2 fun e he => (hs e he).startsItem)
      (List.forall_mem_map.2 hvalue)
    exact ⟨_, by simpa [Function.comp_def] using h⟩
  | emptyObject hb => exact ⟨_, reads_emptyObject hb⟩
  | @object es hne hb hk hs ih =>
    choose! value hvalue using ih
    choose! pieces hpieces using hk
    have hreads : ∀ e ∈ es, (e.member (contents (pieces e)) (value e)).Reads := fun e he =>
      ⟨(hb e he).1.1, (hb e he).1.2, ⟨_, (hpieces e he).1, rfl, (hpieces e he).2⟩,
        (hb e he).2, hvalue e he⟩
    have h := @reads_object (es.map fun e => e.member (contents (pieces e)) (value e))
      (by simpa using hne) (List.forall_mem_map.2 hreads)
    exact ⟨_, by simpa [Function.comp_def] using h⟩

/-! ## Documents -/

/-- A text is read exactly if it is a lenient document. -/
theorem read_ok_iff {t : Text} : (∃ v, read t = .ok v) ↔ Document .lenient t := by
  constructor
  · rintro ⟨v, h⟩
    obtain ⟨⟨v', d⟩, hv, h⟩ := exists_of_bind_ok h
    simp only at h
    split_ifs at h with hd
    obtain ⟨after, ha, hrest⟩ := skipBlanks_append d
    rw [hd] at hrest
    obtain ⟨e, hb, hs, ht⟩ := ((sentences_of_reader _).1 hv).exists_padded ha hrest
    exact ⟨e, hb, hs, by simpa [Cursor.start] using ht⟩
  · rintro ⟨e, hb, hs, rfl⟩
    obtain ⟨v, hv⟩ := hs.reads
    exact ⟨v, hv.read_between hb.1 hb.2⟩

/-- A command passes if its parts are there and its message is a lenient document. -/
theorem validate_iff_document {command : Text} :
    Command.validate command = .ok () ↔
      ∃ rest, Text.after? "tellraw " (Text.trim command) = some rest ∧
        Command.isJavaSelector (Command.parts rest).1 = true ∧
        Document .lenient (Command.parts rest).2 := by
  cases hafter : Text.after? "tellraw " (Text.trim command) with
  | none =>
    simp only [Command.validate, hafter]
    simp
  | some rest =>
    rw [Command.validate_ok_iff hafter, read_ok_iff]
    constructor
    · rintro ⟨-, hs, hd⟩
      exact ⟨rest, rfl, hs, hd⟩
    · rintro ⟨_, heq, hs, hd⟩
      obtain rfl := Option.some.inj heq
      refine ⟨?_, hs, hd⟩
      obtain ⟨p, -, hp, ht⟩ := hd
      obtain ⟨c, u, hu, -⟩ := hp.startsItem
      rw [ht, Padded.full, hu]
      simp

/-- The texts that are read are the lenient documents, and commands pass with these for a message
    and with no others. The documents of JSON are among them; the others have a number without
    digits on one side of its point or with zeros in front, a control character in a string, or
    a code with a plus sign. -/
theorem accepted_iff (t command : Text) :
    ((∃ v, read t = .ok v) ↔ Document .lenient t) ∧
      (Command.validate command = .ok () ↔
        ∃ rest, Text.after? "tellraw " (Text.trim command) = some rest ∧
          Command.isJavaSelector (Command.parts rest).1 = true ∧
          Document .lenient (Command.parts rest).2) ∧
      (Document .strict t → Document .lenient t) ∧
      (∀ n, Lexicon.strict.number n ↔ Lexicon.lenient.number n ∧ n.whole ≠ [] ∧
        n.part ≠ some [] ∧ (n.whole.head? = some '0' → n.whole = ['0'])) ∧
      ∀ p, Lexicon.strict.piece p ↔ Lexicon.lenient.piece p ∧
        (∀ c, p = .raw c → 0x20 ≤ c.toNat) ∧ ∀ digits, p = .code digits → '+' ∉ digits :=
  ⟨read_ok_iff, validate_iff_document, Document.mono Lexicon.strict_le_lenient,
    fun _ => NumberSpelling.valid_iff, fun _ => Piece.valid_iff⟩

/-- A quote opens a string and nothing else. -/
theorem isString_of_sentence {u : Text} (h : Sentence .strict ('"' :: u)) :
    Lexicon.strict.IsString ('"' :: u) := by
  generalize ht : '"' :: u = t at h
  cases h with
  | string h => exact h
  | number h =>
    obtain ⟨c, w, hw, hc⟩ := (NumberSpelling.Valid.lenient h).head_text
    rw [hw] at ht
    rw [← (List.cons.inj ht).1] at hc
    simp at hc
  | bool b => cases b <;> simp at ht
  | _ => simp at ht

/-- A sign in front of a code is no JSON. -/
theorem not_document_of_signed_code (u : Text) :
    ¬ Document .strict ('"' :: '\\' :: 'u' :: '+' :: u) := by
  rintro ⟨⟨before, t, after⟩, hb, hs, ht⟩
  obtain ⟨c, w, rfl, -⟩ := (hs.mono Lexicon.strict_le_lenient).startsItem
  cases before with
  | cons b before =>
    have hquote := hb.1 b (by simp)
    rw [← (List.cons.inj ht).1] at hquote
    exact absurd hquote (by decide)
  | nil =>
    obtain ⟨rfl, ht⟩ := List.cons.inj ht
    obtain ⟨ps, hps, hw⟩ := isString_of_sentence hs
    have hclosing : closing ps after = '\\' :: 'u' :: '+' :: u := by
      have := quoted_append ps after
      rw [← hw] at this
      exact (List.cons.inj this).2.symm.trans ht.symm
    cases ps with
    | nil => simp [closing] at hclosing
    | cons p ps =>
      have hp := hps p (by simp)
      rw [closing_cons] at hclosing
      cases p with
      | raw c => exact hp.2.2 (List.cons.inj hclosing).1
      | short letter c =>
        refine (mem_shortEscapes_iff.1 hp).1 ?_
        exact (List.cons.inj (List.cons.inj hclosing).2).1
      | code digits =>
        obtain ⟨d, digits, rfl⟩ := List.exists_cons_of_length_eq_add_one hp.1
        refine (hp.2 d (by simp)).ne_plus ?_
        exact (List.cons.inj (List.cons.inj (List.cons.inj hclosing).2).2).1

/-- A sign may stand for the first digit of a code, and a command passes with it. -/
theorem accepted_signed_code :
    let payload : Text := "\"\\u+041\""
    (∃ v, read payload = .ok v) ∧ Command.validate ("tellraw @a " ++ payload) = .ok () ∧
      ¬ Document .strict payload := by
  intro payload
  have hdoc : Document .lenient payload := by
    refine ⟨⟨[], payload, []⟩, ⟨isBlank_nil, isBlank_nil⟩, .string ⟨[.code "+041"], ?_, rfl⟩, rfl⟩
    simp only [List.mem_singleton, forall_eq]
    exact .inr ⟨"041", rfl, rfl, by simp [IsHexDigit]⟩
  have hparts : Command.parts ("@a " ++ payload) = (("@a" : Text), payload) := by decide +kernel
  refine ⟨read_ok_iff.2 hdoc, validate_iff_document.2 ⟨"@a " ++ payload, by decide +kernel, ?_, ?_⟩,
    not_document_of_signed_code _⟩
  · rw [hparts]
    decide
  · rw [hparts]
    exact hdoc

end Json

end CrossEdition
