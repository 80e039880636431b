import CrossEdition.Proofs.Json.ByteNumbers

/-!
# The reader stays between characters

On the bytes of a text the reader of bytes goes the way of the reader of texts, value by value, and
so it never stands inside a character or behind the end. That a string or a number is no text is
said of other bytes only.

Results:
* `AgreeWith`, `agreeWith`: the readers of values, items and entries agree, by induction on the
  fuel; each character is worth two steps.
* `agrees_readAll`: so do the readers of whole inputs.
* `readBytes_on_boundaries`: all positions are between characters, and two errors are never met.
-/

namespace CrossEdition

namespace Json

open ByteReader (get_ok)

/-! ## How far a reader of texts comes -/

section Length

variable {c d : Cursor}

theorem length_skipBlanks_le (c : Cursor) : (skipBlanks c).rest.length ≤ c.rest.length :=
  c.length_skip_le isBlank

theorem length_of_expect {ch : Char} (h : expect ch c = .ok d) :
    d.rest.length < c.rest.length := by
  obtain ⟨blanks, -, hc⟩ := rest_of_expect h
  rw [hc, List.length_append, List.length_cons]
  omega

theorem length_of_readString {u : Text} (h : readString c = .ok (u, d)) :
    d.rest.length ≤ c.rest.length := by
  obtain ⟨blanks, w, -, -, hc⟩ := isString_of_readString h
  rw [hc, List.length_append, List.length_append]
  omega

theorem length_of_readValue {fuel : Nat} {v : Json} (h : readValue fuel c = .ok (v, d)) :
    d.rest.length ≤ c.rest.length := by
  obtain ⟨before, u, -, -, hc⟩ := (sentences_of_reader fuel).1 h
  rw [hc, List.length_append, List.length_append]
  omega

/-- What is left behind a value and the comma that follows it. -/
theorem length_of_comma {fuel : Nat} {v : Json} {e : Cursor} (h : readValue fuel c = .ok (v, d))
    (he : (skipBlanks d).eat? ',' = some e) : e.rest.length < c.rest.length :=
  Nat.lt_of_lt_of_le (Cursor.length_of_eat? he)
    (Nat.le_trans (length_skipBlanks_le d) (length_of_readValue h))

end Length

/-! ## Values -/

variable {t : Text} {s : Path} {c : Cursor}

/-- Whether the readers of values agree with so much fuel, and those of items and of entries. -/
structure AgreeWith (t : Text) (fuel : Nat) : Prop where
  value : ∀ {fuel' s c}, Stands t s c → 2 * c.rest.length < fuel → 2 * c.rest.length < fuel' →
    Agrees t (ByteReader.readValue t.utf8 fuel s) (readValue fuel' c)
  items : ∀ {fuel' s c}, Stands t s c → 2 * c.rest.length + 1 < fuel →
    2 * c.rest.length + 1 < fuel' →
    Agrees t (ByteReader.readItems t.utf8 fuel s) (readItems fuel' c)
  entries : ∀ {fuel' s c}, Stands t s c → 2 * c.rest.length + 1 < fuel →
    2 * c.rest.length + 1 < fuel' →
    Agrees t (ByteReader.readEntries t.utf8 fuel s) (readEntries fuel' c)

/-- What stands between brackets, or nothing. -/
theorem Stands.brackets {α β : Type} (h : Stands t s c) {d close : Char} {rest : Text}
    (hc : c.rest = d :: rest) (hd : d.toNat < 0x80) (hclose : close.toNat < 0x80)
    {x : ByteReader α} {y : Cursor → Except Error (α × Cursor)} (empty : β) (f : α → β)
    (hxy : ∀ s₁ c₁, Stands t s₁ c₁ → c₁.rest.length ≤ rest.length → Agrees t (x s₁) (y c₁)) :
    Agrees t
      ((do
        ByteReader.advance 1
        ByteReader.skipBlanks t.utf8
        if ← ByteReader.eat t.utf8 (· = close) then return empty
        else do
          let a ← x
          return f a : ByteReader β) s)
      (match (Json.skipBlanks (c.drop 1)).eat? close with
        | some c => .ok (empty, c)
        | none => do
          let (a, c) ← y (Json.skipBlanks (c.drop 1))
          .ok (f a, c)) := by
  obtain ⟨s₁, hrun, h₁⟩ := h.advance_ok hc hd
  obtain ⟨s₂, hrun', h₂⟩ := h₁.skipBlanks
  rw [bind_of_ok hrun, bind_of_ok hrun']
  cases he : (Json.skipBlanks (c.drop 1)).eat? close with
  | some c₃ =>
    obtain ⟨s₃, hrun, h₃⟩ := h₂.eat?_some hclose he
    rw [bind_of_ok hrun]
    exact h₃.agrees empty
  | none =>
    have hle : (Json.skipBlanks (c.drop 1)).rest.length ≤ rest.length := by
      have hdrop : (c.drop 1).rest = rest := by simp [Cursor.drop, hc]
      exact hdrop ▸ length_skipBlanks_le (c.drop 1)
    rw [bind_of_ok (h₂.eat?_none hclose he), if_neg Bool.false_ne_true]
    exact (hxy s₂ _ h₂ hle).bind fun a s₃ c₃ _ h₃ => h₃.agrees _

/-- What stands behind a part of a row: a comma and more of them, or the end of the row. -/
theorem Stands.row {α : Type} (h : Stands t s c) (a : α) {close : Char}
    (hclose : close.toNat < 0x80) {x : ByteReader (List α)}
    {y : Cursor → Except Error (List α × Cursor)}
    (hxy : ∀ s₁ c₁, Stands t s₁ c₁ → (Json.skipBlanks c).eat? ',' = some c₁ →
      Agrees t (x s₁) (y c₁)) :
    Agrees t
      ((do
        ByteReader.skipBlanks t.utf8
        if ← ByteReader.eat t.utf8 (· = ',') then do
          let as ← x
          return a :: as
        else do
          ByteReader.expect t.utf8 close
          return [a] : ByteReader (List α)) s)
      (match (Json.skipBlanks c).eat? ',' with
        | some c => do
          let (as, c) ← y c
          .ok (a :: as, c)
        | none => do
          let c ← Json.expect close (Json.skipBlanks c)
          .ok ([a], c)) := by
  obtain ⟨s₁, hrun, h₁⟩ := h.skipBlanks
  rw [bind_of_ok hrun]
  cases he : (Json.skipBlanks c).eat? ',' with
  | some c₂ =>
    obtain ⟨s₂, hrun, h₂⟩ := h₁.eat?_some (by decide) he
    rw [bind_of_ok hrun]
    exact (hxy s₂ c₂ h₂ he).bind fun as s₃ c₃ _ h₃ => h₃.agrees _
  | none =>
    rw [bind_of_ok (h₁.eat?_none (by decide) he), if_neg Bool.false_ne_true]
    exact (h₁.expect hclose).next fun s₂ c₂ _ h₂ => h₂.agrees _

namespace AgreeWith

variable {fuel fuel' : Nat}

theorem readItems (ha : AgreeWith t fuel) (h : Stands t s c) (hf : 2 * c.rest.length < fuel)
    (hf' : 2 * c.rest.length < fuel') :
    Agrees t (ByteReader.readItems t.utf8 (fuel + 1) s) (Json.readItems (fuel' + 1) c) := by
  rw [ByteReader.readItems, Json.readItems]
  refine (ha.value h hf hf').bind fun v s₁ c₁ hv h₁ => ?_
  refine h₁.row v (show ']'.toNat < 0x80 by decide) fun s₂ c₂ h₂ he => ?_
  have hlt := length_of_comma hv he
  exact ha.items h₂ (by omega) (by omega)

theorem readEntries (ha : AgreeWith t fuel) (h : Stands t s c) (hf : 2 * c.rest.length < fuel)
    (hf' : 2 * c.rest.length < fuel') :
    Agrees t (ByteReader.readEntries t.utf8 (fuel + 1) s) (Json.readEntries (fuel' + 1) c) := by
  rw [ByteReader.readEntries, Json.readEntries]
  refine h.readString.bind fun key s₁ c₁ hk h₁ => ?_
  refine (h₁.expect (by decide)).next fun s₂ c₂ hc h₂ => ?_
  have hlt : c₂.rest.length < c.rest.length :=
    Nat.lt_of_lt_of_le (length_of_expect hc) (length_of_readString hk)
  refine (ha.value h₂ (by omega) (by omega)).bind fun v s₃ c₃ hv h₃ => ?_
  refine h₃.row (key, v) (show '\x7d'.toNat < 0x80 by decide) fun s₄ c₄ h₄ he => ?_
  have hlt' := length_of_comma hv he
  exact ha.entries h₄ (by omega) (by omega)

theorem readValue (ha : AgreeWith t fuel) (h : Stands t s c) (hf : 2 * c.rest.length < fuel + 1)
    (hf' : 2 * c.rest.length < fuel' + 1) :
    Agrees t (ByteReader.readValue t.utf8 (fuel + 1) s) (Json.readValue (fuel' + 1) c) := by
  obtain ⟨s₁, hrun, h₁⟩ := h.skipBlanks
  have hle := length_skipBlanks_le c
  rw [ByteReader.readValue, bind_of_ok hrun, bind_of_ok h₁.look_ok, Json.readValue]
  generalize skipBlanks c = c₁ at *
  simp only
  cases hrest : c₁.rest with
  | nil => exact h₁.fail (by simp)
  | cons d rest =>
    rw [hrest, List.length_cons] at hle
    have hfirst : ∀ {e : Char}, e.toNat < 0x80 → d = e → firstByte d = e := fun he =>
      (firstByte_eq_iff he).2
    rw [List.head?_cons, Option.map_some]
    by_cases hbrace : d = '\x7b'
    · rw [hfirst (by decide) hbrace, hbrace]
      exact h₁.brackets hrest (by rw [hbrace]; decide) (show '\x7d'.toNat < 0x80 by decide)
        (object []) object fun s₂ c₂ h₂ hle₂ => ha.entries h₂ (by omega) (by omega)
    by_cases hbracket : d = '['
    · rw [hfirst (by decide) hbracket, hbracket]
      exact h₁.brackets hrest (by rw [hbracket]; decide) (show ']'.toNat < 0x80 by decide)
        (array []) array fun s₂ c₂ h₂ hle₂ => ha.items h₂ (by omega) (by omega)
    by_cases hquote : d = '"'
    · rw [hfirst (by decide) hquote, hquote]
      exact h₁.readString.bind fun u s₂ c₂ _ h₂ => h₂.agrees _
    by_cases htrue : d = 't'
    · rw [hfirst (by decide) htrue, htrue]
      exact h₁.word _ _
    by_cases hfalse : d = 'f'
    · rw [hfirst (by decide) hfalse, hfalse]
      exact h₁.word _ _
    by_cases hnull : d = 'n'
    · rw [hfirst (by decide) hnull, hnull]
      exact h₁.word _ _
    -- the first byte of any other character is another byte, too
    obtain ⟨_, _, _, _, _, _⟩ : firstByte d ≠ '\x7b' ∧ firstByte d ≠ '[' ∧ firstByte d ≠ '"' ∧
        firstByte d ≠ 't' ∧ firstByte d ≠ 'f' ∧ firstByte d ≠ 'n' := by
      simp (disch := decide) only [ne_eq, firstByte_eq_iff]
      exact ⟨hbrace, hbracket, hquote, htrue, hfalse, hnull⟩
    have hnumber : firstByte d = '-' ∨ (firstByte d).isDigit = true ↔
        d = '-' ∨ d.isDigit = true := by
      rw [firstByte_eq_iff (by decide), ofBytes_isDigit.firstByte]
    simp only [hnumber]
    split_ifs
    · exact h₁.readNumber.map _
    · rw [bind_of_ok (get_ok s₁), h₁.position]
      exact h₁.fail (by simp)

end AgreeWith

theorem agreeWith (t : Text) (fuel : Nat) : AgreeWith t fuel := by
  induction fuel with
  | zero =>
    exact ⟨fun _ hf _ => absurd hf (Nat.not_lt_zero _), fun _ hf _ => absurd hf (Nat.not_lt_zero _),
      fun _ hf _ => absurd hf (Nat.not_lt_zero _)⟩
  | succ fuel ih =>
    refine ⟨fun {fuel' s c} h hf hf' => ?_, fun {fuel' s c} h hf hf' => ?_,
      fun {fuel' s c} h hf hf' => ?_⟩
    all_goals obtain ⟨fuel', rfl⟩ := Nat.exists_eq_add_one.2 (Nat.zero_lt_of_lt hf')
    · exact ih.readValue h hf hf'
    · exact ih.readItems h (by omega) (by omega)
    · exact ih.readEntries h (by omega) (by omega)

/-! ## Whole inputs -/

theorem agrees_readAll (t : Text) :
    Agrees t (ByteReader.readAll t.utf8 .start) ((read t).map fun v => (v, ⟨[], t.byteLength⟩)) := by
  have hlen := Text.length_le_byteLength t
  have hvalue := (agreeWith t (2 * t.utf8.length + 2)).value (Stands.start t)
    (by simp only [Cursor.start, Text.length_utf8]; omega)
    (show 2 * t.length < 2 * t.length + 2 by omega)
  have hread : (read t).map (fun v => (v, (⟨[], t.byteLength⟩ : Cursor))) =
      readValue (2 * t.length + 2) (.start t) >>= fun p =>
        let c := skipBlanks p.2
        (if c.rest = [] then .ok p.1 else .error (.trailingContent c.offset) :
          Except Error Json).map fun v => (v, ⟨[], t.byteLength⟩) := by
    rw [read]
    cases readValue (2 * t.length + 2) (.start t) <;> rfl
  rw [hread, ByteReader.readAll]
  refine hvalue.bind fun v s₁ c₁ _ h₁ => ?_
  obtain ⟨s₂, hrun, h₂⟩ := h₁.skipBlanks
  have hend := h₂.on.byteLength_eq
  rw [bind_of_ok hrun, bind_of_ok (get_ok s₂)]
  generalize skipBlanks c₁ = c₂ at *
  obtain ⟨rest, o⟩ := c₂
  simp only [h₂.position, Text.length_utf8] at hend ⊢
  by_cases hrest : rest = []
  · rw [hrest, Text.byteLength_nil, Nat.add_zero] at hend
    rw [if_pos hrest, if_neg (by omega), hend]
    exact (hrest ▸ h₂).agrees v
  · have hpos := mt Text.byteLength_eq_zero_iff.1 hrest
    rw [if_neg hrest, if_pos (by omega)]
    exact h₂.fail (by simp)

/-- On the bytes of a text the reader never stands behind the end or inside a character, and never
    finds that the bytes of a string or of a number are no text. It ends as the reader of texts
    does, which in turn never wants for fuel. -/
theorem readBytes_on_boundaries (t : Text) :
    (∀ n ∈ (readBytes t.utf8).2, n ≤ t.utf8.length ∧ t.IsBoundary n) ∧
      (readBytes t.utf8).1 ≠ .error .brokenString ∧ (readBytes t.utf8).1 ≠ .error .brokenNumber ∧
      (readBytes t.utf8).1 = (read t).mapError .ofText ∧ read t ≠ .error .tooDeep := by
  have hle : ∀ {ns : List Nat}, (∀ n ∈ ns, t.IsBoundary n) →
      ∀ n ∈ ns, n ≤ t.utf8.length ∧ t.IsBoundary n := fun hs n hn =>
    ⟨Text.length_utf8 t ▸ (hs n hn).le, hs n hn⟩
  have hagrees := agrees_readAll t
  rw [readBytes]
  generalize ByteReader.readAll t.utf8 .start = r at *
  cases hr : read t with
  | error e =>
    rw [hr] at hagrees
    cases hagrees with
    | error he hs => exact ⟨hle hs, by simpa [Except.mapError] using he⟩
  | ok v =>
    rw [hr] at hagrees
    cases hagrees with
    | ok h => exact ⟨hle h.positions, by simp [Except.mapError]⟩

/-- Bytes that are no text can make a string that is none. -/
example : (readBytes [0x22, 0x80, 0x22]).1 = .error .brokenString := rfl

end Json

end CrossEdition
