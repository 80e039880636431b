import CrossEdition.Proofs.Json.BytePaths

/-!
# Strings in bytes

A character of a string is read by the width of its first byte, and a code by the next four bytes.
Only the latter may cut through a character, and then the reader fails and stands where it stood.

Results:
* `window_error`, `ofUtf8?_of_window`: four bytes are too few, or no text, exactly where the
  window of the reader of texts is too short, or cuts through a character.
* `Stands.readChar`: a character is read to its end, and never fails.
* `Stands.readEscape`, `Stands.stringContent`, `Stands.readString`: escapes and strings.
-/

namespace CrossEdition

namespace Json

open ByteReader (get_ok)
open Text (utf8 byteLength ofUtf8?)

variable {t : Text} {s : Path} {c : Cursor}

/-! ## Windows -/

/-- The next bytes, if there are so many. -/
theorem Stands.window?_ok (h : Stands t s c) (n : Nat) :
    ByteReader.window? t.utf8 n s =
      .ok (if c.rest.byteLength < n then none else some (c.rest.utf8.take n)) s := by
  have hlen : (c.rest.utf8.take n).length = n ↔ ¬ c.rest.byteLength < n := by
    rw [List.length_take, Text.length_utf8]
    omega
  rw [ByteReader.window?, bind_of_ok (get_ok s), h.drop_eq]
  simp only [hlen, ite_not]
  rfl

/-- The bytes of what is ahead. -/
theorem take_utf8 {u rest : Text} {n : Nat} (hc : c.rest = u ++ rest) (hn : u.byteLength = n) :
    ¬ c.rest.byteLength < n ∧ c.rest.utf8.take n = u.utf8 := by
  rw [hc, Text.byteLength_append, Text.utf8_append, ← hn]
  exact ⟨by omega, List.take_left' (Text.length_utf8 u)⟩

/-- A text is too short for a window, or the window cuts through a character. -/
theorem window_error {n : Nat} {u : Text} {e : Error} (h : window n u = .error e) :
    e = if u.byteLength < n then .endInHex else .brokenHex := by
  induction n, u using window.induct with
  | case1 u => simp [window] at h
  | case2 n =>
    rw [window] at h
    simpa using (Except.error.inj h).symm
  | case3 n d rest hd ih =>
    rw [window, if_pos hd] at h
    have hrest : window (n + 1 - d.utf8Size) rest = .error e := by
      cases hw : window (n + 1 - d.utf8Size) rest with
      | error e₁ => exact congrArg Except.error (Except.error.inj (hw ▸ h))
      | ok p => simp [hw, Except.map] at h
    have hshort : byteLength (d :: rest) < n + 1 ↔ byteLength rest < n + 1 - d.utf8Size := by
      rw [Text.byteLength_cons]
      omega
    simp only [ih hrest, hshort]
  | case4 n d rest hd =>
    rw [window, if_neg hd] at h
    rw [if_neg (by rw [Text.byteLength_cons]; omega)]
    exact (Except.error.inj h).symm

/-- What cuts through a character is no text. -/
theorem ofUtf8?_of_window {n : Nat} {u : Text} {e : Error} (h : window n u = .error e)
    (hn : n ≤ u.byteLength) : ofUtf8? (u.utf8.take n) = none := by
  rw [Option.eq_none_iff_forall_ne_some]
  intro w hw
  have hbytes := Text.eq_utf8_of_ofUtf8? hw
  have hlen : n = w.byteLength := by
    rw [← Text.length_utf8, ← hbytes, List.length_take, Text.length_utf8]
    omega
  obtain ⟨rest, rfl⟩ : w <+: u :=
    Text.prefix_of_utf8_append (by rw [← hbytes, List.take_append_drop n u.utf8])
  rw [hlen, window_byteLength] at h
  simp at h

/-! ## Codes -/

theorem Stands.readHex (h : Stands t s c) :
    Agrees t (ByteReader.readHex t.utf8 s) (Json.readHex c) := by
  rw [ByteReader.readHex, bind_of_ok (h.window?_ok 4), Json.readHex]
  cases hw : window 4 c.rest with
  | error e =>
    rw [window_error hw]
    split_ifs with hlen
    · exact h.fail (by simp)
    · simp only [ofUtf8?_of_window hw (Nat.le_of_not_lt hlen)]
      exact h.fail (by simp)
  | ok p =>
    obtain ⟨digits, rest⟩ := p
    obtain ⟨hrest, hl⟩ := append_of_window hw
    obtain ⟨hlen, htake⟩ := take_utf8 hrest hl
    have hstep := h.advance hrest
    rw [hl] at hstep
    simp only [if_neg hlen, htake, Text.ofUtf8?_utf8, bind, Except.bind]
    cases hexNumber? digits with
    | none => exact h.fail (by simp)
    | some n => exact hstep.agrees n

theorem Stands.readCode (h : Stands t s c) :
    Agrees t (ByteReader.readCode t.utf8 s) (Json.readCode c) := by
  refine h.readHex.bind fun n s₁ c₁ _ h₁ => ?_
  simp only
  split_ifs with hn
  · have hsecond : ByteReader.look t.utf8 1 s₁ =
        .ok (t.utf8[s₁.position + 1]?.map byteChar) s₁ := rfl
    have htwo := h₁.look_two_iff (d := '\\') (e := 'u') (by decide) (by decide)
    rw [bind_of_ok h₁.look_ok, bind_of_ok hsecond]
    by_cases hp : ∃ u, c₁.rest = '\\' :: 'u' :: u
    · rw [if_pos (htwo.2 hp)]
      obtain ⟨u, hu⟩ := hp
      have hstep := h₁.drop 2
      rw [hu] at hstep ⊢
      exact hstep.readHex.bind fun low s₂ c₂ _ h₂ => h₂.agrees _
    · rw [if_neg (mt htwo.1 hp)]
      split
      · next u hu => exact absurd ⟨u, hu⟩ hp
      · exact h₁.agrees _
  · exact h₁.agrees _

/-! ## Characters -/

/-- A character is read to its end, and never fails. -/
theorem Stands.readChar (h : Stands t s c) {d : Char} {rest : Text} (hc : c.rest = d :: rest) :
    ∃ s₁, ByteReader.readChar t.utf8 (firstByte d) s = .ok [d] s₁ ∧ Stands t s₁ (c.drop 1) := by
  have hwidth : byteLength [d] = charWidth (firstByte d) := by simp [charWidth_firstByte]
  obtain ⟨hlen, htake⟩ := take_utf8 (u := [d]) hc hwidth
  have hstep := h.drop 1
  rw [hc, List.take_one, List.head?_cons, Option.toList_some, hwidth] at hstep
  refine ⟨_, ?_, hstep⟩
  rw [ByteReader.readChar, bind_of_ok (h.window?_ok _), if_neg hlen, htake]
  simp only [Text.ofUtf8?_utf8]
  rfl

/-! ## Escapes -/

/-- The character of an escape, from behind its backslash. -/
def readEscape (c : Cursor) : Except Error (Char × Cursor) :=
  match c.rest with
  | [] => .error .endInEscape
  | 'u' :: _ => readCode (c.drop 1)
  | e :: _ =>
    match shortEscape? e with
    | none => .error (.unknownEscape (firstByte e))
    | some ch => .ok (ch, c.drop 1)

theorem stringContent_backslash {rest : Text} (hc : c.rest = '\\' :: rest) (fuel : Nat) :
    stringContent (fuel + 1) c =
      (do
        let (ch, d) ← readEscape (c.drop 1)
        let (u, d) ← stringContent fuel d
        .ok (ch :: u, d)) := by
  have hdrop : (c.drop 1).rest = rest := by simp [Cursor.drop, hc]
  rw [stringContent, hc, readEscape, hdrop, Cursor.drop_drop]
  simp only
  split
  · rfl
  · rfl
  · next e tail _ =>
    cases he : shortEscape? e <;> simp only [he] <;> rfl

theorem length_of_readEscape {d : Cursor} {ch : Char} (h : readEscape c = .ok (ch, d)) :
    d.rest.length ≤ c.rest.length := by
  unfold readEscape at h
  split at h
  · simp at h
  · refine Nat.le_trans ?_ (c.length_drop_le 1)
    rcases lenient_of_readCode h with ⟨digits, -, hc⟩ | ⟨high, low, -, -, hc⟩
    · simp [hc]
    · simp [hc]
      omega
  · split at h
    · simp at h
    · rw [← snd_eq_of_ok h]
      exact c.length_drop_le 1

theorem toNat_of_shortEscape? {e ch : Char} (h : shortEscape? e = some ch) : e.toNat < 0x80 := by
  have hall : ∀ p ∈ shortEscapes, p.1.toNat < 0x80 := by decide
  refine hall (e, ch) (mem_shortEscapes_iff.2 ⟨?_, h⟩)
  rintro rfl
  simp [shortEscape?] at h

theorem shortEscape?_firstByte (e : Char) : shortEscape? (firstByte e) = shortEscape? e := by
  have hnone : ∀ d : Char, ¬ d.toNat < 0x80 → shortEscape? d = none := fun d hd =>
    Option.eq_none_iff_forall_ne_some.2 fun _ h => hd (toNat_of_shortEscape? h)
  by_cases he : e.toNat < 0x80
  · rw [firstByte_of_lt he]
  · rw [hnone e he, hnone _ (mt lt_of_firstByte_lt he)]

theorem Stands.readEscape (h : Stands t s c) :
    Agrees t (ByteReader.readEscape t.utf8 s) (Json.readEscape c) := by
  rw [ByteReader.readEscape, bind_of_ok h.look_ok, Json.readEscape]
  cases hrest : c.rest with
  | nil => exact h.fail (by simp)
  | cons e rest =>
    rw [List.head?_cons, Option.map_some]
    by_cases hu : e = 'u'
    · obtain ⟨s₁, hrun, h₁⟩ := h.advance_ok hrest (by rw [hu]; decide)
      rw [hu, firstByte_of_lt (by decide)]
      simp only
      rw [bind_of_ok hrun]
      exact h₁.readCode
    · have hfirst : firstByte e ≠ 'u' := mt (firstByte_eq_iff (by decide)).1 hu
      simp only [shortEscape?_firstByte]
      cases he : shortEscape? e with
      | none => exact h.fail (by simp)
      | some ch =>
        obtain ⟨s₁, hrun, h₁⟩ := h.advance_ok hrest (toNat_of_shortEscape? he)
        simp only
        rw [bind_of_ok hrun]
        exact h₁.agrees ch

/-! ## Strings -/

/-- Each character that is left is worth a step of both readers. -/
theorem Stands.stringContent (h : Stands t s c) {fuel fuel' : Nat}
    (hf : c.rest.length < fuel) (hf' : c.rest.length < fuel') :
    Agrees t (ByteReader.stringContent t.utf8 fuel s) (Json.stringContent fuel' c) := by
  induction fuel generalizing fuel' s c with
  | zero => exact absurd hf (Nat.not_lt_zero _)
  | succ fuel ih =>
    obtain ⟨fuel', rfl⟩ := Nat.exists_eq_add_one.2 (Nat.zero_lt_of_lt hf')
    rw [ByteReader.stringContent, bind_of_ok h.look_ok]
    cases hrest : c.rest with
    | nil =>
      rw [Json.stringContent, hrest]
      exact h.fail (by simp)
    | cons d rest =>
      have hdrop : (c.drop 1).rest = rest := by simp [Cursor.drop, hrest]
      rw [hrest, List.length_cons, ← hdrop] at hf hf'
      rw [List.head?_cons, Option.map_some]
      by_cases hquote : d = '"'
      · obtain ⟨s₁, hrun, h₁⟩ := h.advance_ok hrest (by rw [hquote]; decide)
        rw [Json.stringContent, hrest, hquote, firstByte_of_lt (by decide)]
        simp only
        rw [bind_of_ok hrun]
        exact h₁.agrees []
      by_cases hback : d = '\\'
      · obtain ⟨s₁, hrun, h₁⟩ := h.advance_ok hrest (by rw [hback]; decide)
        rw [hback] at hrest
        rw [stringContent_backslash hrest, hback, firstByte_of_lt (by decide)]
        simp only
        rw [bind_of_ok hrun]
        refine h₁.readEscape.bind fun ch s₂ c₂ he h₂ => ?_
        have hle := length_of_readEscape he
        exact (ih h₂ (by omega) (by omega)).bind fun u s₃ c₃ _ h₃ => h₃.agrees _
      · have hquote' : firstByte d ≠ '"' := mt (firstByte_eq_iff (by decide)).1 hquote
        have hback' : firstByte d ≠ '\\' := mt (firstByte_eq_iff (by decide)).1 hback
        obtain ⟨s₁, hrun, h₁⟩ := h.readChar hrest
        rw [Json.stringContent, hrest]
        simp only
        rw [bind_of_ok hrun]
        exact (ih h₁ (by omega) (by omega)).bind fun u s₂ c₂ _ h₂ => h₂.agrees _

theorem Stands.readString (h : Stands t s c) :
    Agrees t (ByteReader.readString t.utf8 s) (Json.readString c) := by
  refine (h.expect (by decide)).next fun s₁ c₁ _ h₁ => h₁.stringContent ?_ (Nat.lt_succ_self _)
  have hle := Text.length_le_byteLength c₁.rest
  rw [Text.length_utf8, h₁.on.byteLength_eq]
  omega

end Json

end CrossEdition
