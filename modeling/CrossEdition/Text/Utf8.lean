import CrossEdition.Text.Basic

/-!
# Bytes of texts

The UTF-8 encoding of a text as a list of bytes, and the places between its characters.

Results:
* `ofUtf8?_utf8`, `eq_utf8_of_ofUtf8?`: the encoding and the decoding are inverses.
* `prefix_of_utf8_append`: what begins with the bytes of a text begins with the text.
* `IsBoundary.le`: places between characters are not behind the end.
-/

namespace CrossEdition

/-- A sequence of bytes. -/
abbrev Bytes := List UInt8

namespace Text

/-- The bytes of a text in UTF-8. -/
def utf8 (t : Text) : Bytes :=
  t.flatMap String.utf8EncodeChar

/-- The text with these bytes, if they are the bytes of one. -/
def ofUtf8? (bytes : Bytes) : Option Text :=
  bytes.toByteArray.utf8Decode?.map Array.toList

/-- Whether so many bytes stand in front of some character of a text, or in front of its end. -/
def IsBoundary (t : Text) (n : Nat) : Prop :=
  ∃ before after, t = before ++ after ∧ n = byteLength before

/-! ## Lemmas -/

@[simp] theorem utf8_nil : utf8 [] = [] := rfl

@[simp] theorem utf8_cons (c : Char) (t : Text) :
    utf8 (c :: t) = String.utf8EncodeChar c ++ utf8 t := rfl

@[simp] theorem utf8_append (s t : Text) : utf8 (s ++ t) = utf8 s ++ utf8 t :=
  List.flatMap_append

@[simp] theorem length_utf8 (t : Text) : (utf8 t).length = byteLength t := by
  induction t with
  | nil => rfl
  | cons c t ih =>
    rw [utf8_cons, List.length_append, String.length_utf8EncodeChar, ih, byteLength_cons]

theorem length_le_byteLength (t : Text) : t.length ≤ byteLength t := by
  induction t with
  | nil => exact Nat.le_refl _
  | cons c t ih =>
    have := c.utf8Size_pos
    rw [List.length_cons, byteLength_cons]
    omega

theorem byteLength_eq_zero_iff {t : Text} : byteLength t = 0 ↔ t = [] := by
  constructor
  · intro h
    have hle := length_le_byteLength t
    exact List.length_eq_zero_iff.1 (by omega)
  · rintro rfl
    rfl

theorem toByteArray_utf8 (t : Text) : (utf8 t).toByteArray = List.utf8Encode t := rfl

@[simp] theorem ofUtf8?_utf8 (t : Text) : ofUtf8? (utf8 t) = some t := by
  rw [ofUtf8?, toByteArray_utf8, List.utf8Decode?_utf8Encode]
  rfl

theorem eq_utf8_of_ofUtf8? {bytes : Bytes} {t : Text} (h : ofUtf8? bytes = some t) :
    bytes = utf8 t := by
  obtain ⟨a, ha, rfl⟩ := Option.map_eq_some_iff.1 h
  have he := @ByteArray.utf8Encode_get_utf8Decode? bytes.toByteArray (Option.isSome_of_eq_some ha)
  rw [← List.toByteArray_inj, toByteArray_utf8, ← he]
  simp only [ha, Option.get_some]

/-- What begins with the bytes of a text begins with the text. -/
theorem prefix_of_utf8_append {s t : Text} {bytes : Bytes} (h : utf8 s ++ bytes = utf8 t) :
    s <+: t := by
  refine List.isPrefix_of_utf8Encode_append_eq_utf8Encode bytes.toByteArray ?_
  rw [← toByteArray_utf8, ← toByteArray_utf8, ← List.toByteArray_append, h]

theorem IsBoundary.le {t : Text} {n : Nat} (h : IsBoundary t n) : n ≤ byteLength t := by
  obtain ⟨before, after, rfl, rfl⟩ := h
  rw [byteLength_append]
  exact Nat.le_add_right _ _

end Text

end CrossEdition
