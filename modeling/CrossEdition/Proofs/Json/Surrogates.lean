import CrossEdition.Proofs.Json.Reading

/-!
# Surrogates in strings

A string of JSON denotes code units of UTF-16, which its codes may leave without their other
halves. The reader decodes them as it goes: a high surrogate takes the code behind it with it,
whether that is its other half or not.

Specification: the decoding of UTF-16 that puts U+FFFD for each surrogate without its other half
and keeps all the rest.

Results:
* `decode_utf16_append`: decoding gives back every character.
* `length_contents_le`: nothing is read more than once.
* `contents_eq_decode_iff`, `read_decoded_iff`: what is read is the decoding, unless a high
  surrogate takes another code than its other half with it.
-/

namespace CrossEdition

namespace Json

/-! ## Code units -/

theorem IsLow.not_isHigh {n : Nat} (h : IsLow n) : ¬ IsHigh n := by
  simp only [IsHigh, IsLow] at h ⊢
  omega

/-- The code units of a character. -/
def utf16 (c : Char) : List Nat :=
  if c.toNat < 0x10000 then [c.toNat]
  else [0xd800 + (c.toNat - 0x10000) / 0x400, 0xdc00 + (c.toNat - 0x10000) % 0x400]

/-- The code units that a piece denotes. -/
def Piece.units : Piece → List Nat
  | raw c => utf16 c
  | short _ c => utf16 c
  | code digits => [codeUnit digits]

/-- The characters of code units, with U+FFFD for each surrogate without its other half. -/
def decode : List Nat → Text
  | high :: low :: us =>
    if IsHigh high ∧ IsLow low then
      Char.ofNat (0x10000 + (high - 0xd800) * 0x400 + (low - 0xdc00)) :: decode us
    else codeChar high :: decode (low :: us)
  | [u] => [codeChar u]
  | [] => []

theorem decode_pair {high low : Nat} (hh : IsHigh high) (hl : IsLow low) (us : List Nat) :
    decode (high :: low :: us) =
      Char.ofNat (0x10000 + (high - 0xd800) * 0x400 + (low - 0xdc00)) :: decode us :=
  if_pos ⟨hh, hl⟩

theorem decode_single {u : Nat} {us : List Nat} (h : IsHigh u → ∀ v ∈ us.head?, ¬ IsLow v) :
    decode (u :: us) = codeChar u :: decode us := by
  cases us with
  | nil => rfl
  | cons v us => exact if_neg fun hp => h hp.1 v rfl hp.2

/-- A code unit more gives no fewer characters, and one more unless it makes a pair. -/
theorem length_decode_cons (u : Nat) (us : List Nat) :
    (decode us).length ≤ (decode (u :: us)).length ∧
      ((decode (u :: us)).length ≤ (decode us).length →
        IsHigh u ∧ ∃ low vs, us = low :: vs ∧ IsLow low) := by
  by_cases hp : IsHigh u ∧ ∃ low vs, us = low :: vs ∧ IsLow low
  · obtain ⟨hh, low, vs, rfl, hl⟩ := hp
    have hlow : decode (low :: vs) = codeChar low :: decode vs :=
      decode_single fun hh' => absurd hh' hl.not_isHigh
    rw [decode_pair hh hl, hlow]
    exact ⟨by simp, fun _ => ⟨hh, low, vs, rfl, hl⟩⟩
  · have hs : decode (u :: us) = codeChar u :: decode us := by
      refine decode_single fun hh v hv hl => hp ⟨hh, v, us.tail, ?_, hl⟩
      cases us with
      | nil => simp at hv
      | cons w us => rw [← Option.some.inj hv, List.tail_cons]
    rw [hs, List.length_cons]
    exact ⟨by omega, fun h => absurd h (by omega)⟩

/-- No pair stands for U+FFFD. -/
theorem replacement_ne_of_pair {high low : Nat} (hh : IsHigh high) (hl : IsLow low) :
    replacement ≠ Char.ofNat (0x10000 + (high - 0xd800) * 0x400 + (low - 0xdc00)) := by
  generalize hn : 0x10000 + (high - 0xd800) * 0x400 + (low - 0xdc00) = n
  have hv : n.isValidChar := by
    simp only [IsHigh, IsLow, Nat.isValidChar] at hh hl ⊢
    omega
  have hnat : (Char.ofNat n).toNat = n := congrArg Char.toNat (dif_pos hv)
  have hreplacement : replacement.toNat = 0xfffd := by decide
  rintro heq
  rw [heq, hnat] at hreplacement
  omega

/-- A character is decoded from its code units. -/
theorem decode_utf16_append (c : Char) (us : List Nat) :
    decode (utf16 c ++ us) = c :: decode us := by
  have hrange : c.toNat < 0xd800 ∨ 0xdfff < c.toNat ∧ c.toNat < 0x110000 := c.valid
  unfold utf16
  split_ifs with hc
  · have hhigh : ¬ IsHigh c.toNat := by
      simp only [IsHigh]
      omega
    rw [List.singleton_append, decode_single fun hh => absurd hh hhigh, codeChar,
      if_pos (show c.toNat.isValidChar from c.valid), Char.ofNat_toNat]
  · generalize hk : c.toNat - 0x10000 = k
    have hk' : 0x10000 + (0xd800 + k / 0x400 - 0xd800) * 0x400 + (0xdc00 + k % 0x400 - 0xdc00) =
        c.toNat := by omega
    rw [List.cons_append, List.singleton_append, decode_pair, hk', Char.ofNat_toNat]
    · simp only [IsHigh]
      omega
    · simp only [IsLow]
      omega

/-- No character begins with the second half of a pair. -/
theorem not_isLow_of_head_utf16 {c : Char} {us : List Nat} :
    ∀ v ∈ (utf16 c ++ us).head?, ¬ IsLow v := by
  have hrange : c.toNat < 0xd800 ∨ 0xdfff < c.toNat ∧ c.toNat < 0x110000 := c.valid
  intro v hv
  unfold utf16 at hv
  split_ifs at hv with hc
  all_goals
    rw [← Option.some.inj hv]
    simp only [IsLow]
    omega

/-! ## Pieces -/

/-- Whether a piece takes none with it but its other half. -/
def Keeps (p q : Piece) : Prop :=
  ∀ high low, p = .code high → q = .code low → IsHigh (codeUnit high) → IsLow (codeUnit low)

variable {ps : List Piece}

theorem decode_alone {p : Piece} (hp : p.Valid) (hps : ∀ q ∈ ps, q.Valid) (ha : Alone p ps) :
    decode ((p :: ps).flatMap Piece.units) = p.char :: decode (ps.flatMap Piece.units) := by
  rw [List.flatMap_cons]
  cases p with
  | raw c => exact decode_utf16_append c _
  | short _ c => exact decode_utf16_append c _
  | code digits =>
    rw [Piece.char, Piece.IsCode.unit_eq hp]
    refine decode_single fun hh => ?_
    cases ps with
    | nil => simp
    | cons q qs =>
      rw [List.flatMap_cons]
      cases q with
      | raw c => exact not_isLow_of_head_utf16
      | short _ c => exact not_isLow_of_head_utf16
      | code low =>
        refine absurd ?_ (ha digits low qs rfl rfl)
        rwa [Piece.IsCode.unit_eq hp]

/-- Nothing is read that is not decoded. -/
theorem length_contents_le (h : ∀ p ∈ ps, p.Valid) :
    (contents ps).length ≤ (decode (ps.flatMap Piece.units)).length := by
  induction ps using pieces_induction with
  | nil => simp [contents]
  | alone p ps ha ih =>
    have hps : ∀ q ∈ ps, q.Valid := fun q hq => h q (by simp [hq])
    rw [contents_alone ha, decode_alone (h p (by simp)) hps ha]
    simpa using ih hps
  | pair high low ps hh ih =>
    have hle := ih fun q hq => h q (by simp [hq])
    have hcons := (length_decode_cons (codeUnit low) (ps.flatMap Piece.units)).1
    rw [Piece.IsCode.unit_eq (h (.code high) (by simp))] at hh
    rw [contents_pair (by rwa [Piece.IsCode.unit_eq (h (.code high) (by simp))])]
    simp only [List.flatMap_cons, Piece.units, List.singleton_append]
    by_cases hl : IsLow (codeUnit low)
    · rw [decode_pair hh hl]
      simpa using hle
    · rw [@decode_single _ (codeUnit low :: _) (by simpa using fun _ => hl)]
      simp only [List.length_cons]
      omega

/-- A code unit more is missed: it would have to be half of a pair with a surrogate that is read
    by itself. -/
theorem contents_ne_decode_cons (h : ∀ p ∈ ps, p.Valid) (u : Nat) :
    contents ps ≠ decode (u :: ps.flatMap Piece.units) := by
  intro heq
  obtain ⟨hh, low, vs, hus, hl⟩ := (length_decode_cons u (ps.flatMap Piece.units)).2
    (heq ▸ length_contents_le h)
  rw [hus, decode_pair hh hl] at heq
  cases ps with
  | nil => simp at hus
  | cons q qs =>
    rw [List.flatMap_cons] at hus
    cases q with
    | raw c => exact not_isLow_of_head_utf16 low (congrArg List.head? hus) hl
    | short _ c => exact not_isLow_of_head_utf16 low (congrArg List.head? hus) hl
    | code digits =>
      have hunit : unit digits = low := by
        rw [Piece.IsCode.unit_eq (h (.code digits) (by simp))]
        exact (List.cons.inj hus).1
      have ha : Alone (.code digits) qs := by
        intro high _ _ hp _ hhigh
        rw [← Piece.code.inj hp, hunit] at hhigh
        exact hl.not_isHigh hhigh
      rw [contents_alone ha, Piece.char, hunit, codeChar_of_surrogate (.inr hl)] at heq
      exact replacement_ne_of_pair hh hl (List.cons.inj heq).1

/-- What is read is the decoding, unless a high surrogate takes another code than its other half
    with it. -/
theorem contents_eq_decode_iff (h : ∀ p ∈ ps, p.Valid) :
    contents ps = decode (ps.flatMap Piece.units) ↔ ps.IsChain Keeps := by
  -- as the reader goes on: behind a piece that stands alone, or behind a high surrogate and the
  -- code that it takes with it
  induction ps using pieces_induction with
  | nil => simp [contents, decode]
  | alone p ps ha ih =>
    have hp := h p (by simp)
    have hps : ∀ q ∈ ps, q.Valid := fun q hq => h q (by simp [hq])
    have hkeeps : ∀ q ∈ ps.head?, Keeps p q := by
      rintro q hq high low rfl rfl hh
      refine absurd ?_ (ha high low ps.tail rfl (List.cons_head?_tail hq).symm)
      rwa [Piece.IsCode.unit_eq hp]
    rw [contents_alone ha, decode_alone hp hps ha, List.isChain_cons, List.cons_inj_right, ih hps]
    exact ⟨fun hc => ⟨hkeeps, hc⟩, fun hc => hc.2⟩
  | pair high low ps hh ih =>
    have hps : ∀ q ∈ ps, q.Valid := fun q hq => h q (by simp [hq])
    have hhigh := Piece.IsCode.unit_eq (h (.code high) (by simp))
    have hlow := Piece.IsCode.unit_eq (h (.code low) (by simp))
    rw [contents_pair hh, List.isChain_cons_cons]
    rw [hhigh] at hh
    simp only [hhigh, hlow, List.flatMap_cons, Piece.units, List.singleton_append]
    by_cases hl : IsLow (codeUnit low)
    · have hkeeps : Keeps (.code high) (.code low) := fun _ _ _ hq _ => Piece.code.inj hq ▸ hl
      have hrest : ∀ q ∈ ps.head?, Keeps (.code low) q := by
        intro q _ high' _ hp _ hh'
        rw [← Piece.code.inj hp] at hh'
        exact absurd hh' hl.not_isHigh
      rw [decode_pair hh hl, pairChar_eq hh hl, List.cons_inj_right, List.isChain_cons, ih hps]
      exact ⟨fun hc => ⟨hkeeps, hrest, hc⟩, fun hc => hc.2.2⟩
    · have hkeeps : ¬ Keeps (.code high) (.code low) := fun hk => hl (hk _ _ rfl rfl hh)
      have hpair : pairChar (codeUnit high) (codeUnit low) = codeChar (codeUnit high) := by
        rw [codeChar_of_surrogate (.inl hh)]
        exact if_neg hl
      rw [@decode_single _ (codeUnit low :: _) (by simpa using fun _ => hl), hpair,
        List.cons_inj_right]
      exact iff_of_false (contents_ne_decode_cons hps _) fun hc => hkeeps hc.1

/-- A string is read to its end, and as the decoding of its code units exactly if no high
    surrogate stands directly in front of the code of anything but its other half. -/
theorem read_decoded_iff (h : ∀ p ∈ ps, p.Valid) :
    read (quoted ps) = .ok (.string (contents ps)) ∧
      (contents ps = decode (ps.flatMap Piece.units) ↔ ps.IsChain Keeps) :=
  ⟨read_pieces fun p hp => (Piece.valid_iff.1 (h p hp)).1, contents_eq_decode_iff h⟩

/-- Surrogates apart from each other, and a pair behind them. -/
theorem read_decoded_iff_apart :
    let ps : List Piece := [.code "d800", .raw 'x', .code "DC00", .code "d83d", .code "de00"]
    (∀ p ∈ ps, p.Valid) ∧ read (quoted ps) = .ok (.string "\uFFFDx\uFFFD😀") ∧
      decode (ps.flatMap Piece.units) = "\uFFFDx\uFFFD😀" := by
  intro ps
  have h : ∀ p ∈ ps, p.Valid := by
    simp [ps, Piece.Valid, Piece.IsCode, IsHexDigit]
  have hcontents : contents ps = "\uFFFDx\uFFFD😀" := by decide +kernel
  have hdecode : decode (ps.flatMap Piece.units) = "\uFFFDx\uFFFD😀" := by decide +kernel
  exact ⟨h, hcontents ▸ (read_decoded_iff h).1, hdecode⟩

/-- A high surrogate costs the letter behind it, if that is written as a code. -/
theorem read_takes_letter :
    let ps : List Piece := [.code "d800", .code "0041"]
    (∀ p ∈ ps, p.Valid) ∧ read (quoted ps) = .ok (.string "\uFFFD") ∧
      decode (ps.flatMap Piece.units) = "\uFFFDA" := by
  intro ps
  have h : ∀ p ∈ ps, p.Valid := by
    simp [ps, Piece.Valid, Piece.IsCode, IsHexDigit]
  have hcontents : contents ps = "\uFFFD" := by decide +kernel
  refine ⟨h, ?_, by decide +kernel⟩
  rw [← hcontents]
  exact read_pieces fun p hp => (Piece.valid_iff.1 (h p hp)).1

end Json

end CrossEdition
