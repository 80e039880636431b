import CrossEdition.Json.Reader
import CrossEdition.Proofs.Decimal.Spelling
import CrossEdition.Proofs.Json.Sentences

/-!
# Strings are read piece by piece

A string is read up to its closing quote, one piece after the other, and only a high surrogate
looks at what is behind it. The pieces that are read are those of the lenient lexicon.

Results:
* `contents`: what pieces denote, as they are read.
* `stringContent_pieces`, `readString_pieces`: pieces are read to the quote behind them.
* `pieces_of_stringContent`, `isString_of_readString`: whatever is read is made of pieces.
-/

namespace CrossEdition

namespace Json

/-! ## Blanks -/

theorem isBlank_iff {c : Char} : isBlank c = true ↔ c ∈ ([' ', '\t', '\n', '\r'] : Text) := by
  simp [isBlank, or_assoc]

theorem isBlank_nil : IsBlank [] :=
  fun _ hc => absurd hc (List.not_mem_nil)

theorem skipBlanks_eq {blanks u : Text} (hb : IsBlank blanks)
    (hu : ∀ c ∈ u.head?, isBlank c = false) (o : Nat) :
    ∃ o', skipBlanks ⟨blanks ++ u, o⟩ = ⟨u, o'⟩ := by
  have hd : (blanks ++ u).dropWhile isBlank = u := by
    rw [List.dropWhile_append_of_pos fun c hc => isBlank_iff.2 (hb c hc)]
    cases u with
    | nil => rfl
    | cons c u => simp [hu c rfl]
  exact ⟨_, by rw [skipBlanks, Cursor.skip, hd]⟩

/-- Blanks are all that is skipped. -/
theorem skipBlanks_append (c : Cursor) :
    ∃ blanks, IsBlank blanks ∧ c.rest = blanks ++ (skipBlanks c).rest :=
  ⟨c.rest.takeWhile isBlank, fun _ hc => isBlank_iff.1 (List.mem_takeWhile_imp hc),
    List.takeWhile_append_dropWhile.symm⟩

/-- A character that blanks may stand in front of. -/
theorem expect_eq {blanks u : Text} {c : Char} (hb : IsBlank blanks) (hc : isBlank c = false)
    (o : Nat) : ∃ o', expect c ⟨blanks ++ c :: u, o⟩ = .ok ⟨u, o'⟩ := by
  obtain ⟨o', ho⟩ := skipBlanks_eq (u := c :: u) hb (by simpa using hc) o
  exact ⟨o' + c.utf8Size, by simp [expect, ho, Cursor.eat?]⟩

theorem rest_of_expect {c d : Cursor} {ch : Char} (h : expect ch c = .ok d) :
    ∃ blanks, IsBlank blanks ∧ c.rest = blanks ++ ch :: d.rest := by
  obtain ⟨blanks, hb, hc⟩ := skipBlanks_append c
  simp only [expect] at h
  split at h
  · next e he =>
    rw [← Except.ok.inj h, ← Cursor.rest_of_eat? he]
    exact ⟨blanks, hb, hc⟩
  · simp at h

/-! ## Codes -/

theorem IsHexDigit.value {c : Char} (h : IsHexDigit c) :
    hexValue? c = some (digitValue c) ∧ digitValue c < 16 ∧ c.utf8Size = 1 := by
  have : ∀ c ∈ ("0123456789abcdefABCDEF" : Text),
      hexValue? c = some (digitValue c) ∧ digitValue c < 16 ∧ c.utf8Size = 1 := by
    decide
  exact this c h

theorem isHexDigit_of_hexValue? {c : Char} (h : (hexValue? c).isSome = true) : IsHexDigit c := by
  have hlt : c.toNat < 103 := by
    unfold hexValue? at h
    split_ifs at h with h₁ h₂ h₃
    · exact Nat.lt_of_le_of_lt (Numeral.isDigit_iff.1 h₁).2 (by decide)
    · exact Nat.lt_succ_of_le h₂.2
    · exact Nat.lt_of_le_of_lt h₃.2 (by decide)
    · simp at h
  have hall : ∀ c : Char, c.toNat < 103 → (hexValue? c).isSome = true →
      c ∈ ("0123456789abcdefABCDEF" : Text) := Text.forall_char_of_lt (by decide)
  exact hall c hlt h

theorem foldlM_hexValue? {t : Text} (h : ∀ c ∈ t, IsHexDigit c) (n : Nat) :
    t.foldlM (fun n c => (hexValue? c).map (16 * n + ·)) n =
      some (t.foldl (fun n c => 16 * n + digitValue c) n) := by
  induction t generalizing n with
  | nil => rfl
  | cons c t ih =>
    rw [List.foldlM_cons, (h c (by simp)).value.1, List.foldl_cons]
    exact ih (fun d hd => h d (by simp [hd])) _

theorem isHexDigit_of_foldlM {t : Text} {m n : Nat}
    (h : t.foldlM (fun n c => (hexValue? c).map (16 * n + ·)) m = some n) :
    ∀ c ∈ t, IsHexDigit c := by
  induction t generalizing m with
  | nil => simp
  | cons c t ih =>
    rw [List.foldlM_cons] at h
    obtain ⟨k, hk, h⟩ := Option.bind_eq_some_iff.1 h
    have hc : IsHexDigit c := isHexDigit_of_hexValue? (by
      obtain ⟨v, hv, -⟩ := Option.map_eq_some_iff.1 hk
      rw [hv]
      rfl)
    exact List.forall_mem_cons.2 ⟨hc, ih h⟩

/-- Hexadecimal digits denote a number of at most so many places. -/
theorem codeUnit_lt {digits : Text} (h : ∀ c ∈ digits, IsHexDigit c) :
    codeUnit digits < 16 ^ digits.length := by
  have hfold : ∀ (t : Text) (n m : Nat), (∀ c ∈ t, IsHexDigit c) → n < 16 ^ m →
      t.foldl (fun n c => 16 * n + digitValue c) n < 16 ^ (m + t.length) := by
    intro t
    induction t with
    | nil => exact fun n m _ hn => hn
    | cons c t ih =>
      intro n m ht hn
      have hc := (ht c (by simp)).value.2.1
      rw [List.foldl_cons, List.length_cons, ← Nat.add_assoc, Nat.add_right_comm]
      refine ih _ (m + 1) (fun d hd => ht d (by simp [hd])) ?_
      rw [Nat.pow_succ]
      omega
  simpa [codeUnit] using hfold digits 0 0 h (by simp)

/-- The code unit that the digits of a code denote, with a plus sign in front or without. -/
def unit : Text → Nat
  | '+' :: tail => codeUnit tail
  | digits => codeUnit digits

namespace Piece

theorem IsCode.unit_eq {digits : Text} (h : IsCode digits) : unit digits = codeUnit digits := by
  unfold unit
  split
  · exact absurd rfl (h.2 '+' (by simp)).ne_plus
  · rfl

theorem Lenient.length {digits : Text} (h : (code digits).Lenient) : digits.length = 4 := by
  rcases h with h | ⟨tail, rfl, hl, -⟩
  · exact h.1
  · rw [List.length_cons, hl]

theorem Lenient.utf8Size {digits : Text} (h : (code digits).Lenient) :
    ∀ c ∈ digits, c.utf8Size = 1 := by
  rcases h with h | ⟨tail, rfl, -, hd⟩
  · exact fun c hc => (h.2 c hc).value.2.2
  · exact List.forall_mem_cons.2 ⟨by decide, fun c hc => (hd c hc).value.2.2⟩

/-- The digits of a code are read as its code unit. -/
theorem Lenient.hexNumber?_eq {digits : Text} (h : (code digits).Lenient) :
    hexNumber? digits = some (unit digits) := by
  rcases h with h | ⟨tail, rfl, hl, hd⟩
  · obtain ⟨c, digits, rfl⟩ := List.exists_cons_of_length_eq_add_one h.1
    have hc := (h.2 c (by simp)).ne_plus
    rw [h.unit_eq]
    unfold hexNumber?
    simp [hc, foldlM_hexValue? h.2, codeUnit]
  · obtain ⟨c, tail, rfl⟩ := List.exists_cons_of_length_eq_add_one hl
    simp [hexNumber?, foldlM_hexValue? hd, unit, codeUnit]

end Piece

/-- A window as long as the start of its text. -/
theorem window_byteLength (t rest : Text) :
    window (Text.byteLength t) (t ++ rest) = .ok (t, rest) := by
  induction t with
  | nil => simp [window]
  | cons c t ih =>
    obtain ⟨n, hn⟩ := Nat.exists_eq_add_one.2 c.utf8Size_pos
    have hlen : Text.byteLength (c :: t) = (n + Text.byteLength t) + 1 := by
      rw [Text.byteLength_cons, hn]
      omega
    have hleft : n + Text.byteLength t + 1 - c.utf8Size = Text.byteLength t := by omega
    rw [hlen, List.cons_append, window, if_pos (by omega), hleft, ih]
    rfl

/-- A window of single bytes. -/
theorem window_append {t rest : Text} (ht : ∀ c ∈ t, c.utf8Size = 1) :
    window t.length (t ++ rest) = .ok (t, rest) := by
  rw [← Text.byteLength_eq_length ht]
  exact window_byteLength t rest

/-- A window is the start of its text, of so many bytes. -/
theorem append_of_window {n : Nat} {t u rest : Text} (h : window n t = .ok (u, rest)) :
    t = u ++ rest ∧ Text.byteLength u = n := by
  induction t generalizing n u with
  | nil =>
    cases n with
    | zero =>
      simp only [window, Except.ok.injEq, Prod.mk.injEq] at h
      obtain ⟨rfl, rfl⟩ := h
      exact ⟨rfl, rfl⟩
    | succ n => simp [window] at h
  | cons c t ih =>
    cases n with
    | zero =>
      simp only [window, Except.ok.injEq, Prod.mk.injEq] at h
      obtain ⟨rfl, rfl⟩ := h
      exact ⟨rfl, rfl⟩
    | succ n =>
      rw [window] at h
      split_ifs at h with hc
      obtain ⟨⟨v, after⟩, hv, he⟩ := exists_of_map_ok h
      simp only [Prod.mk.injEq] at he
      obtain ⟨rfl, rfl⟩ := he
      obtain ⟨rfl, hl⟩ := ih hv
      refine ⟨rfl, ?_⟩
      rw [Text.byteLength_cons, hl]
      omega

theorem readHex_code {digits : Text} (h : (Piece.code digits).Lenient) (rest : Text) (o : Nat) :
    readHex ⟨digits ++ rest, o⟩ = .ok (unit digits, ⟨rest, o + 4⟩) := by
  have hw : window 4 (digits ++ rest) = .ok (digits, rest) := by
    rw [← h.length]
    exact window_append h.utf8Size
  simp only [readHex, hw, bind, Except.bind, h.hexNumber?_eq]

theorem lenient_of_hexNumber? {digits : Text} {n : Nat} (hl : Text.byteLength digits = 4)
    (h : hexNumber? digits = some n) : (Piece.code digits).Lenient := by
  have hsize : ∀ {t : Text}, (∀ c ∈ t, IsHexDigit c) → Text.byteLength t = t.length :=
    fun ht => Text.byteLength_eq_length fun c hc => (ht c hc).value.2.2
  simp only [hexNumber?] at h
  split at h
  · next tail =>
    split_ifs at h with hne
    have hd := isHexDigit_of_foldlM h
    have hplus : '+'.utf8Size = 1 := by decide
    rw [Text.byteLength_cons, hplus, hsize hd] at hl
    exact .inr ⟨tail, rfl, by omega, hd⟩
  · split_ifs at h with hne
    have hd := isHexDigit_of_foldlM h
    exact .inl ⟨hsize hd ▸ hl, hd⟩

/-- Whatever is read as a code is one. -/
theorem lenient_of_readHex {c d : Cursor} {n : Nat} (h : readHex c = .ok (n, d)) :
    ∃ digits, (Piece.code digits).Lenient ∧ c.rest = digits ++ d.rest := by
  obtain ⟨⟨digits, rest⟩, hw, h⟩ := exists_of_bind_ok h
  obtain ⟨hrest, hl⟩ := append_of_window hw
  simp only at h
  split at h
  · next n hn =>
    simp only [Except.ok.injEq, Prod.mk.injEq] at h
    rw [← h.2]
    exact ⟨digits, lenient_of_hexNumber? hl hn, hrest⟩
  · simp at h

/-- Whether a code unit is the first half of a pair. -/
def IsHigh (n : Nat) : Prop :=
  0xd800 ≤ n ∧ n ≤ 0xdbff

/-- Whether a code unit is the second half of a pair. -/
def IsLow (n : Nat) : Prop :=
  0xdc00 ≤ n ∧ n ≤ 0xdfff

instance (n : Nat) : Decidable (IsHigh n) :=
  inferInstanceAs (Decidable (_ ∧ _))

instance (n : Nat) : Decidable (IsLow n) :=
  inferInstanceAs (Decidable (_ ∧ _))

/-- A surrogate without its other half cannot be decoded. -/
theorem codeChar_of_surrogate {n : Nat} (h : IsHigh n ∨ IsLow n) : codeChar n = replacement := by
  refine if_neg ?_
  simp only [IsHigh, IsLow, Nat.isValidChar] at h ⊢
  omega

/-- The character of both halves of a pair. -/
theorem pairChar_eq {high low : Nat} (hh : IsHigh high) (hl : IsLow low) :
    pairChar high low = Char.ofNat (0x10000 + (high - 0xd800) * 0x400 + (low - 0xdc00)) := by
  have hlow : 0xdc00 ≤ low ∧ low ≤ 0xdfff := hl
  rw [pairChar, if_pos hlow]
  refine if_pos ?_
  simp only [IsHigh, IsLow, Nat.isValidChar] at hh hl ⊢
  omega

/-- A code that has no pair behind it. -/
theorem readCode_single {digits : Text} (h : (Piece.code digits).Lenient) {rest : Text}
    (hs : IsHigh (unit digits) → ∀ u, rest ≠ '\\' :: 'u' :: u) (o : Nat) :
    readCode ⟨digits ++ rest, o⟩ = .ok (codeChar (unit digits), ⟨rest, o + 4⟩) := by
  simp only [readCode, readHex_code h, bind, Except.bind]
  split_ifs with hh
  · rw [codeChar_of_surrogate (.inl hh)]
    split
    · next u => exact absurd rfl (hs hh u)
    · rfl
  · rfl

/-- The code of a high surrogate, with the code behind it. -/
theorem readCode_pair {high low : Text} (hh : (Piece.code high).Lenient)
    (hl : (Piece.code low).Lenient) (hs : IsHigh (unit high)) (rest : Text) (o : Nat) :
    ∃ o', readCode ⟨high ++ '\\' :: 'u' :: (low ++ rest), o⟩ =
      .ok (pairChar (unit high) (unit low), ⟨rest, o'⟩) := by
  have hd : (⟨'\\' :: 'u' :: (low ++ rest), o + 4⟩ : Cursor).drop 2 = ⟨low ++ rest, o + 4 + 2⟩ :=
    rfl
  refine ⟨o + 4 + 2 + 4, ?_⟩
  have hs' : 0xd800 ≤ unit high ∧ unit high ≤ 0xdbff := hs
  simp only [readCode, readHex_code hh, bind, Except.bind, if_pos hs', hd, readHex_code hl]

/-- Whatever is read behind `\u` is one code, or one and the next. -/
theorem lenient_of_readCode {c d : Cursor} {ch : Char} (h : readCode c = .ok (ch, d)) :
    (∃ digits, (Piece.code digits).Lenient ∧ c.rest = digits ++ d.rest) ∨
      ∃ high low, (Piece.code high).Lenient ∧ (Piece.code low).Lenient ∧
        c.rest = high ++ '\\' :: 'u' :: (low ++ d.rest) := by
  obtain ⟨⟨n, c₁⟩, hn, h⟩ := exists_of_bind_ok h
  obtain ⟨high, hhigh, hc⟩ := lenient_of_readHex hn
  simp only at h
  split_ifs at h
  · split at h
    · next u hu =>
      obtain ⟨⟨m, c₂⟩, hm, h⟩ := exists_of_bind_ok h
      obtain ⟨low, hlow, hu'⟩ := lenient_of_readHex hm
      simp only [Except.ok.injEq, Prod.mk.injEq] at h
      refine .inr ⟨high, low, hhigh, hlow, ?_⟩
      rw [hc, hu, ← h.2, ← hu']
      simp [Cursor.drop, hu]
    · simp only [Except.ok.injEq, Prod.mk.injEq] at h
      exact .inl ⟨high, hhigh, h.2 ▸ hc⟩
  · simp only [Except.ok.injEq, Prod.mk.injEq] at h
    exact .inl ⟨high, hhigh, h.2 ▸ hc⟩

/-! ## Pieces -/

/-- The character of a piece by itself. -/
def Piece.char : Piece → Char
  | raw c => c
  | short _ c => c
  | code digits => codeChar (unit digits)

/-- What pieces denote as they are read: a high surrogate takes the code behind it with it. -/
def contents : List Piece → Text
  | .code high :: .code low :: ps =>
    if IsHigh (unit high) then pairChar (unit high) (unit low) :: contents ps
    else codeChar (unit high) :: contents (.code low :: ps)
  | p :: ps => p.char :: contents ps
  | [] => []

/-- Whether a piece takes nothing with it of the pieces behind it. -/
def Alone (p : Piece) (ps : List Piece) : Prop :=
  ∀ high low qs, p = .code high → ps = .code low :: qs → ¬ IsHigh (unit high)

theorem contents_alone {p : Piece} {ps : List Piece} (h : Alone p ps) :
    contents (p :: ps) = p.char :: contents ps := by
  rw [contents.eq_def]
  split
  · next high low qs heq =>
    obtain ⟨rfl, rfl⟩ := List.cons.inj heq
    exact if_neg (h high low qs rfl rfl)
  · next heq =>
    obtain ⟨rfl, rfl⟩ := List.cons.inj heq
    rfl
  · next heq => simp at heq

theorem contents_pair {high low : Text} {ps : List Piece} (h : IsHigh (unit high)) :
    contents (.code high :: .code low :: ps) = pairChar (unit high) (unit low) :: contents ps :=
  if_pos h

/-- The pieces are read from the front, one or two at a time. -/
theorem pieces_induction {motive : List Piece → Prop} (nil : motive [])
    (alone : ∀ p ps, Alone p ps → motive ps → motive (p :: ps))
    (pair : ∀ high low ps, IsHigh (unit high) → motive ps →
      motive (.code high :: .code low :: ps)) (ps : List Piece) : motive ps := by
  induction ps using contents.induct with
  | case1 high low ps h ih => exact pair high low ps h ih
  | case2 high low ps h ih =>
    exact alone _ _ (fun _ _ _ hp _ => Piece.code.inj hp ▸ h) ih
  | case3 p ps hne ih =>
    refine alone p ps (fun high low qs hp hps => ?_) ih
    exact (hne high low qs hp hps).elim
  | case4 => exact nil

/-! ## Reading pieces -/

theorem mem_shortEscapes_iff {e c : Char} :
    (e, c) ∈ shortEscapes ↔ e ≠ 'u' ∧ shortEscape? e = some c := by
  constructor
  · intro h
    have : ∀ p ∈ shortEscapes, p.1 ≠ 'u' ∧ shortEscape? p.1 = some p.2 := by decide
    exact this _ h
  · rintro ⟨-, h⟩
    unfold shortEscape? at h
    split_ifs at h with h₁
    · obtain rfl := Option.some.inj h
      rcases h₁ with rfl | rfl | rfl <;> simp [shortEscapes]
    all_goals
      obtain rfl := Option.some.inj h
      simp_all [shortEscapes]

/-- The text of pieces and the quote behind them. -/
def closing (ps : List Piece) (rest : Text) : Text :=
  ps.flatMap Piece.text ++ '"' :: rest

theorem closing_cons (p : Piece) (ps : List Piece) (rest : Text) :
    closing (p :: ps) rest = p.text ++ closing ps rest := by
  simp [closing]

/-- Only a code begins like one. -/
theorem closing_ne_code {ps : List Piece} (h : ∀ p ∈ ps, p.Lenient)
    (hs : ∀ low qs, ps ≠ .code low :: qs) (rest u : Text) :
    closing ps rest ≠ '\\' :: 'u' :: u := by
  cases ps with
  | nil => simp [closing]
  | cons p ps =>
    have hp := h p (by simp)
    rw [closing_cons]
    cases p with
    | raw c => simp [Piece.text, hp.2]
    | short letter c => simp [Piece.text, (mem_shortEscapes_iff.1 hp).1]
    | code digits => exact absurd rfl (hs digits ps)

/-- A piece that takes nothing with it is read in one step. -/
theorem stringContent_alone {p : Piece} (hp : p.Lenient) {rest : Text}
    (hs : ∀ digits, p = .code digits → IsHigh (unit digits) → ∀ u, rest ≠ '\\' :: 'u' :: u)
    (fuel o : Nat) :
    ∃ o', stringContent (fuel + 1) ⟨p.text ++ rest, o⟩ =
      (stringContent fuel ⟨rest, o'⟩).map fun (t, d) => (p.char :: t, d) := by
  cases p with
  | raw c =>
    refine ⟨o + Text.byteLength [c], ?_⟩
    simp [Piece.text, Piece.char, stringContent, Cursor.drop, Except.map, bind, Except.bind,
      hp.1, hp.2]
  | short letter c =>
    obtain ⟨hu, he⟩ := mem_shortEscapes_iff.1 hp
    refine ⟨o + Text.byteLength ['\\', letter], ?_⟩
    simp [Piece.text, Piece.char, stringContent, he, Cursor.drop, Except.map, bind, Except.bind]
  | code digits =>
    have hdrop : (⟨'\\' :: 'u' :: (digits ++ rest), o⟩ : Cursor).drop 2 =
        ⟨digits ++ rest, o + 2⟩ := rfl
    refine ⟨o + 2 + 4, ?_⟩
    simp [Piece.text, Piece.char, stringContent, hdrop, readCode_single hp (hs digits rfl),
      Except.map, bind, Except.bind]

/-- A high surrogate is read together with the code behind it. -/
theorem stringContent_pair {high low : Text} (hh : (Piece.code high).Lenient)
    (hl : (Piece.code low).Lenient) (hs : IsHigh (unit high)) (rest : Text) (fuel o : Nat) :
    ∃ o', stringContent (fuel + 1)
        ⟨(Piece.code high).text ++ ((Piece.code low).text ++ rest), o⟩ =
      (stringContent fuel ⟨rest, o'⟩).map fun (t, d) =>
        (pairChar (unit high) (unit low) :: t, d) := by
  have hdrop : (⟨'\\' :: 'u' :: (high ++ '\\' :: 'u' :: (low ++ rest)), o⟩ : Cursor).drop 2 =
      ⟨high ++ '\\' :: 'u' :: (low ++ rest), o + 2⟩ := rfl
  obtain ⟨o', hread⟩ := readCode_pair hh hl hs rest (o + 2)
  refine ⟨o', ?_⟩
  simp [Piece.text, stringContent, hdrop, hread, Except.map, bind, Except.bind]

/-- Pieces are read up to the quote behind them. -/
theorem stringContent_pieces {ps : List Piece} (h : ∀ p ∈ ps, p.Lenient) (rest : Text) :
    ∀ fuel o, ps.length < fuel →
      ∃ o', stringContent fuel ⟨closing ps rest, o⟩ = .ok (contents ps, ⟨rest, o'⟩) := by
  induction ps using pieces_induction with
  | nil =>
    intro fuel o hf
    obtain ⟨fuel, rfl⟩ := Nat.exists_eq_add_one.2 hf
    exact ⟨_, by rw [closing, List.flatMap_nil, List.nil_append, stringContent]; rfl⟩
  | alone p ps ha ih =>
    intro fuel o hf
    obtain ⟨fuel, rfl⟩ := Nat.exists_eq_add_one.2 (Nat.zero_lt_of_lt hf)
    have hps : ∀ q ∈ ps, q.Lenient := fun q hq => h q (by simp [hq])
    have hne : ∀ digits, p = .code digits → IsHigh (unit digits) →
        ∀ u, closing ps rest ≠ '\\' :: 'u' :: u := fun digits hd hh =>
      closing_ne_code hps (fun low qs hq => ha digits low qs hd hq hh) rest
    obtain ⟨o₁, h₁⟩ := stringContent_alone (h p (by simp)) hne fuel o
    obtain ⟨o₂, h₂⟩ := ih hps fuel o₁ (by simpa using hf)
    exact ⟨o₂, by rw [closing_cons, h₁, h₂, contents_alone ha]; rfl⟩
  | pair high low ps hs ih =>
    intro fuel o hf
    obtain ⟨fuel, rfl⟩ := Nat.exists_eq_add_one.2 (Nat.zero_lt_of_lt hf)
    obtain ⟨o₁, h₁⟩ := stringContent_pair (h _ (by simp)) (h (.code low) (by simp)) hs
      (closing ps rest) fuel o
    obtain ⟨o₂, h₂⟩ := ih (fun q hq => h q (by simp [hq])) fuel o₁ (by
      simp only [List.length_cons] at hf
      omega)
    exact ⟨o₂, by rw [closing_cons, closing_cons, h₁, h₂, contents_pair hs]; rfl⟩

theorem length_le_closing (ps : List Piece) (rest : Text) :
    ps.length ≤ (closing ps rest).length := by
  induction ps with
  | nil => simp
  | cons p ps ih =>
    have hp : 1 ≤ p.text.length := by cases p <;> simp [Piece.text]
    rw [closing_cons, List.length_append, List.length_cons]
    omega

theorem quoted_append (ps : List Piece) (rest : Text) :
    quoted ps ++ rest = '"' :: closing ps rest := by
  simp [quoted, closing]

/-- A string is read to its closing quote. -/
theorem readString_pieces {ps : List Piece} (h : ∀ p ∈ ps, p.Lenient) {blanks : Text}
    (hb : IsBlank blanks) (rest : Text) (o : Nat) :
    ∃ o', readString ⟨blanks ++ (quoted ps ++ rest), o⟩ = .ok (contents ps, ⟨rest, o'⟩) := by
  rw [quoted_append]
  obtain ⟨o₁, h₁⟩ := expect_eq (u := closing ps rest) (c := '"') hb (by decide) o
  obtain ⟨o₂, h₂⟩ := stringContent_pieces h rest ((closing ps rest).length + 1) o₁
    (Nat.lt_succ_of_le (length_le_closing ps rest))
  exact ⟨o₂, by rw [readString, h₁]; exact h₂⟩

/-! ## What was read -/

/-- Whatever is read up to a quote is made of pieces. -/
theorem pieces_of_stringContent {t : Text} {d : Cursor} :
    ∀ fuel c, stringContent fuel c = .ok (t, d) →
      ∃ ps, (∀ p ∈ ps, p.Lenient) ∧ c.rest = closing ps d.rest := by
  intro fuel
  induction fuel generalizing t with
  | zero => simp [stringContent]
  | succ fuel ih =>
    -- what is behind a piece is made of pieces as well
    have hstep : ∀ {p : Piece} {c₁ : Cursor} {rest u : Text}, p.Lenient →
        rest = p.text ++ c₁.rest → stringContent fuel c₁ = .ok (u, d) →
        ∃ ps, (∀ p ∈ ps, p.Lenient) ∧ rest = closing ps d.rest := by
      intro p c₁ rest u hp hrest h
      obtain ⟨ps, hps, hc⟩ := ih c₁ h
      exact ⟨p :: ps, by simpa using ⟨hp, hps⟩, by rw [closing_cons, hrest, hc]⟩
    intro c h
    obtain ⟨rest, o⟩ := c
    rw [stringContent] at h
    simp only at h
    split at h
    · simp at h
    · next rest =>
      simp only [Except.ok.injEq, Prod.mk.injEq] at h
      exact ⟨[], by simp, by rw [← h.2]; rfl⟩
    · next rest =>
      split at h
      · simp at h
      · next rest =>
        obtain ⟨⟨ch, c₁⟩, hcode, h⟩ := exists_of_bind_ok h
        obtain ⟨⟨u, d'⟩, hu, h⟩ := exists_of_bind_ok h
        obtain rfl := snd_eq_of_ok h
        have hrest : rest = (Cursor.drop 2 ⟨'\\' :: 'u' :: rest, o⟩).rest := rfl
        rcases lenient_of_readCode hcode with ⟨digits, hd, hc⟩ | ⟨high, low, hh, hl, hc⟩
        · exact hstep hd (by rw [hrest, hc]; rfl) hu
        · obtain ⟨ps, hps, hc₁⟩ := hstep hl rfl hu
          refine ⟨.code high :: ps, List.forall_mem_cons.2 ⟨hh, hps⟩, ?_⟩
          rw [closing_cons, ← hc₁, hrest, hc]
          simp [Piece.text]
      · next e rest hne =>
        split at h
        · simp at h
        · next ch he =>
          obtain ⟨⟨u, d'⟩, hu, h⟩ := exists_of_bind_ok h
          obtain rfl := snd_eq_of_ok h
          have hp : (Piece.short e ch).Lenient := mem_shortEscapes_iff.2 ⟨hne, he⟩
          exact hstep hp rfl hu
    · next ch rest hquote hback =>
      obtain ⟨⟨u, d'⟩, hu, h⟩ := exists_of_bind_ok h
      obtain rfl := snd_eq_of_ok h
      have hp : (Piece.raw ch).Lenient := ⟨by simpa using hquote, by simpa using hback⟩
      exact hstep hp rfl hu

/-- Whatever is read as a string is one. -/
theorem isString_of_readString {c d : Cursor} {t : Text} (h : readString c = .ok (t, d)) :
    ∃ blanks u, IsBlank blanks ∧ Lexicon.lenient.IsString u ∧ c.rest = blanks ++ (u ++ d.rest) := by
  obtain ⟨c₁, he, h⟩ := exists_of_bind_ok h
  obtain ⟨blanks, hb, hc⟩ := rest_of_expect he
  obtain ⟨ps, hps, hc₁⟩ := pieces_of_stringContent _ _ h
  exact ⟨blanks, quoted ps, hb, ⟨ps, hps, rfl⟩, by rw [quoted_append, hc, hc₁]⟩

end Json

end CrossEdition
