import CrossEdition.Json.Reader
import CrossEdition.Proofs.Decimal.Spelling
import CrossEdition.Proofs.Json.Sentences

/-!
# Numbers are read to their end

The longest start of a text that looks like a number is cut off and read as a literal. It is a
number of the lenient lexicon whenever it is read, and such a number is read as what it denotes
if what follows does not continue it.

Results:
* `Lenient.numberPart_text`: a number is cut off to its end.
* `exists_scanned`: the parts of whatever is cut off.
* `Lenient.ofText?_text`, `Scanned.lenient`: which of it is read, and as what.
* `readNumber_text`, `lenient_of_readNumber`: both for a number at a cursor.
-/

namespace CrossEdition

namespace Json

/-- Whether a text does not continue a number. -/
def Stops (t : Text) : Prop :=
  ∀ c ∈ t.head?, c.isDigit = false ∧ c ≠ '.' ∧ c ≠ 'e' ∧ c ≠ 'E'

theorem stops_nil : Stops [] := by
  simp [Stops]

/-! ## Behind the sign -/

/-- The fraction at the start of a text, complete or not, and what follows it. -/
def fractionPart : Text → Text × Text
  | '.' :: rest => ('.' :: rest.takeWhile Char.isDigit, rest.dropWhile Char.isDigit)
  | rest => ([], rest)

/-- Reading a literal leaves out the point. -/
theorem fraction_eq (t : Text) :
    Decimal.fraction t = ((fractionPart t).1.tail, (fractionPart t).2) := by
  cases t with
  | nil => rfl
  | cons c t =>
    by_cases hc : c = '.'
    · rw [hc]
      rfl
    · simp [Decimal.fraction, fractionPart, hc]

/-- What is cut off behind the sign, and what follows it. -/
def unsignedPart (t : Text) : Text × Text :=
  let (fraction, rest) := fractionPart (t.dropWhile Char.isDigit)
  let (exponent, rest) := exponentPart rest
  (t.takeWhile Char.isDigit ++ (fraction ++ exponent), rest)

theorem numberPart_minus (t : Text) :
    numberPart ('-' :: t) = ('-' :: (unsignedPart t).1, (unsignedPart t).2) := by
  simp only [numberPart, List.append_assoc]
  rfl

theorem numberPart_of_ne {t : Text} (h : ∀ c ∈ t.head?, c ≠ '-') :
    numberPart t = unsignedPart t := by
  rw [numberPart]
  · simp only [List.append_assoc]
    rfl
  · rintro rest rfl
    exact h '-' rfl rfl

namespace NumberSpelling

variable {n : NumberSpelling}

/-- The text of the exponent. -/
def exponentText (n : NumberSpelling) : Text :=
  (n.exponent.map fun (e, sign, digits) => e :: (sign ++ digits)).getD []

/-- The text of the fraction. -/
def partText (n : NumberSpelling) : Text :=
  (n.part.map ('.' :: ·)).getD []

/-- The text behind the sign. -/
def body (n : NumberSpelling) : Text :=
  n.whole ++ (n.partText ++ n.exponentText)

theorem text_eq (n : NumberSpelling) :
    n.text = (if n.negative then ['-'] else []) ++ n.body :=
  rfl

theorem Valid.lenient (h : n.Valid) : n.Lenient :=
  (valid_iff.1 h).1

/-! ## Cutting off a number -/

/-- An exponent, or what follows the number, is no digit and no point. -/
theorem Scanned.head_exponent (h : n.Scanned) {rest : Text} (hr : Stops rest) :
    ∀ c ∈ (n.exponentText ++ rest).head?, c.isDigit = false ∧ c ≠ '.' := by
  cases he : n.exponent with
  | none =>
    rw [exponentText, he]
    exact fun c hc => ⟨(hr c hc).1, (hr c hc).2.1⟩
  | some e =>
    obtain ⟨letter, sign, digits⟩ := e
    obtain ⟨hl, -, -⟩ := h.exponent _ he
    rw [exponentText, he]
    intro c hc
    rw [← Option.some.inj hc]
    rcases hl with hl | hl <;> (simp only at hl; rw [hl]; decide)

theorem Scanned.head_part (h : n.Scanned) {rest : Text} (hr : Stops rest) :
    ∀ c ∈ (n.partText ++ (n.exponentText ++ rest)).head?, c.isDigit = false := by
  cases hp : n.part with
  | none =>
    rw [partText, hp]
    exact fun c hc => (h.head_exponent hr c hc).1
  | some digits =>
    rw [partText, hp]
    intro c hc
    rw [← Option.some.inj hc]
    decide

/-- Behind the sign stands no other sign. -/
theorem Scanned.head_body (h : n.Scanned) : ∀ c ∈ n.body.head?, c ≠ '-' ∧ c ≠ '+' := by
  have hsign : ∀ d : Char, d.isDigit = true → d ≠ '-' ∧ d ≠ '+' := fun d hd =>
    Numeral.Spelling.ne_sign_of_body (.inl hd)
  intro c hc
  rw [body] at hc
  cases hw : n.whole with
  | cons d whole =>
    rw [hw] at hc
    exact Option.some.inj hc ▸ hsign d (h.whole d (by simp [hw]))
  | nil =>
    rw [hw, List.nil_append] at hc
    cases hp : n.part with
    | some digits =>
      rw [partText, hp] at hc
      rw [← Option.some.inj hc]
      decide
    | none =>
      rw [partText, hp] at hc
      cases he : n.exponent with
      | none => simp [exponentText, he] at hc
      | some e =>
        obtain ⟨hl, -, -⟩ := h.exponent _ he
        rw [exponentText, he] at hc
        rw [← Option.some.inj hc]
        rcases hl with hl | hl <;> (rw [hl]; decide)

theorem exponentPart_of_stops {rest : Text} (hr : Stops rest) :
    Json.exponentPart rest = ([], rest) := by
  cases rest with
  | nil => rfl
  | cons c rest =>
    obtain ⟨-, -, h₁, h₂⟩ := hr c rfl
    simp [Json.exponentPart, h₁, h₂]

/-- The exponent is cut off to its end. -/
theorem Lenient.exponentPart_text (h : n.Lenient) {rest : Text} (hr : Stops rest) :
    Json.exponentPart (n.exponentText ++ rest) = (n.exponentText, rest) := by
  cases he : n.exponent with
  | none =>
    rw [exponentText, he]
    exact exponentPart_of_stops hr
  | some e =>
    obtain ⟨letter, sign, digits⟩ := e
    obtain ⟨hl, hs, hd⟩ := h.exponent _ he
    obtain ⟨ht, hdrop⟩ := Numeral.takeWhile_digits hd fun c hc => (hr c hc).1
    rw [exponentText, he]
    simp only [Option.map_some, Option.getD_some, List.cons_append, List.append_assoc] at hl ⊢
    rcases hs with rfl | rfl | rfl
    · -- without a sign the digits come at once
      obtain ⟨c, digits, rfl⟩ := List.exists_cons_of_ne_nil (h.power _ he)
      obtain ⟨h₁, h₂⟩ := Numeral.Spelling.ne_sign_of_body (.inl (hd c (by simp)))
      simp only [List.cons_append] at ht hdrop
      simp [Json.exponentPart, hl, h₁, h₂, ht, hdrop]
    · simp [Json.exponentPart, hl, ht, hdrop]
    · simp [Json.exponentPart, hl, ht, hdrop]

/-- The fraction is cut off to its end. -/
theorem Scanned.fractionPart_text (h : n.Scanned) {rest : Text} (hr : Stops rest) :
    fractionPart (n.partText ++ (n.exponentText ++ rest)) =
      (n.partText, n.exponentText ++ rest) := by
  have hhead := h.head_exponent hr
  cases hp : n.part with
  | none =>
    rw [partText, hp]
    generalize n.exponentText ++ rest = u at *
    cases u with
    | nil => rfl
    | cons c u => simp [fractionPart, (hhead c rfl).2]
  | some digits =>
    obtain ⟨ht, hd⟩ := Numeral.takeWhile_digits (h.part digits hp) fun c hc => (hhead c hc).1
    simp [partText, hp, fractionPart, ht, hd]

/-- What stands behind the sign is cut off to its end. -/
theorem Lenient.unsignedPart_body (h : n.Lenient) {rest : Text} (hr : Stops rest) :
    unsignedPart (n.body ++ rest) = (n.body, rest) := by
  have hbody : n.body ++ rest = n.whole ++ (n.partText ++ (n.exponentText ++ rest)) := by
    simp [body]
  obtain ⟨hw, hdw⟩ := Numeral.takeWhile_digits h.whole (h.head_part hr)
  rw [← hbody] at hw hdw
  simp only [unsignedPart, hw, hdw, h.fractionPart_text hr, h.exponentPart_text hr]
  rfl

/-- Behind the sign stands a digit or a point. -/
theorem Lenient.exists_body (h : n.Lenient) :
    ∃ c u, n.body = c :: u ∧ (c.isDigit = true ∨ c = '.') := by
  cases hw : n.whole with
  | cons c whole => exact ⟨c, _, by rw [body, hw]; rfl, .inl (h.whole c (by simp [hw]))⟩
  | nil =>
    cases hp : n.part with
    | none => simpa [hw, hp] using h.digits
    | some digits => exact ⟨'.', _, by rw [body, hw, partText, hp]; rfl, .inr rfl⟩

/-- A number begins with a minus sign or a digit. -/
theorem Lenient.head_text (h : n.Lenient) :
    ∃ c u, n.text = c :: u ∧ (c = '-' ∨ c.isDigit = true) := by
  cases hn : n.negative with
  | true => exact ⟨'-', n.body, by simp [text_eq, hn], .inl rfl⟩
  | false =>
    -- without a sign there are digits in front of the point
    have hw : n.whole ≠ [] := fun hw => by simpa [hn] using h.sign hw
    obtain ⟨c, whole, hw⟩ := List.exists_cons_of_ne_nil hw
    exact ⟨c, _, by rw [text_eq, hn, body, hw]; rfl, .inr (h.whole c (by simp [hw]))⟩

/-- A number is cut off to its end. -/
theorem Lenient.numberPart_text (h : n.Lenient) {rest : Text} (hr : Stops rest) :
    numberPart (n.text ++ rest) = (n.text, rest) := by
  have hbody := h.unsignedPart_body hr
  cases hn : n.negative with
  | true => simp [text_eq, hn, numberPart_minus, hbody]
  | false =>
    obtain ⟨c, u, hu, -⟩ := h.exists_body
    have hhead : ∀ c ∈ (n.body ++ rest).head?, c ≠ '-' := by
      simpa [hu] using (h.toScanned.head_body c (by simp [hu])).1
    simp [text_eq, hn, numberPart_of_ne hhead, hbody]

/-! ## Literals -/

theorem Scanned.splitSign_text (h : n.Scanned) : splitSign n.text = (n.negative, n.body) := by
  rw [text_eq, Numeral.splitSign_append_body _ h.head_body]
  · cases n.negative <;> rfl
  · cases n.negative <;> simp

theorem Scanned.fraction_text (h : n.Scanned) :
    Decimal.fraction (n.partText ++ n.exponentText) = (n.part.getD [], n.exponentText) := by
  have htail : n.partText.tail = n.part.getD [] := by
    cases hp : n.part <;> simp [partText, hp]
  have hpart := h.fractionPart_text stops_nil
  rw [List.append_nil] at hpart
  rw [fraction_eq, hpart, htail]

/-- How what is cut off is read as a literal. -/
theorem Scanned.ofText?_text (h : n.Scanned) :
    Decimal.ofText? n.text =
      if n.whole = [] ∧ n.part.getD [] = [] then none
      else (Decimal.exponent? n.exponentText).map fun e =>
        ⟨n.negative, natOfDigits (n.whole ++ n.part.getD []), e - (n.part.getD []).length⟩ := by
  obtain ⟨hw, hdw⟩ := Numeral.takeWhile_digits h.whole (h.head_part stops_nil)
  rw [List.append_nil] at hw hdw
  rw [← body] at hw hdw
  simp only [Decimal.ofText?, h.splitSign_text, hw, hdw, h.fraction_text]

/-- The sign and the digits of an exponent. -/
theorem Scanned.splitSign_exponent (h : n.Scanned) {letter : Char} {sign digits : Text}
    (he : n.exponent = some (letter, sign, digits)) :
    splitSign (sign ++ digits) = (decide (sign = ['-']), digits) := by
  obtain ⟨-, hs, hd⟩ := h.exponent _ he
  exact Numeral.splitSign_append_body hs fun c hc =>
    Numeral.Spelling.ne_sign_of_body (.inl (hd c (List.mem_of_mem_head? hc)))

/-- An exponent is read as its power if it has digits, and not at all if it has none. -/
theorem Scanned.exponent?_text (h : n.Scanned) :
    Decimal.exponent? n.exponentText =
      if n.exponent.all (fun e => e.2.2 ≠ []) then some n.power else none := by
  cases he : n.exponent with
  | none => simp [exponentText, power, he, Decimal.exponent?]
  | some e =>
    obtain ⟨letter, sign, digits⟩ := e
    obtain ⟨hl, -, hd⟩ := h.exponent _ he
    have hall : digits.all Char.isDigit = true := List.all_eq_true.2 hd
    simp only [exponentText, power, he, Option.map_some, Option.getD_some, Decimal.exponent?,
      h.splitSign_exponent he, hall, Option.all_some]
    by_cases hne : digits = []
    · simp [hne]
    · simp only [hl, hne, ne_eq, not_false_eq_true, and_self, if_true, decide_true]
      split_ifs <;> simp_all

/-- A number is read as what it denotes. -/
theorem Lenient.ofText?_text (h : n.Lenient) : Decimal.ofText? n.text = some n.decimal := by
  have hexp : n.exponent.all (fun e => e.2.2 ≠ []) = true :=
    (Option.all_eq_true _ _).2 fun e he => by simpa using h.power e he
  have hdigits : ¬ (n.whole = [] ∧ n.part.getD [] = []) := by
    have := h.digits
    tauto
  rw [h.toScanned.ofText?_text, if_neg hdigits, h.exponent?_text, if_pos hexp]
  rfl

/-- No letter of a word begins a number behind its sign. -/
theorem toLower_ne_of_body {c : Char} (h : c.isDigit = true ∨ c = '.') :
    c.toLower ≠ 'n' ∧ c.toLower ≠ 'i' := by
  have hall : ∀ c : Char, c.toNat < 58 → c.isDigit = true ∨ c = '.' →
      c.toLower ≠ 'n' ∧ c.toLower ≠ 'i' := Text.forall_char_of_lt (by decide)
  refine hall c ?_ h
  rcases h with h | rfl
  · exact Nat.lt_succ_of_le (Numeral.isDigit_iff.1 h).2
  · decide

/-- It is the double that the literal is read as, the words for infinity and NaN being no
    numbers. -/
theorem Lenient.double_text (h : n.Lenient) :
    Double.ofText? n.text = some n.decimal.toDouble := by
  obtain ⟨c, u, hu, hc⟩ := h.exists_body
  have hletter := toLower_ne_of_body hc
  have hword : ∀ word : Text, (word.head? = some 'n' ∨ word.head? = some 'i') →
      n.body.map Char.toLower ≠ word := by
    rintro word hw rfl
    rw [hu] at hw
    rcases hw with hw | hw
    · exact hletter.1 (Option.some.inj hw)
    · exact hletter.2 (Option.some.inj hw)
  simp only [Double.ofText?, h.toScanned.splitSign_text, h.ofText?_text,
    if_neg (hword "nan" (.inl rfl)), Option.map_some]
  rw [if_neg]
  rintro (hw | hw)
  · exact hword "inf" (.inr rfl) hw
  · exact hword "infinity" (.inr rfl) hw

/-- Whatever is read as a literal and begins like a number is one. -/
theorem Scanned.lenient (h : n.Scanned) (hread : (Decimal.ofText? n.text).isSome = true)
    (hhead : ∀ c ∈ n.text.head?, c = '-' ∨ c.isDigit = true) : n.Lenient := by
  rw [h.ofText?_text, h.exponent?_text] at hread
  split_ifs at hread with hdigits hexp
  · simp at hread
  · refine ⟨h, by tauto, fun hw => ?_, fun e he => ?_⟩
    · -- a point at the very start is no number
      by_contra hn
      obtain ⟨digits, hp⟩ : ∃ digits, n.part = some digits := by
        rw [← Option.ne_none_iff_exists']
        rintro hp
        simp [hw, hp] at hdigits
      have := hhead '.' (by simp [text_eq, body, partText, hn, hw, hp])
      simp at this
    · simpa using (Option.all_eq_true _ _).1 hexp e he
  · simp at hread

end NumberSpelling

/-! ## Any start of a text -/

theorem exponentPart_append (t : Text) :
    ∃ exponent : Option (Char × Text × Text),
      (∀ e ∈ exponent, (e.1 = 'e' ∨ e.1 = 'E') ∧ (e.2.1 = [] ∨ e.2.1 = ['-'] ∨ e.2.1 = ['+']) ∧
        ∀ c ∈ e.2.2, c.isDigit = true) ∧
      (exponentPart t).1 = (exponent.map fun (e, sign, digits) => e :: (sign ++ digits)).getD [] ∧
      t = (exponentPart t).1 ++ (exponentPart t).2 := by
  have hd : ∀ u : Text, ∀ c ∈ u.takeWhile Char.isDigit, c.isDigit = true :=
    fun u c hc => List.mem_takeWhile_imp hc
  cases t with
  | nil => exact ⟨none, by simp, rfl, rfl⟩
  | cons e t =>
    by_cases he : e = 'e' ∨ e = 'E'
    · simp only [exponentPart, if_pos he]
      split
      · next u => exact ⟨some (e, ['+'], _), by simpa using ⟨he, hd u⟩, rfl, by simp⟩
      · next u => exact ⟨some (e, ['-'], _), by simpa using ⟨he, hd u⟩, rfl, by simp⟩
      · exact ⟨some (e, [], _), by simpa using ⟨he, hd t⟩, rfl, by simp⟩
    · exact ⟨none, by simp, by simp [exponentPart, he], by simp [exponentPart, he]⟩

theorem fractionPart_append (t : Text) :
    ∃ part : Option Text, (∀ digits ∈ part, ∀ c ∈ digits, c.isDigit = true) ∧
      (fractionPart t).1 = (part.map ('.' :: ·)).getD [] ∧
      t = (fractionPart t).1 ++ (fractionPart t).2 := by
  unfold fractionPart
  split
  · next u =>
    exact ⟨some (u.takeWhile Char.isDigit),
      by simpa using fun c hc => List.mem_takeWhile_imp hc, rfl, by simp⟩
  · exact ⟨none, by simp, rfl, rfl⟩

/-- What is cut off behind the sign, in its parts. -/
theorem exists_unsigned (t : Text) (negative : Bool) :
    ∃ n : NumberSpelling, n.Scanned ∧ n.negative = negative ∧ (unsignedPart t).1 = n.body ∧
      t = n.body ++ (unsignedPart t).2 := by
  obtain ⟨part, hpd, hp, hpt⟩ := fractionPart_append (t.dropWhile Char.isDigit)
  obtain ⟨exponent, hed, he, het⟩ :=
    exponentPart_append (fractionPart (t.dropWhile Char.isDigit)).2
  have hbody : (unsignedPart t).1 =
      (⟨negative, t.takeWhile Char.isDigit, part, exponent⟩ : NumberSpelling).body := by
    simp only [unsignedPart, hp, he]
    rfl
  refine ⟨⟨negative, t.takeWhile Char.isDigit, part, exponent⟩,
    ⟨fun c hc => List.mem_takeWhile_imp hc, hpd, hed⟩, rfl, hbody, ?_⟩
  rw [← hbody]
  calc t = t.takeWhile Char.isDigit ++ t.dropWhile Char.isDigit :=
        List.takeWhile_append_dropWhile.symm
    _ = (unsignedPart t).1 ++ (unsignedPart t).2 := by
        rw [hpt, het]
        simp [unsignedPart]

/-- What is cut off from a text, in its parts. -/
theorem exists_scanned (t : Text) :
    ∃ n : NumberSpelling, n.Scanned ∧ (numberPart t).1 = n.text ∧
      t = n.text ++ (numberPart t).2 := by
  by_cases hm : ∃ u, t = '-' :: u
  · obtain ⟨u, rfl⟩ := hm
    obtain ⟨n, hn, hneg, hb, hu⟩ := exists_unsigned u true
    refine ⟨n, hn, by simp [numberPart_minus, NumberSpelling.text_eq, hneg, hb], ?_⟩
    simpa [numberPart_minus, NumberSpelling.text_eq, hneg] using hu
  · have hhead : ∀ c ∈ t.head?, c ≠ '-' := by
      rintro c hc rfl
      cases t with
      | nil => simp at hc
      | cons d u => exact hm ⟨u, by simpa using hc⟩
    obtain ⟨n, hn, hneg, hb, ht⟩ := exists_unsigned t false
    refine ⟨n, hn, by simp [numberPart_of_ne hhead, NumberSpelling.text_eq, hneg, hb], ?_⟩
    simpa [numberPart_of_ne hhead, NumberSpelling.text_eq, hneg] using ht

/-! ## At a cursor -/

/-- A number is read to its end and as what it denotes. -/
theorem readNumber_text {n : NumberSpelling} (h : n.Lenient) {rest : Text} (hr : Stops rest)
    (o : Nat) : ∃ o', readNumber ⟨n.text ++ rest, o⟩ = .ok (n.decimal.toDouble, ⟨rest, o'⟩) :=
  ⟨o + n.text.length, by rw [readNumber, h.numberPart_text hr]; simp only [h.ofText?_text]⟩

/-- Whatever is read as a number where one may begin is a number. -/
theorem lenient_of_readNumber {c d : Cursor} {v : Double}
    (hhead : ∀ ch ∈ c.rest.head?, ch = '-' ∨ ch.isDigit = true)
    (h : readNumber c = .ok (v, d)) :
    ∃ n : NumberSpelling, n.Lenient ∧ c.rest = n.text ++ d.rest := by
  obtain ⟨n, hn, hcut, ht⟩ := exists_scanned c.rest
  simp only [readNumber, hcut] at h
  split at h
  · next decimal hread =>
    simp only [Except.ok.injEq, Prod.mk.injEq] at h
    obtain ⟨-, rfl⟩ := h
    refine ⟨n, hn.lenient (by rw [hread]; rfl) ?_, ht⟩
    intro ch hch
    refine hhead ch ?_
    rw [ht, List.head?_append, hch]
    rfl
  · simp at h

end Json

end CrossEdition
