import CrossEdition.Decimal.Numeral
import CrossEdition.Proofs.Decimal.Rounding
import CrossEdition.Proofs.Text.Scan
import Mathlib.Data.List.DropRight

/-!
# The spelling of numerals

A numeral is a sign, digits, and perhaps a point with more digits behind it. Taken apart
like this it can be normalized part by part.

Results:
* `isNumeral_iff_spelling`: the numerals are exactly the texts of valid spellings.
* `Valid.normalize_text`: normalizing a numeral normalizes its spelling.
* `scaled_normalize`, `compare?_normalize`: normalizing keeps the value.
* `normalize_normalize`: normalizing twice is normalizing once.
* `cutDots_normalize`: a normalized numeral stays apart from two points behind it.
-/

namespace CrossEdition

namespace Numeral

/-- The parts of a numeral. -/
structure Spelling where
  sign : Text
  /-- The digits in front of the point. -/
  whole : Text
  /-- The digits behind the point, if there is one. -/
  part : Option Text

namespace Spelling

/-- The text with these parts. -/
def text (s : Spelling) : Text :=
  s.sign ++ (s.whole ++ (s.part.map ('.' :: ·)).getD [])

/-- The digits on both sides of the point. -/
def digits (s : Spelling) : Text :=
  s.whole ++ s.part.getD []

/-- Whether the parts are those of a numeral. -/
structure Valid (s : Spelling) : Prop where
  sign : s.sign = [] ∨ s.sign = ['-'] ∨ s.sign = ['+']
  digits : ∀ c ∈ s.digits, c.isDigit = true
  ne_nil : s.digits ≠ []

/-- The number that the parts denote. -/
def decimal (s : Spelling) : Decimal :=
  ⟨s.sign = ['-'], natOfDigits s.digits, -((s.part.getD []).length : Int)⟩

/-- The parts without needless zeros. -/
def normal (s : Spelling) : Spelling :=
  match s.part with
  | none => s
  | some part =>
    if Text.dropEndWhile (· = '0') part ≠ [] then
      { s with part := some (Text.dropEndWhile (· = '0') part) }
    else if s.whole = [] then ⟨[], ['0'], none⟩
    else { s with part := none }

end Spelling

/-! ## Reading numerals -/

theorem isDigit_iff {c : Char} : c.isDigit = true ↔ 48 ≤ c.toNat ∧ c.toNat ≤ 57 := by
  simp only [Char.isDigit, Bool.and_eq_true, decide_eq_true_eq, ge_iff_le, UInt32.le_iff_toNat_le]
  rfl

theorem takeWhile_digits {t u : Text} (ht : ∀ c ∈ t, c.isDigit = true)
    (hu : ∀ c ∈ u.head?, c.isDigit = false) :
    (t ++ u).takeWhile Char.isDigit = t ∧ (t ++ u).dropWhile Char.isDigit = u := by
  have h1 : u.takeWhile Char.isDigit = [] ∧ u.dropWhile Char.isDigit = u := by
    cases u with
    | nil => simp
    | cons c u => simp [hu c (by simp)]
  rw [List.takeWhile_append_of_pos ht, List.dropWhile_append_of_pos ht, h1.1, h1.2]
  simp

/-- Splitting off the sign of a text that begins with a digit or a point behind it. -/
theorem splitSign_append_body {sign body : Text}
    (hs : sign = [] ∨ sign = ['-'] ∨ sign = ['+'])
    (hb : ∀ c ∈ body.head?, c ≠ '-' ∧ c ≠ '+') :
    splitSign (sign ++ body) = (decide (sign = ['-']), body) := by
  rcases hs with rfl | rfl | rfl
  · cases body with
    | nil => rfl
    | cons c body =>
      obtain ⟨h1, h2⟩ := hb c (by simp)
      rw [List.nil_append, splitSign]
      · simp
      · simpa using h1
      · simpa using h2
  · rfl
  · rfl

namespace Spelling

variable {s : Spelling}

theorem Valid.whole (h : s.Valid) : ∀ c ∈ s.whole, c.isDigit = true :=
  fun c hc => h.digits c (by simp [Spelling.digits, hc])

theorem Valid.part (h : s.Valid) {part : Text} (hp : s.part = some part) :
    ∀ c ∈ part, c.isDigit = true :=
  fun c hc => h.digits c (by simp [Spelling.digits, hp, hc])

/-- The body of a numeral begins with a digit or a point. -/
theorem Valid.head_body (h : s.Valid) :
    ∀ c ∈ (s.whole ++ (s.part.map ('.' :: ·)).getD []).head?, c.isDigit = true ∨ c = '.' := by
  intro c hc
  cases hw : s.whole with
  | cons d whole =>
    simp only [hw, List.cons_append, List.head?_cons, Option.mem_def, Option.some.injEq] at hc
    exact .inl (h.whole c (by simp [hw, hc]))
  | nil =>
    cases hp : s.part with
    | none => simp [hw, hp] at hc
    | some part =>
      simp only [hw, hp, List.nil_append, Option.map_some, Option.getD_some, List.head?_cons,
        Option.mem_def, Option.some.injEq] at hc
      exact .inr hc.symm

theorem ne_sign_of_body {c : Char} (h : c.isDigit = true ∨ c = '.') : c ≠ '-' ∧ c ≠ '+' := by
  rcases h with h | rfl
  · constructor <;> (rintro rfl; simp at h)
  · decide

theorem Valid.splitSign_text (h : s.Valid) :
    splitSign s.text =
      (decide (s.sign = ['-']), s.whole ++ (s.part.map ('.' :: ·)).getD []) :=
  splitSign_append_body h.sign fun c hc => ne_sign_of_body (h.head_body c hc)

theorem Valid.isNumeralChar (h : s.Valid) : ∀ c ∈ s.text, Numeral.isNumeralChar c = true := by
  have hd : ∀ c, c.isDigit = true → Numeral.isNumeralChar c = true := by
    intro c hc; simp [Numeral.isNumeralChar, hc]
  intro c hc
  rw [text, List.mem_append, List.mem_append] at hc
  rcases hc with hc | hc | hc
  · rcases h.sign with hs | hs | hs <;> simp_all [Numeral.isNumeralChar]
  · exact hd c (h.whole c hc)
  · cases hp : s.part with
    | none => simp [hp] at hc
    | some part =>
      simp only [hp, Option.map_some, Option.getD_some, List.mem_cons] at hc
      rcases hc with rfl | hc
      · decide
      · exact hd c (h.part hp c hc)

theorem Valid.ofText? (h : s.Valid) : Decimal.ofText? s.text = some s.decimal := by
  have hne := h.ne_nil
  rw [Decimal.ofText?, h.splitSign_text]
  cases hp : s.part with
  | none =>
    obtain ⟨h1, h2⟩ := takeWhile_digits (u := []) h.whole (by simp)
    simp only [Option.map_none, Option.getD_none, h1, h2]
    simp only [Spelling.digits, hp, Option.getD_none, List.append_nil] at hne
    simp [Decimal.fraction, Decimal.exponent?, hne, decimal, Spelling.digits, hp]
  | some part =>
    obtain ⟨h1, h2⟩ := takeWhile_digits (u := '.' :: part) h.whole (by simp)
    obtain ⟨h3, h4⟩ := takeWhile_digits (u := []) (h.part hp) (by simp)
    rw [List.append_nil] at h3 h4
    simp only [Option.map_some, Option.getD_some, h1, h2]
    simp only [Spelling.digits, hp, Option.getD_some, ne_eq, List.append_eq_nil_iff] at hne
    simp [Decimal.fraction, Decimal.exponent?, hne, decimal, Spelling.digits, hp, h3, h4]

theorem Valid.decimal?_text (h : s.Valid) : decimal? s.text = some s.decimal := by
  have hc : s.text.all Numeral.isNumeralChar = true := List.all_eq_true.2 h.isNumeralChar
  rw [decimal?, if_pos hc, h.ofText?]

end Spelling

/-- A numeral has nothing behind its digits. -/
theorem rest_eq_nil_of_exponent? {t : Text} (h : (Decimal.exponent? t).isSome = true)
    (hc : ∀ c ∈ t, isNumeralChar c = true) : t = [] := by
  cases t with
  | nil => rfl
  | cons c t =>
    have hne : ¬ (c = 'e' ∨ c = 'E') := by
      have := hc c (by simp)
      rintro (rfl | rfl) <;> simp [isNumeralChar] at this
    simp [Decimal.exponent?, hne] at h

theorem fraction_append (t : Text) :
    ∃ part : Option Text, t = (part.map ('.' :: ·)).getD [] ++ (Decimal.fraction t).2 ∧
      (Decimal.fraction t).1 = part.getD [] ∧ ∀ c ∈ part.getD [], c.isDigit = true := by
  unfold Decimal.fraction
  split
  · next rest =>
    exact ⟨some (rest.takeWhile Char.isDigit), by simp, rfl, fun c hc => List.mem_takeWhile_imp hc⟩
  · exact ⟨none, by simp, rfl, by simp⟩

theorem splitSign_eq (t : Text) : ∃ sign : Text,
    (sign = [] ∨ sign = ['-'] ∨ sign = ['+']) ∧ t = sign ++ (splitSign t).2 := by
  rcases splitSign_append t with h | h | h
  · exact ⟨[], .inl rfl, h⟩
  · exact ⟨['-'], .inr (.inl rfl), h⟩
  · exact ⟨['+'], .inr (.inr rfl), h⟩

theorem isNumeral_iff_spelling {t : Text} :
    isNumeral t = true ↔ ∃ s : Spelling, s.Valid ∧ t = s.text := by
  constructor
  · intro h
    obtain ⟨hc, hd⟩ := isNumeral_iff.1 h
    rw [List.all_eq_true] at hc
    obtain ⟨sign, hs, ht⟩ := splitSign_eq t
    have hw := List.takeWhile_append_dropWhile (p := Char.isDigit) (l := (splitSign t).2)
    obtain ⟨part, hp, hp1, hp2⟩ := fraction_append ((splitSign t).2.dropWhile Char.isDigit)
    simp only [Decimal.ofText?] at hd
    split_ifs at hd with hne
    · simp at hd
    · have hmem : ∀ c ∈ (Decimal.fraction ((splitSign t).2.dropWhile Char.isDigit)).2, c ∈ t := by
        intro c hc
        rw [ht, List.mem_append, ← hw, List.mem_append, hp, List.mem_append]
        exact .inr (.inr (.inr hc))
      have hr := rest_eq_nil_of_exponent? (by simpa using hd) fun c hc' => hc c (hmem c hc')
      rw [hr, List.append_nil] at hp
      rw [hp1] at hne
      refine ⟨⟨sign, (splitSign t).2.takeWhile Char.isDigit, part⟩, ⟨hs, ?_, ?_⟩, ?_⟩
      · intro c hc
        rcases List.mem_append.1 hc with hc | hc
        · exact List.mem_takeWhile_imp hc
        · exact hp2 c hc
      · simpa [Spelling.digits] using hne
      · rw [Spelling.text]
        simp only
        rw [← hp, hw, ← ht]
  · rintro ⟨s, hs, rfl⟩
    simp [isNumeral, hs.decimal?_text]

theorem not_blank_of_isNumeralChar {c : Char} (h : isNumeralChar c = true) :
    Text.isBlank c = false := by
  simp only [isNumeralChar, Bool.or_eq_true, decide_eq_true_eq] at h
  rcases h with ((h | rfl) | rfl) | rfl
  · have := isDigit_iff.1 h
    simp [Text.isBlank, Text.blankRanges]
    omega
  all_goals decide

theorem trim_of_isNumeralChar {t : Text} (h : ∀ c ∈ t, isNumeralChar c = true) :
    Text.trim t = t :=
  Text.trim_eq_self (fun c hc => not_blank_of_isNumeralChar (h c (List.mem_of_mem_head? hc)))
    (fun c hc => not_blank_of_isNumeralChar (h c (List.mem_of_getLast? hc)))

/-! ## Normalizing -/

namespace Spelling

variable {s : Spelling}

theorem Valid.trim_text (h : s.Valid) : Text.trim s.text = s.text :=
  trim_of_isNumeralChar h.isNumeralChar

theorem normal_of_none (hp : s.part = none) : s.normal = s := by
  simp [normal, hp]

theorem normal_of_some {part : Text} (hp : s.part = some part) :
    s.normal = if Text.dropEndWhile (· = '0') part ≠ [] then
        { s with part := some (Text.dropEndWhile (· = '0') part) }
      else if s.whole = [] then ⟨[], ['0'], none⟩ else { s with part := none } := by
  simp [normal, hp]

theorem valid_normal (h : s.Valid) : s.normal.Valid := by
  unfold normal
  split
  · exact h
  · next part hp =>
    split_ifs with hd hw
    · refine ⟨h.sign, ?_, by simp [Spelling.digits, hd]⟩
      intro c hc
      rcases List.mem_append.1 hc with hc | hc
      · exact h.whole c hc
      · exact h.part hp c ((List.rdropWhile_prefix _ _).subset hc)
    · exact ⟨.inl rfl, by simp [Spelling.digits], by simp [Spelling.digits]⟩
    · exact ⟨h.sign, by simpa [Spelling.digits] using h.whole, by simpa [Spelling.digits] using hw⟩

theorem normal_normal (s : Spelling) : s.normal.normal = s.normal := by
  cases hp : s.part with
  | none => rw [normal_of_none hp, normal_of_none hp]
  | some part =>
    rw [normal_of_some hp]
    split_ifs with hd hw
    · have hi : Text.dropEndWhile (· = '0') (Text.dropEndWhile (· = '0') part) =
          Text.dropEndWhile (· = '0') part := List.rdropWhile_idempotent ..
      simp only [normal, hi, if_pos hd]
    · exact normal_of_none rfl
    · exact normal_of_none rfl

/-- The text without the zeros at the end of its fraction. -/
theorem dropEndWhile_zero_text (sign whole part : Text) :
    Text.dropEndWhile (· = '0') (sign ++ (whole ++ '.' :: part)) =
      sign ++ whole ++ '.' :: Text.dropEndWhile (· = '0') part := by
  have hd : Text.dropEndWhile (· = '0') ('.' :: part) =
      '.' :: Text.dropEndWhile (· = '0') part := by
    rw [show '.' :: part = ['.'] ++ part from rfl, Text.dropEndWhile_append]
    split_ifs with hn
    · rw [hn]; decide
    · rfl
  rw [← List.append_assoc, Text.dropEndWhile_append, hd, if_neg (by simp)]

theorem notMem_of_digits {t : Text} (h : ∀ c ∈ t, c.isDigit = true) : '.' ∉ t :=
  fun hm => absurd (h '.' hm) (by decide)

theorem Valid.point_notMem (h : s.Valid) : '.' ∉ s.sign ++ s.whole := by
  rw [List.mem_append, not_or]
  refine ⟨?_, notMem_of_digits h.whole⟩
  rcases h.sign with hs | hs | hs <;> simp [hs]

theorem Valid.dropEndWhile_point (h : s.Valid) :
    Text.dropEndWhile (· = '.') (s.sign ++ s.whole) = s.sign ++ s.whole := by
  apply Text.dropEndWhile_eq_self
  intro c hc
  refine decide_eq_false ?_
  rintro rfl
  exact h.point_notMem (List.mem_of_getLast? hc)

/-- A sign alone is no numeral, so digits are there. -/
theorem Valid.bare_iff (h : s.Valid) :
    (s.sign ++ s.whole = "".toList ∨ s.sign ++ s.whole = "-".toList
      ∨ s.sign ++ s.whole = "+".toList) ↔ s.whole = [] := by
  constructor
  · intro hb
    by_contra hw
    obtain ⟨d, whole, hdw⟩ := List.exists_cons_of_ne_nil hw
    have hd := h.whole d (by simp [hdw])
    rw [hdw] at hb
    rcases h.sign with hs | hs | hs <;> rcases hb with hb | hb | hb <;> simp_all
  · intro hw
    rcases h.sign with hs | hs | hs <;> simp [hs, hw]

/-- A text with a point is no sign alone. -/
theorem not_bare_of_point {t : Text} (h : '.' ∈ t) :
    ¬ (t = "".toList ∨ t = "-".toList ∨ t = "+".toList) := by
  rintro (rfl | rfl | rfl) <;> revert h <;> decide

theorem Valid.contains_point (h : s.Valid) : s.text.contains '.' = s.part.isSome := by
  cases hp : s.part with
  | none =>
    rw [text, hp, Option.map_none, Option.getD_none, List.append_nil, List.contains_eq_mem,
      Option.isSome_none]
    exact decide_eq_false h.point_notMem
  | some part => simp [text, hp]

/-- A point in front of digits stays. -/
theorem dropEndWhile_point_of_digits {t q : Text} (hne : q ≠ [])
    (hq : ∀ c ∈ q, c.isDigit = true) :
    Text.dropEndWhile (· = '.') (t ++ '.' :: q) = t ++ '.' :: q := by
  apply Text.dropEndWhile_eq_self
  intro c hc
  obtain ⟨d, q, rfl⟩ := List.exists_cons_of_ne_nil hne
  rw [List.getLast?_append, List.getLast?_cons_cons] at hc
  have hdigit := hq c (List.mem_of_getLast? (by simpa using hc))
  refine decide_eq_false ?_
  rintro rfl
  exact absurd hdigit (by decide)

theorem Valid.normalize_text (h : s.Valid) : normalize s.text = s.normal.text := by
  have hn : isNumeral s.text = true := isNumeral_iff_spelling.2 ⟨s, h, rfl⟩
  have hc := h.contains_point
  cases hp : s.part with
  | none =>
    rw [hp, Option.isSome_none] at hc
    simp only [normalize, h.trim_text, hc, Bool.and_false, normal_of_none hp]
    rfl
  | some part =>
    rw [hp, Option.isSome_some] at hc
    have ht : s.text = s.sign ++ (s.whole ++ '.' :: part) := by simp [text, hp]
    simp only [normalize, h.trim_text, hn, hc, Bool.and_self, if_true]
    rw [ht, dropEndWhile_zero_text, normal_of_some hp]
    by_cases hd : Text.dropEndWhile (· = '0') part = []
    · -- nothing is left behind the point, so the point goes too
      have hpt : Text.dropEndWhile (· = '.') (s.sign ++ s.whole ++ ['.']) = s.sign ++ s.whole := by
        rw [Text.dropEndWhile_append, if_pos (by decide), h.dropEndWhile_point]
      simp only [hd, hpt, h.bare_iff, ne_eq, not_true_eq_false, if_false]
      split_ifs with hw
      · rfl
      · simp [text]
    · have hdigit : ∀ c ∈ Text.dropEndWhile (· = '0') part, c.isDigit = true := fun c hc =>
        h.part hp c ((List.rdropWhile_prefix _ _).subset hc)
      rw [dropEndWhile_point_of_digits hd hdigit, if_neg (not_bare_of_point (by simp)), if_pos hd]
      simp [text]

/-! ## Values -/

theorem natOfDigits_zeros {t : Text} (h : ∀ c ∈ t, c = '0') : natOfDigits t = 0 := by
  induction t with
  | nil => rfl
  | cons c t ih =>
    rw [show c :: t = [c] ++ t from rfl, natOfDigits_append, ih fun d hd => h d (by simp [hd]),
      h c (by simp)]
    simp [natOfDigits]

/-- The zeros that normalizing takes away. -/
theorem exists_zeros (part : Text) : ∃ zeros : Text, (∀ c ∈ zeros, c = '0') ∧
    part = Text.dropEndWhile (· = '0') part ++ zeros :=
  ⟨part.rtakeWhile (· = '0'), fun c hc => by simpa using List.mem_rtakeWhile_imp hc,
    (List.rdropWhile_append_rtakeWhile ..).symm⟩

/-- The number of a numeral with a point, by the zeros that normalizing takes away. -/
theorem exists_decimal_eq (s : Spelling) {part : Text} (hp : s.part = some part) : ∃ k : Nat,
    s.decimal = ⟨s.sign = ['-'],
      natOfDigits (s.whole ++ Text.dropEndWhile (· = '0') part) * 10 ^ k,
      -((Text.dropEndWhile (· = '0') part).length + k : Nat)⟩ := by
  obtain ⟨zeros, hz, hpart⟩ := exists_zeros part
  refine ⟨zeros.length, ?_⟩
  rw [decimal, digits, hp, Option.getD_some]
  conv_lhs => rw [hpart, ← List.append_assoc, natOfDigits_append, natOfDigits_zeros hz,
    List.length_append, Nat.add_zero]

/-- Normalizing keeps the value, up to the sign of a zero. -/
theorem scaled_decimal_normal (s : Spelling) :
    s.normal.decimal.toDouble.scaled? = s.decimal.toDouble.scaled? := by
  cases hp : s.part with
  | none => rw [normal_of_none hp]
  | some part =>
    obtain ⟨k, hd⟩ := s.exists_decimal_eq hp
    rw [hd, Decimal.toDouble_trailing, normal_of_some hp]
    generalize Text.dropEndWhile (· = '0') part = q
    split_ifs with hq hw
    · rfl
    · -- all digits were zeros
      simp only [ne_eq, not_not] at hq
      rw [hq, hw]
      exact (Decimal.scaled?_toDouble_zero _ 0).trans (Decimal.scaled?_toDouble_zero _ 0).symm
    · simp only [ne_eq, not_not] at hq
      rw [hq, List.append_nil]
      simp [decimal, digits]

end Spelling

/-- The value of a numeral in units, as comparing sees it. -/
def scaled? (t : Text) : Option Int :=
  (value? t).bind Double.scaled?

theorem compare?_eq (a b : Text) :
    compare? a b = (scaled? a).bind fun x => (scaled? b).map fun y => compare x y := by
  simp only [compare?, scaled?, Double.compare?]
  cases ha : value? a with
  | none => simp
  | some x =>
    cases hb : value? b with
    | none => cases hx : x.scaled? <;> simp
    | some y => cases hx : x.scaled? <;> cases hy : y.scaled? <;> simp [hx, hy]

theorem Spelling.Valid.value?_text {s : Spelling} (h : s.Valid) :
    value? s.text = some s.decimal.toDouble := by
  rw [value?, h.trim_text, h.decimal?_text, Option.map_some]

/-! ## Normalized numerals -/

theorem normalize_trim (t : Text) : normalize (Text.trim t) = normalize t := by
  simp only [normalize, Text.trim_trim]

theorem normalize_of_not_isNumeral {t : Text} (h : isNumeral (Text.trim t) = false) :
    normalize t = Text.trim t := by
  simp [normalize, h]

/-- A normalized numeral is a spelling that normalizing does not change. -/
theorem exists_normal {t : Text} (h : isNumeral (Text.trim t) = true) :
    ∃ s : Spelling, s.Valid ∧ Text.trim t = s.text ∧ normalize t = s.normal.text := by
  obtain ⟨s, hs, ht⟩ := isNumeral_iff_spelling.1 h
  exact ⟨s, hs, ht, by rw [← normalize_trim, ht, hs.normalize_text]⟩

theorem isNumeral_normalize {t : Text} (h : isNumeral (Text.trim t) = true) :
    isNumeral (normalize t) = true := by
  obtain ⟨s, hs, -, hn⟩ := exists_normal h
  rw [hn]
  exact isNumeral_iff_spelling.2 ⟨_, Spelling.valid_normal hs, rfl⟩

@[simp] theorem normalize_normalize (t : Text) : normalize (normalize t) = normalize t := by
  cases h : isNumeral (Text.trim t) with
  | false => rw [normalize_of_not_isNumeral h, normalize_trim, normalize_of_not_isNumeral h]
  | true =>
    obtain ⟨s, hs, -, hn⟩ := exists_normal h
    rw [hn, (Spelling.valid_normal hs).normalize_text, Spelling.normal_normal]

@[simp] theorem scaled_normalize (t : Text) : scaled? (normalize t) = scaled? t := by
  cases h : isNumeral (Text.trim t) with
  | false => rw [normalize_of_not_isNumeral h, scaled?, scaled?, value?, value?, Text.trim_trim]
  | true =>
    obtain ⟨s, hs, ht, hn⟩ := exists_normal h
    have hv : value? t = some s.decimal.toDouble := by
      rw [← hs.value?_text, ← ht, value?, value?, Text.trim_trim]
    rw [hn, scaled?, scaled?, (Spelling.valid_normal hs).value?_text, hv]
    exact Spelling.scaled_decimal_normal s

/-- Normalizing two numerals does not change how they compare. -/
theorem compare?_normalize (a b : Text) :
    compare? (normalize a) (normalize b) = compare? a b := by
  rw [compare?_eq, compare?_eq, scaled_normalize, scaled_normalize]

/-- What has a value is a numeral up to blanks. -/
theorem isNumeral_trim {t : Text} {x : Double} (h : value? t = some x) :
    isNumeral (Text.trim t) = true := by
  rw [← value?_isSome, h]
  rfl

/-- A numeral has a value. -/
theorem exists_scaled {t : Text} (h : isNumeral (Text.trim t) = true) :
    ∃ x, scaled? t = some x := by
  obtain ⟨d, hd⟩ := Option.isSome_iff_exists.1 (value?_isSome.trans h)
  have hnan : d ≠ .nan := by
    rw [value?, Option.map_eq_some_iff] at hd
    obtain ⟨e, -, rfl⟩ := hd
    exact Decimal.toDouble_ne_nan e
  cases d with
  | nan => exact absurd rfl hnan
  | infinite n => exact ⟨_, by rw [scaled?, hd]; rfl⟩
  | finite n u h => exact ⟨_, by rw [scaled?, hd]; rfl⟩

theorem compare?_self {t : Text} (h : isNumeral (Text.trim t) = true) :
    compare? t t = some .eq := by
  obtain ⟨x, hx⟩ := exists_scaled h
  simp [compare?_eq, hx]

/-- Numerals compare as equal if their values are the same. -/
theorem compare?_eq_some_eq {a b : Text} :
    compare? a b = some .eq ↔ ∃ x, scaled? a = some x ∧ scaled? b = some x := by
  rw [compare?_eq]
  cases ha : scaled? a with
  | none => simp
  | some x =>
    cases hb : scaled? b with
    | none => simp
    | some y => simp [Std.LawfulEqCmp.compare_eq_iff_eq]; exact eq_comm

/-! ## Points -/

/-- No two points stand in a row in a text with one point at most. -/
theorem cutDots_of_notMem {t : Text} (h : '.' ∉ t) : Text.cutDots t = none := by
  induction t with
  | nil => rfl
  | cons c t ih =>
    rw [List.mem_cons, not_or] at h
    rw [Text.cutDots, ih h.2, Option.map_none]
    rintro rest rfl
    exact absurd rfl h.1

theorem cutDots_point {t u : Text} (ht : '.' ∉ t) (hu : '.' ∉ u) :
    Text.cutDots (t ++ '.' :: u) = none := by
  induction t with
  | nil =>
    rw [List.nil_append, Text.cutDots, cutDots_of_notMem hu, Option.map_none]
    rintro rest - rfl
    simp at hu
  | cons c t ih =>
    rw [List.mem_cons, not_or] at ht
    rw [List.cons_append, Text.cutDots, ih ht.2, Option.map_none]
    rintro rest rfl
    exact absurd rfl ht.1

/-- A cut at two points gives back what stands in front, unless it ends in a point. -/
theorem cutDots_append {t u : Text} (ht : Text.cutDots t = none)
    (hl : ∀ c ∈ t.getLast?, c ≠ '.') : Text.cutDots (t ++ '.' :: '.' :: u) = some (t, u) := by
  induction t with
  | nil => rfl
  | cons c t ih =>
    have hd : ∀ rest, c = '.' → t = '.' :: rest → False := by
      rintro rest rfl rfl
      simp [Text.cutDots] at ht
    rw [Text.cutDots, Option.map_eq_none_iff] at ht
    · have hl' : ∀ d ∈ t.getLast?, d ≠ '.' := by
        intro d hd
        refine hl d ?_
        rw [List.getLast?_cons, Option.mem_def.1 hd]
        rfl
      rw [List.cons_append, Text.cutDots, ih ht hl', Option.map_some]
      rintro rest rfl ht'
      cases t with
      | nil => exact hl '.' (by simp) rfl
      | cons e t =>
        rw [List.cons_append, List.cons.injEq] at ht'
        exact hd t rfl (by rw [ht'.1])
    · exact hd

theorem Spelling.Valid.cutDots_text {s : Spelling} (h : s.Valid) :
    Text.cutDots s.text = none := by
  cases hp : s.part with
  | none => simpa [text, hp] using cutDots_of_notMem h.point_notMem
  | some part =>
    rw [text, hp, ← List.append_assoc]
    exact cutDots_point h.point_notMem (notMem_of_digits (h.part hp))

namespace Spelling

variable {s : Spelling}

/-- What normalizing leaves behind the point is not empty. -/
theorem part_normal_ne_nil (s : Spelling) : s.normal.part ≠ some [] := by
  cases hp : s.part with
  | none => rw [normal_of_none hp, hp]; simp
  | some part =>
    rw [normal_of_some hp]
    split_ifs with hd hw
    · simpa using hd
    · simp
    · simp

/-- A normalized numeral ends in a digit. -/
theorem Valid.text_normal_eq (h : s.Valid) : ∃ front tail : Text,
    s.normal.text = front ++ tail ∧ tail ≠ [] ∧ ∀ c ∈ tail, c.isDigit = true := by
  have hv := valid_normal h
  cases hp : s.normal.part with
  | none =>
    refine ⟨s.normal.sign, s.normal.whole, by simp [text, hp], ?_, hv.whole⟩
    have hne := hv.ne_nil
    simpa [Spelling.digits, hp] using hne
  | some part =>
    refine ⟨s.normal.sign ++ (s.normal.whole ++ ['.']), part, by simp [text, hp], ?_, hv.part hp⟩
    rintro rfl
    exact part_normal_ne_nil s hp

end Spelling

/-- A range of two normalized numerals is cut between them. -/
theorem cutDots_normalize {t u : Text} (h : isNumeral (Text.trim t) = true) :
    Text.cutDots (normalize t ++ '.' :: '.' :: u) = some (normalize t, u) := by
  obtain ⟨s, hs, -, hn⟩ := exists_normal h
  rw [hn]
  apply cutDots_append (Spelling.valid_normal hs).cutDots_text
  obtain ⟨front, tail, he, hne, hd⟩ := hs.text_normal_eq
  rw [he, List.getLast?_append_of_ne_nil _ hne]
  rintro c hc rfl
  simpa using hd _ (List.mem_of_getLast? hc)

end Numeral

end CrossEdition
