import CrossEdition.Value
import CrossEdition.Proofs.Decimal.Spelling

/-!
# Values that are read again

The text of a value is read as a value of the same text. Only a range changes: its
numerals are normalized, and with equal ends it becomes a number.

Results:
* `faithful_read`: a value that was read is classified by its own text.
* `Faithful.text_reread`: reading the text of a value again does not change the text.
* `Faithful.reread_reread`: what was read again stays as it is.
* `Faithful.reread_range`: the text of a range with two different ends is a range.
-/

namespace CrossEdition

theorem Text.eq_of_cutDots {t before after : Text} (h : cutDots t = some (before, after)) :
    t = before ++ '.' :: '.' :: after := by
  induction t using cutDots.induct generalizing before with
  | case1 => simp [cutDots] at h
  | case2 rest =>
    simp only [cutDots, Option.some.injEq, Prod.mk.injEq] at h
    obtain ⟨rfl, rfl⟩ := h
    rfl
  | case3 c rest hne ih =>
    rw [cutDots, Option.map_eq_some_iff] at h
    · obtain ⟨⟨b, a⟩, hc, he⟩ := h
      simp only [Prod.mk.injEq] at he
      obtain ⟨rfl, rfl⟩ := he
      rw [ih hc]
      rfl
    · exact hne

namespace Numeral

variable {t : Text}

theorem trim_of_isNumeral (h : isNumeral t = true) : Text.trim t = t := by
  obtain ⟨s, hs, rfl⟩ := isNumeral_iff_spelling.1 h
  exact hs.trim_text

theorem isNumeralChar_of_isNumeral (h : isNumeral t = true) : ∀ c ∈ t, isNumeralChar c = true :=
  List.all_eq_true.1 (isNumeral_iff.1 h).1

theorem plain_of_isNumeralChar (h : ∀ c ∈ t, isNumeralChar c = true) : Nesting.Plain t := by
  intro c hc
  by_contra hn
  have hm : c = '\\' ∨ Nesting.isMark c = true := by
    by_cases hb : c = '\\'
    · exact .inl hb
    · exact .inr (by simpa [hb] using hn)
  have hd := h c hc
  simp only [Nesting.isMark, Bool.or_eq_true, decide_eq_true_eq] at hm
  rcases hm with rfl | ((((rfl | rfl) | rfl) | rfl) | rfl) | rfl <;> (revert hd; decide)

theorem plain_of_isNumeral (h : isNumeral t = true) : Nesting.Plain t :=
  plain_of_isNumeralChar (isNumeralChar_of_isNumeral h)

theorem ne_nil_of_isNumeral (h : isNumeral t = true) : t ≠ [] := by
  rintro rfl
  revert h
  decide

theorem normalize_isNumeral (h : isNumeral t = true) : isNumeral (normalize t) = true :=
  isNumeral_normalize ((trim_of_isNumeral h).symm ▸ h)

theorem cutDots_of_isNumeral (h : isNumeral t = true) : Text.cutDots t = none := by
  obtain ⟨s, hs, rfl⟩ := isNumeral_iff_spelling.1 h
  exact hs.cutDots_text

theorem compare?_self_of_isNumeral (h : isNumeral t = true) : compare? t t = some .eq :=
  compare?_self ((trim_of_isNumeral h).symm ▸ h)

end Numeral

namespace Bounds

variable {b : Bounds}

/-- Whether the ends of a range are numerals. -/
def Numeric (b : Bounds) : Prop :=
  ∀ t, t ∈ b.min ∨ t ∈ b.max → Numeral.isNumeral t = true

/-- Whether a range has two ends of the same value. -/
def isPoint (b : Bounds) : Bool :=
  match b.min, b.max with
  | some lo, some hi => Numeral.compare? lo hi = some .eq
  | _, _ => false

/-- The range with its ends normalized. -/
def normal (b : Bounds) : Bounds :=
  ⟨b.min.map Numeral.normalize, b.max.map Numeral.normalize⟩

theorem numeric_normal (h : b.Numeric) : b.normal.Numeric := by
  intro t ht
  simp only [normal, Option.mem_def, Option.map_eq_some_iff] at ht
  rcases ht with ⟨u, hu, rfl⟩ | ⟨u, hu, rfl⟩
  · exact Numeral.normalize_isNumeral (h u (.inl hu))
  · exact Numeral.normalize_isNumeral (h u (.inr hu))

@[simp] theorem isPoint_normal (b : Bounds) : b.normal.isPoint = b.isPoint := by
  obtain ⟨_ | lo, _ | hi⟩ := b <;> simp [isPoint, normal, Numeral.compare?_normalize]

@[simp] theorem normal_normal (b : Bounds) : b.normal.normal = b.normal := by
  obtain ⟨_ | lo, _ | hi⟩ := b <;> simp [normal]

@[simp] theorem hasBound_normal (b : Bounds) : b.normal.hasBound = b.hasBound := by
  simp [hasBound, normal]

/-- The text of a range that is no point has both its ends. -/
theorem text_of_not_isPoint (h : b.isPoint = false) :
    b.text = b.normal.min.getD [] ++ '.' :: '.' :: b.normal.max.getD [] := by
  obtain ⟨_ | lo, _ | hi⟩ := b
  · rfl
  · rfl
  · simp [text, normal]
  · have hne : ¬ Numeral.compare? lo hi = some .eq := by simpa [isPoint] using h
    simp [text, normal, hne]

/-- A point is written as one number. -/
theorem text_of_isPoint (h : b.isPoint = true) :
    ∃ lo hi, b = ⟨some lo, some hi⟩ ∧ Numeral.compare? lo hi = some .eq ∧
      b.text = Numeral.normalize lo := by
  obtain ⟨_ | lo, _ | hi⟩ := b
  · simp [isPoint] at h
  · simp [isPoint] at h
  · simp [isPoint] at h
  · have he : Numeral.compare? lo hi = some .eq := by simpa [isPoint] using h
    exact ⟨lo, hi, rfl, he, by simp [text, he]⟩

@[simp] theorem text_normal (h : b.isPoint = false) : b.normal.text = b.text := by
  rw [text_of_not_isPoint h, text_of_not_isPoint (by rw [isPoint_normal, h]), normal_normal]

theorem isNumeralChar_text (h : b.Numeric) : ∀ c ∈ b.text, Numeral.isNumeralChar c = true := by
  cases hp : b.isPoint with
  | true =>
    obtain ⟨lo, hi, rfl, -, ht⟩ := text_of_isPoint hp
    rw [ht]
    exact Numeral.isNumeralChar_of_isNumeral (Numeral.normalize_isNumeral (h lo (.inl rfl)))
  | false =>
    have hside : ∀ o : Option Text, (∀ t ∈ o, Numeral.isNumeral t = true) →
        ∀ c ∈ o.getD [], Numeral.isNumeralChar c = true := by
      rintro (_ | t) ho c hc
      · simp at hc
      · exact Numeral.isNumeralChar_of_isNumeral (ho t rfl) c hc
    have hn := numeric_normal h
    rw [text_of_not_isPoint hp]
    intro c hc
    rw [List.mem_append, List.mem_cons, List.mem_cons] at hc
    rcases hc with hc | rfl | rfl | hc
    · exact hside _ (fun t ht => hn t (.inl ht)) c hc
    · decide
    · decide
    · exact hside _ (fun t ht => hn t (.inr ht)) c hc

/-! ## Reading ranges -/

theorem side?_of_isNumeral {t : Text} (h : Numeral.isNumeral t = true) :
    side? t = some (some t) := by
  simp [side?, Numeral.trim_of_isNumeral h, Numeral.ne_nil_of_isNumeral h, h]

theorem side?_getD {o : Option Text} (h : ∀ t ∈ o, Numeral.isNumeral t = true) :
    side? (o.getD []) = some o := by
  cases o with
  | none => rfl
  | some t => exact side?_of_isNumeral (h t rfl)

theorem isNumeral_of_side? {t u : Text} (h : side? t = some (some u)) :
    Numeral.isNumeral u = true := by
  simp only [side?] at h
  split_ifs at h with h1 h2
  · simp at h
  · simp only [Option.some.injEq] at h
    rwa [← h]

theorem plain_of_side? {t : Text} {o : Option Text} (h : side? t = some o) : Nesting.Plain t := by
  obtain ⟨a, b, ha, hb, ht⟩ := Text.trim_append t
  have hm : Nesting.Plain (Text.trim t) := by
    simp only [side?] at h
    split_ifs at h with h1 h2
    · rw [h1]
      exact List.forall_mem_nil _
    · exact Numeral.plain_of_isNumeral h2
  rw [ht]
  exact Nesting.plain_append.2 ⟨Nesting.plain_of_blank ha,
    Nesting.plain_append.2 ⟨hm, Nesting.plain_of_blank hb⟩⟩

theorem numeric_of_ofText? {t : Text} (h : ofText? t = some b) : b.Numeric := by
  simp only [ofText?, Option.bind_eq_bind, Option.bind_eq_some_iff] at h
  obtain ⟨⟨before, after⟩, -, lo, hlo, hi, hhi, h⟩ := h
  split_ifs at h
  simp only [Option.some.injEq] at h
  subst h
  rintro t (rfl | rfl)
  · exact isNumeral_of_side? hlo
  · exact isNumeral_of_side? hhi

/-- The spelling of a range holds no quotes and brackets, also in the blanks that are not
    kept. -/
theorem plain_of_ofText? {t : Text} (h : ofText? t = some b) : Nesting.Plain t := by
  simp only [ofText?, Option.bind_eq_bind, Option.bind_eq_some_iff] at h
  obtain ⟨⟨before, after⟩, hc, lo, hlo, hi, hhi, -⟩ := h
  obtain rfl := Text.eq_of_cutDots hc
  exact Nesting.plain_append.2 ⟨plain_of_side? hlo,
    Nesting.plain_cons.2 ⟨by decide, Nesting.plain_cons.2 ⟨by decide, plain_of_side? hhi⟩⟩⟩

/-- Normalized ends are found again around two points. -/
theorem cutDots_text (h : b.Numeric) (hp : b.isPoint = false) :
    Text.cutDots b.text = some (b.normal.min.getD [], b.normal.max.getD []) := by
  rw [text_of_not_isPoint hp]
  cases hm : b.min with
  | none => simp [normal, hm, Text.cutDots]
  | some lo =>
    have hlo := h lo (.inl hm)
    simp only [normal, hm, Option.map_some, Option.getD_some]
    exact Numeral.cutDots_normalize ((Numeral.trim_of_isNumeral hlo).symm ▸ hlo)

theorem ofText?_text (h : b.Numeric) (hp : b.isPoint = false) :
    ofText? b.text = if b.hasBound then some b.normal else none := by
  have hn := numeric_normal h
  have h1 := side?_getD fun t ht => hn t (.inl ht)
  have h2 := side?_getD fun t ht => hn t (.inr ht)
  have hb : hasBound ⟨b.normal.min, b.normal.max⟩ = b.hasBound := hasBound_normal b
  simp only [ofText?, cutDots_text h hp, Option.bind_eq_bind, Option.bind_some, h1, h2, hb]

end Bounds

namespace Value

variable {v : Value}

/-- What holds of a value that was read: its text is classified as the value is. A
    range has numerals at its ends. -/
def Faithful : Value → Prop
  | range bounds => bounds.Numeric
  | v => read v.text = v

/-- The value that the text of a value is read as. -/
def reread (v : Value) : Value :=
  read v.text

theorem head_of_isNumeralChar {t : Text} (h : ∀ c ∈ t, Numeral.isNumeralChar c = true) :
    ¬ (t.head? = some '{' ∨ t.head? = some '[') := by
  rintro (hh | hh)
  · have := h _ (List.mem_of_mem_head? hh)
    revert this
    decide
  · have := h _ (List.mem_of_mem_head? hh)
    revert this
    decide

theorem read_of_isNumeral {t : Text} (h : Numeral.isNumeral t = true) : read t = scalar t := by
  have hh := head_of_isNumeralChar (Numeral.isNumeralChar_of_isNumeral h)
  simp only [read, Numeral.trim_of_isNumeral h, if_neg hh, Numeral.cutDots_of_isNumeral h,
    Option.isSome_none, Bool.false_eq_true, if_false, h, if_true]

@[simp] theorem read_trim (t : Text) : read (Text.trim t) = read t := by
  simp only [read, Text.trim_trim]

/-- A value that was read is a range of numerals, or it has the text it was read from. -/
theorem read_cases (t : Text) :
    (∃ bounds, read t = range bounds ∧ Bounds.ofText? (Text.trim t) = some bounds) ∨
      ((read t).text = Text.trim t ∧ ∀ bounds, read t ≠ range bounds) := by
  simp only [read]
  split
  · exact .inr ⟨rfl, by simp⟩
  · split
    · split
      · next bounds hb => exact .inl ⟨bounds, rfl, hb⟩
      · exact .inr ⟨rfl, by simp⟩
    · split <;> exact .inr ⟨rfl, by simp⟩

theorem faithful_read (t : Text) : (read t).Faithful := by
  rcases read_cases t with ⟨bounds, hb, hn⟩ | ⟨ht, hb⟩
  · rw [hb]
    exact Bounds.numeric_of_ofText? hn
  · have hr : read (read t).text = read t := by rw [ht, read_trim]
    revert hr hb
    cases read t with
    | range bounds => intro hb; exact absurd rfl (hb bounds)
    | scalar | compound | literal => exact fun _ hr => hr

theorem Faithful.isNumeral {t : Text} (h : (scalar t).Faithful) : Numeral.isNumeral t = true := by
  have hr : read t = scalar t := h
  simp only [read] at hr
  split_ifs at hr with _ _ hn
  · cases ho : Bounds.ofText? (Text.trim t) <;> simp [ho] at hr
  · simp only [scalar.injEq] at hr
    rwa [hr] at hn

theorem faithful_scalar {t : Text} (h : Numeral.isNumeral t = true) : (scalar t).Faithful :=
  read_of_isNumeral h

/-- A numeric value is spelled with the characters of numerals. -/
theorem Faithful.isNumeralChar_text (h : v.Faithful) (hb : v.bounds?.isSome = true) :
    ∀ c ∈ v.text, Numeral.isNumeralChar c = true := by
  cases v with
  | scalar t => exact Numeral.isNumeralChar_of_isNumeral h.isNumeral
  | range b => exact Bounds.isNumeralChar_text h
  | compound | literal => simp [bounds?] at hb

/-- Whether a value is a range with two ends of the same value. -/
def isPoint : Value → Bool
  | range bounds => bounds.isPoint
  | _ => false

/-! ## Reading again -/

/-- The text of a range with two different ends is read as that range. -/
theorem Faithful.reread_range {b : Bounds} (h : (range b).Faithful) (hp : b.isPoint = false)
    (hb : b.hasBound = true) : (range b).reread = range b.normal := by
  have hn : b.Numeric := h
  have hc := Bounds.isNumeralChar_text hn
  simp only [reread, text, read, Numeral.trim_of_isNumeralChar hc, if_neg (head_of_isNumeralChar hc),
    Bounds.cutDots_text hn hp, Option.isSome_some, if_true, Bounds.ofText?_text hn hp, hb]

/-- The text of a range with equal ends is read as a number. -/
theorem Faithful.reread_point {b : Bounds} (h : (range b).Faithful) (hp : b.isPoint = true) :
    ∃ lo hi, b = ⟨some lo, some hi⟩ ∧ Numeral.compare? lo hi = some .eq ∧
      (range b).reread = scalar (Numeral.normalize lo) := by
  obtain ⟨lo, hi, rfl, he, ht⟩ := Bounds.text_of_isPoint hp
  have hlo : Numeral.isNumeral lo = true := h lo (.inl rfl)
  exact ⟨lo, hi, rfl, he, by
    rw [reread, text, ht, read_of_isNumeral (Numeral.normalize_isNumeral hlo)]⟩

/-- Without any end no range is left. -/
theorem reread_unbounded {b : Bounds} (hb : b.hasBound = false) :
    (range b).reread = literal ".." := by
  obtain ⟨_ | lo, _ | hi⟩ := b
  · decide
  all_goals simp [Bounds.hasBound] at hb

theorem Faithful.reread_eq (h : v.Faithful) (hv : ∀ b, v ≠ range b) : v.reread = v := by
  cases v with
  | range b => exact absurd rfl (hv b)
  | scalar | compound | literal => exact h

/-- Reading the text of a value again does not change the text. -/
theorem Faithful.text_reread (h : v.Faithful) : v.reread.text = v.text := by
  cases v with
  | range b =>
    cases hp : b.isPoint with
    | true =>
      obtain ⟨lo, hi, rfl, he, hr⟩ := h.reread_point hp
      rw [hr]
      simp [text, Bounds.text, he]
    | false =>
      cases hb : b.hasBound with
      | true => rw [h.reread_range hp hb, text, text, Bounds.text_normal hp]
      | false =>
        rw [reread_unbounded hb]
        obtain ⟨_ | lo, _ | hi⟩ := b
        · rfl
        all_goals simp [Bounds.hasBound] at hb
  | scalar | compound | literal => rw [h.reread_eq (by simp)]

theorem faithful_reread (v : Value) : v.reread.Faithful :=
  faithful_read v.text

@[simp] theorem Faithful.reread_reread (h : v.Faithful) : v.reread.reread = v.reread := by
  rw [reread, h.text_reread, reread]

/-- No blanks are around the text of a value that was read. -/
theorem Faithful.trim_text (h : v.Faithful) : Text.trim v.text = v.text := by
  cases v with
  | range b => exact Numeral.trim_of_isNumeralChar (Bounds.isNumeralChar_text h)
  | scalar t | compound t | literal t =>
    rcases read_cases t with ⟨b, hb, -⟩ | ⟨ht, -⟩
    · rw [show read t = _ from h] at hb
      simp at hb
    · rw [show read t = _ from h] at ht
      exact ht.symm

/-! ## Points -/

theorem isPoint_read_of_cutDots {t : Text} (h : Text.cutDots (Text.trim t) = none) :
    (read t).isPoint = false := by
  rcases read_cases t with ⟨b, -, hb⟩ | ⟨-, hn⟩
  · simp [Bounds.ofText?, h] at hb
  · cases hv : read t with
    | range b => exact absurd hv (hn b)
    | scalar | compound | literal => rfl

/-- What was read again is no point: a point is read as a number. -/
theorem Faithful.isPoint_reread (h : v.Faithful) : v.reread.isPoint = false := by
  cases v with
  | range b =>
    cases hp : b.isPoint with
    | true =>
      obtain ⟨lo, hi, -, -, hr⟩ := h.reread_point hp
      rw [hr]
      rfl
    | false =>
      cases hb : b.hasBound with
      | true =>
        rw [h.reread_range hp hb]
        exact (Bounds.isPoint_normal b).trans hp
      | false =>
        rw [reread_unbounded hb]
        rfl
  | scalar | compound | literal => rw [h.reread_eq (by simp)]; rfl

end Value

end CrossEdition
