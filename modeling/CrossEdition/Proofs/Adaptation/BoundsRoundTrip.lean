import CrossEdition.Proofs.Adaptation.Idempotence
import Mathlib.Data.List.Forall2

/-!
# Bounds to Java and back

Bounds are joined into ranges for Java, and the ranges are split into bounds again for
Bedrock. Each bound comes back with its value, except for a lower bound on the distance
that is equal to the upper one: such a range is written as one number, and a single
distance bounds from above only.

Results:
* `BoundsOnly.toJava_eq`, `BoundsOnly.adapt_java`: bounds become one range for each quantity.
* `boundsOfRange?_read`: the bounds that such a range is split into.
* `BoundsOnly.values_roundTrip`: the values of each name behind both passes.
* `bounds_roundTrip`: what comes back, and what does not.
-/

namespace CrossEdition

namespace Selector

variable {s : Selector} {p : Parameter} {pair : RangePair}

/-- The names of all bounds. -/
def boundNames : List Text :=
  ["rm", "r", "rxm", "rx", "rym", "ry", "lm", "l"]

/-- A selector that Java could have but for its bounds: nothing but bounds, each once and
    each a number. -/
structure BoundsOnly (s : Selector) : Prop where
  head : s.head.isBedrockOnly = false
  names : ∀ p ∈ s.parameters, p.name ∈ boundNames
  numbers : ∀ p ∈ s.parameters, p.value.numeral?.isSome = true
  nodup : (s.parameters.map (·.name)).Nodup

/-- Two values that are the same number, perhaps in different spelling. -/
def SameNumber (v w : Value) : Prop :=
  ∃ a b, v = .scalar a ∧ w = .scalar b ∧ Numeral.compare? a b = some .eq

/-- Whether the distance is bounded by the same number on both sides. -/
def FixesDistance (s : Selector) : Prop :=
  ∃ a ∈ s.values "rm", ∃ b ∈ s.values "r", SameNumber a b

theorem exists_pair_of_boundName {name : Text} (h : name ∈ boundNames) :
    ∃ pair ∈ rangePairs, name = pair.min ∨ name = pair.max := by
  revert name
  decide

/-! ## The bounds of a selector -/

/-- The value of a bound, if it is there. -/
def bound? (s : Selector) (name : Text) : Option Text :=
  (s.numerals name).head?

theorem BoundsOnly.values_eq (h : s.BoundsOnly) (name : Text) :
    s.values name = (s.bound? name).toList.map .scalar := by
  have hlen : (s.values name).length ≤ 1 := Parameter.length_valuesOf_of_nodup h.nodup
  rw [bound?, numerals]
  cases hv : s.values name with
  | nil => rfl
  | cons v vs =>
    rw [hv, List.length_cons] at hlen
    obtain rfl : vs = [] := List.length_eq_zero_iff.1 (by omega)
    have hm : ⟨name, v⟩ ∈ s.parameters :=
      Parameter.mem_valuesOf.1 (show v ∈ s.values name by rw [hv]; simp)
    have hn := h.numbers _ hm
    cases v with
    | scalar t => rfl
    | _ => simp [Value.numeral?] at hn

theorem BoundsOnly.numerals_eq (h : s.BoundsOnly) (name : Text) :
    s.numerals name = (s.bound? name).toList := by
  have hv := h.values_eq name
  rw [numerals, hv, List.filterMap_map]
  cases s.bound? name <;> rfl

theorem BoundsOnly.isNumeral (h : s.BoundsOnly) (hf : ∀ p ∈ s.parameters, p.value.Faithful)
    {name : Text} : ∀ t ∈ s.bound? name, Numeral.isNumeral t = true := by
  intro t ht
  have hv : Value.scalar t ∈ s.values name := by
    rw [h.values_eq]
    exact List.mem_map_of_mem (Option.mem_toList.2 ht)
  exact (hf _ (Parameter.mem_valuesOf.1 hv)).isNumeral

theorem BoundsOnly.boundsOf_eq (h : s.BoundsOnly) (hf : ∀ p ∈ s.parameters, p.value.Faithful)
    (pair : RangePair) : boundsOf pair s = ⟨s.bound? pair.min, s.bound? pair.max⟩ := by
  rw [boundsOf, h.numerals_eq, h.numerals_eq, Numeral.least?, Numeral.greatest?,
    Numeral.best?_toList (h.isNumeral hf), Numeral.best?_toList (h.isNumeral hf)]

theorem BoundsOnly.numeric (h : s.BoundsOnly) (hf : ∀ p ∈ s.parameters, p.value.Faithful)
    (pair : RangePair) : (boundsOf pair s).Numeric := by
  rw [h.boundsOf_eq hf]
  rintro t (ht | ht)
  · exact h.isNumeral hf t ht
  · exact h.isNumeral hf t ht

/-! ## Lists by quantity -/

theorem apart_of_ne : ∀ a ∈ rangePairs, ∀ b ∈ rangePairs, a ≠ b →
    a.java ≠ b.java ∧ ∀ name ∈ [a.min, a.max], name ≠ b.min ∧ name ≠ b.max := by
  decide

/-- Of a list made quantity by quantity, a name that belongs to one quantity takes its
    values from there. -/
theorem valuesOf_flatMap {pairs : List RangePair} {f : RangePair → List Parameter} {name : Text}
    (hn : pairs.Nodup) (hp : pair ∈ pairs)
    (ho : ∀ other ∈ pairs, other ≠ pair → Parameter.valuesOf name (f other) = []) :
    Parameter.valuesOf name (pairs.flatMap f) = Parameter.valuesOf name (f pair) := by
  induction pairs with
  | nil => simp at hp
  | cons first pairs ih =>
    obtain ⟨hfirst, hn⟩ := List.nodup_cons.1 hn
    rw [List.flatMap_cons, Parameter.valuesOf_append]
    by_cases he : first = pair
    · have hrest : Parameter.valuesOf name (pairs.flatMap f) = [] := by
        rw [Parameter.valuesOf_eq_nil_iff]
        intro p hm
        obtain ⟨other, hother, hm⟩ := List.mem_flatMap.1 hm
        have hne : other ≠ pair := by
          rintro rfl
          exact hfirst (he ▸ hother)
        exact Parameter.valuesOf_eq_nil_iff.1 (ho other (List.mem_cons_of_mem _ hother) hne) p hm
      rw [hrest, List.append_nil, he]
    · rw [ho first (by simp) he, List.nil_append]
      exact ih hn (List.mem_of_ne_of_mem (Ne.symm he) hp) fun other hm =>
        ho other (List.mem_cons_of_mem _ hm)

/-! ## To Java -/

/-- The selector with its bounds joined. -/
def withRanges (s : Selector) : Selector :=
  { s with parameters := rangePairs.flatMap fun pair => joined pair s }

theorem name_mem_withRanges (h : p ∈ s.withRanges.parameters) :
    ∃ pair ∈ rangePairs, p = .ofTexts pair.java (boundsOf pair s).text := by
  obtain ⟨pair, hpair, hj⟩ := List.mem_flatMap.1 h
  unfold joined at hj
  split_ifs at hj
  · exact ⟨pair, hpair, List.mem_singleton.1 hj⟩
  · simp at hj

theorem values_withRanges (hpair : pair ∈ rangePairs) : s.withRanges.values pair.java =
    if (boundsOf pair s).hasBound then [.read (boundsOf pair s).text] else [] := by
  rw [values, withRanges, valuesOf_flatMap (by decide) hpair]
  · unfold joined
    split_ifs
    · simp [Parameter.valuesOf]
    · rfl
  · intro other ho hne
    rw [Parameter.valuesOf_eq_nil_iff]
    intro p hp
    rw [mem_joined hp]
    exact (apart_of_ne other ho pair hpair hne).1

theorem mergeDuplicates_withRanges (asHull : Bool) (s : Selector) :
    s.withRanges.mergeDuplicates asHull = s.withRanges := by
  refine congrArg (Selector.mk s.head) (Parameter.mergeDuplicates_eq_self fun p hp => ?_)
  obtain ⟨pair, hpair, rfl⟩ := name_mem_withRanges hp
  refine Parameter.mergedValue?_of_length_le ?_
  rw [Parameter.name_ofTexts]
  have hv := values_withRanges (s := s) hpair
  rw [values] at hv
  rw [hv]
  split_ifs <;> simp

theorem BoundsOnly.toJava_eq (h : s.BoundsOnly) : toJava s = pure s.withRanges := by
  have hdrop : ∀ name ∈ boundNames, Dialect.dropReason? name .java = none := by
    decide
  refine toJava_eq_joined h.head (fun p hp => hdrop _ (h.names p hp)) ?_ fun p hp => ?_
  · have hf : s.parameters.filter (fun p => rangePairs.all fun pair => !isBound pair p) = [] := by
      apply List.filter_eq_nil_iff.2
      intro p hp hall
      obtain ⟨pair, hpair, hn⟩ := exists_pair_of_boundName (h.names p hp)
      have hb := List.all_eq_true.1 hall pair hpair
      have hname : (decide (p.name = pair.min) || decide (p.name = pair.max)) = true := by
        simpa using hn
      rw [isBound, hname, h.numbers p hp] at hb
      exact Bool.false_ne_true hb
    rw [foldl_joinRange apart_rangePairs, hf, List.nil_append]
    rfl
  · obtain ⟨pair, hpair, rfl⟩ := name_mem_withRanges hp
    exact javaReady_of_made (mem_javaMade (java_mem_javaPlain pair hpair))

/-- Adapting bounds to Java joins them. -/
theorem BoundsOnly.adapt_java (h : s.BoundsOnly) (asHull : Bool) :
    (adapt .java asHull s).value = s.withRanges := by
  have hm : s.mergeDuplicates asHull = s := by
    refine congrArg (Selector.mk s.head) (Parameter.mergeDuplicates_eq_self fun p _ => ?_)
    exact Parameter.mergedValue?_of_length_le (Parameter.length_valuesOf_of_nodup h.nodup)
  rw [adapt_eq, hm, inTerms, h.toJava_eq]
  exact mergeDuplicates_withRanges asHull s

/-! ## Back to Bedrock -/

/-- The lower bound that comes back from a range: none if it was written as one number and
    a single number does not bound from below. -/
def lowerBack (pair : RangePair) (b : Bounds) : Option Text :=
  if b.isPoint && !pair.scalarIsExact then none else b.min.map Numeral.normalize

/-- The upper bound that comes back from a range. Equal ends are written once. -/
def upperBack (b : Bounds) : Option Text :=
  if b.isPoint then b.min.map Numeral.normalize else b.max.map Numeral.normalize

/-- The bounds that come back from a range. -/
def broughtBack (pair : RangePair) (b : Bounds) : List Parameter :=
  ((lowerBack pair b).map (Parameter.ofTexts pair.min)).toList
    ++ ((upperBack b).map (Parameter.ofTexts pair.max)).toList

/-- Splitting the text of a range. -/
theorem boundsOfRange?_read {b : Bounds} (hn : b.Numeric) (hb : b.hasBound = true) :
    boundsOfRange? pair (.read b.text) = some (broughtBack pair b) := by
  have hf : (Value.range b).Faithful := hn
  cases hp : b.isPoint with
  | true =>
    obtain ⟨lo, hi, rfl, -, hr⟩ := hf.reread_point hp
    rw [Value.reread, Value.text] at hr
    rw [hr, broughtBack, lowerBack, upperBack, hp]
    cases he : pair.scalarIsExact <;> simp [boundsOfRange?, he]
  | false =>
    have hr := hf.reread_range hp hb
    rw [Value.reread, Value.text] at hr
    rw [hr, broughtBack, lowerBack, upperBack, hp]
    simp [boundsOfRange?, Bounds.normal, Function.comp_def]

theorem numeric_back (pair : RangePair) {b : Bounds} (hn : b.Numeric) :
    Bounds.Numeric ⟨lowerBack pair b, upperBack b⟩ := by
  have hnorm := Bounds.numeric_normal hn
  have hmin : ∀ t ∈ b.min.map Numeral.normalize, Numeral.isNumeral t = true :=
    fun t ht => hnorm t (.inl ht)
  have hmax : ∀ t ∈ b.max.map Numeral.normalize, Numeral.isNumeral t = true :=
    fun t ht => hnorm t (.inr ht)
  have hlower : ∀ t ∈ lowerBack pair b, Numeral.isNumeral t = true := by
    unfold lowerBack
    split_ifs
    · simp
    · exact hmin
  have hupper : ∀ t ∈ upperBack b, Numeral.isNumeral t = true := by
    unfold upperBack
    split_ifs
    · exact hmin
    · exact hmax
  rintro t (ht | ht)
  · exact hlower t ht
  · exact hupper t ht

/-- The selector with its ranges split again. -/
def withBounds (s : Selector) : Selector :=
  { s with parameters := rangePairs.flatMap fun pair => broughtBack pair (boundsOf pair s) }

theorem mem_broughtBack {b : Bounds} (hn : b.Numeric) (h : p ∈ broughtBack pair b) :
    (p.name = pair.min ∨ p.name = pair.max) ∧ ∃ t, p.value = .scalar t ∧
      Numeral.isNumeral t = true := by
  have hback := numeric_back pair hn
  rw [broughtBack, List.mem_append, Option.mem_toList, Option.mem_toList, Option.map_eq_some_iff,
    Option.map_eq_some_iff] at h
  rcases h with ⟨t, ht, rfl⟩ | ⟨t, ht, rfl⟩
  · exact ⟨.inl rfl, t, Value.read_of_isNumeral (hback t (.inl ht)), hback t (.inl ht)⟩
  · exact ⟨.inr rfl, t, Value.read_of_isNumeral (hback t (.inr ht)), hback t (.inr ht)⟩

theorem splitOff_withRanges (h : s.BoundsOnly) (hf : ∀ p ∈ s.parameters, p.value.Faithful)
    (hpair : pair ∈ rangePairs) :
    splitOff pair s.withRanges = broughtBack pair (boundsOf pair s) := by
  rw [splitOff, values_withRanges hpair]
  split_ifs with hb
  · rw [List.flatMap_singleton, boundsOfRange?_read (h.numeric hf pair) hb, Option.getD_some]
  · generalize boundsOf pair s = b at hb
    obtain ⟨_ | lo, _ | hi⟩ := b
    · rfl
    all_goals simp [Bounds.hasBound] at hb

/-- The parameters that spell the ends of a range as bounds. -/
def boundParameters (pair : RangePair) (b : Bounds) : List Parameter :=
  (b.min.map (Parameter.ofTexts pair.min)).toList
    ++ (b.max.map (Parameter.ofTexts pair.max)).toList

theorem valuesOf_boundParameters (hpair : pair ∈ rangePairs) {b : Bounds} (hn : b.Numeric) :
    Parameter.valuesOf pair.min (boundParameters pair b) = b.min.toList.map .scalar ∧
      Parameter.valuesOf pair.max (boundParameters pair b) = b.max.toList.map .scalar := by
  have hne : ∀ pair ∈ rangePairs, pair.min ≠ pair.max ∧ pair.max ≠ pair.min := by
    decide
  have hsame : ∀ (name : Text) (o : Option Text), (∀ t ∈ o, Numeral.isNumeral t = true) →
      Parameter.valuesOf name (o.map (Parameter.ofTexts name)).toList = o.toList.map .scalar := by
    intro name o ho
    cases o with
    | none => rfl
    | some t => simp [Parameter.valuesOf, Value.read_of_isNumeral (ho t rfl)]
  have hdiff : ∀ (name name' : Text) (o : Option Text), name' ≠ name →
      Parameter.valuesOf name (o.map (Parameter.ofTexts name')).toList = [] := by
    intro name name' o hn
    cases o <;> simp [Parameter.valuesOf, hn]
  rw [boundParameters, Parameter.valuesOf_append, Parameter.valuesOf_append,
    hsame _ _ fun t ht => hn t (.inl ht), hsame _ _ fun t ht => hn t (.inr ht),
    hdiff _ _ _ (hne pair hpair).1, hdiff _ _ _ (hne pair hpair).2]
  exact ⟨List.append_nil _, List.nil_append _⟩

theorem values_withBounds (h : s.BoundsOnly) (hf : ∀ p ∈ s.parameters, p.value.Faithful)
    (hpair : pair ∈ rangePairs) :
    s.withBounds.values pair.min = (lowerBack pair (boundsOf pair s)).toList.map .scalar ∧
      s.withBounds.values pair.max = (upperBack (boundsOf pair s)).toList.map .scalar := by
  have hother : ∀ name ∈ [pair.min, pair.max], ∀ other ∈ rangePairs, other ≠ pair →
      Parameter.valuesOf name (broughtBack other (boundsOf other s)) = [] := by
    intro name hname other ho hne
    rw [Parameter.valuesOf_eq_nil_iff]
    rintro p hp rfl
    obtain ⟨hmin, hmax⟩ := (apart_of_ne pair hpair other ho (Ne.symm hne)).2 _ hname
    rcases (mem_broughtBack (h.numeric hf other) hp).1 with hn | hn
    · exact hmin hn
    · exact hmax hn
  obtain ⟨hmin, hmax⟩ := valuesOf_boundParameters hpair (numeric_back pair (h.numeric hf pair))
  rw [values, values, withBounds, valuesOf_flatMap (by decide) hpair (hother _ (by simp)),
    valuesOf_flatMap (by decide) hpair (hother _ (by simp))]
  exact ⟨hmin, hmax⟩

theorem mem_withBounds (h : s.BoundsOnly) (hf : ∀ p ∈ s.parameters, p.value.Faithful)
    (hp : p ∈ s.withBounds.parameters) :
    ∃ pair ∈ rangePairs, (p.name = pair.min ∨ p.name = pair.max) ∧ ∃ t, p.value = .scalar t ∧
      Numeral.isNumeral t = true := by
  obtain ⟨pair, hpair, hm⟩ := List.mem_flatMap.1 hp
  exact ⟨pair, hpair, mem_broughtBack (h.numeric hf pair) hm⟩

theorem BoundsOnly.toBedrock_eq (h : s.BoundsOnly) (hf : ∀ p ∈ s.parameters, p.value.Faithful) :
    (toBedrock s.withRanges).value = s.withBounds := by
  have hdrop : ∀ pair ∈ rangePairs, Dialect.dropReason? pair.java .bedrock = none := by
    decide
  have hmade : ∀ pair ∈ rangePairs, pair.min ∈ bedrockMade ∧ pair.max ∈ bedrockMade := by
    decide
  refine toBedrock_value_eq_split (fun p hp => ?_) ?_ fun p hp => ?_
  · obtain ⟨pair, hpair, rfl⟩ := name_mem_withRanges hp
    exact hdrop pair hpair
  · have hnone : s.withRanges.parameters.filter
        (fun p => rangePairs.all fun pair => (splitRule pair p).value.isNone) = [] := by
      apply List.filter_eq_nil_iff.2
      intro p hp hall
      obtain ⟨pair, hpair, hj⟩ := List.mem_flatMap.1 hp
      have hs := List.all_eq_true.1 hall pair hpair
      unfold joined at hj
      split_ifs at hj with hb
      · rw [List.mem_singleton.1 hj, splitRule_value, Parameter.name_ofTexts, if_pos rfl,
          Parameter.value_ofTexts, boundsOfRange?_read (h.numeric hf pair) hb] at hs
        exact Bool.false_ne_true hs
      · simp at hj
    have hsplit : rangePairs.flatMap (fun pair => splitOff pair s.withRanges) =
        s.withBounds.parameters :=
      List.flatMap_congr fun pair hpair => splitOff_withRanges h hf hpair
    rw [foldlM_splitRange, hnone, List.nil_append, hsplit]
    rfl
  · obtain ⟨pair, hpair, hname, -⟩ := mem_withBounds h hf hp
    refine bedrockReady_of_made ?_
    rcases hname with hn | hn
    · exact hn ▸ (hmade pair hpair).1
    · exact hn ▸ (hmade pair hpair).2

theorem mergeDuplicates_withBounds (h : s.BoundsOnly)
    (hf : ∀ p ∈ s.parameters, p.value.Faithful) (asHull : Bool) :
    s.withBounds.mergeDuplicates asHull = s.withBounds := by
  refine congrArg (Selector.mk s.head) (Parameter.mergeDuplicates_eq_self fun p hp => ?_)
  obtain ⟨pair, hpair, hname, -⟩ := mem_withBounds h hf hp
  obtain ⟨hmin, hmax⟩ := values_withBounds h hf hpair
  have hlen : ∀ o : Option Text, (o.toList.map Value.scalar).length ≤ 1 := by
    intro o
    cases o <;> simp
  refine Parameter.mergedValue?_of_length_le ?_
  rw [values] at hmin hmax
  rcases hname with hn | hn
  · rw [hn, hmin]
    exact hlen _
  · rw [hn, hmax]
    exact hlen _

/-- Adapting the ranges to Bedrock splits them. -/
theorem BoundsOnly.adapt_bedrock (h : s.BoundsOnly)
    (hf : ∀ p ∈ s.parameters, p.value.Faithful) (asHull : Bool) :
    (adapt .bedrock asHull s.withRanges).value = s.withBounds := by
  rw [adapt_eq, mergeDuplicates_withRanges, Noted.value_bind, Noted.value_pure, inTerms,
    h.toBedrock_eq hf, mergeDuplicates_withBounds h hf]

/-! ## Through the texts -/

/-- A selector whose values are numeric and stay as they are when they are read again is
    read back from its text. -/
theorem read_text_of_numeric (hh : s.head.Readable)
    (h : ∀ p ∈ s.parameters, Parameter.IsKeyword p.name ∧ p.value.Faithful ∧
      p.value.bounds?.isSome = true ∧ p.value.reread = p.value) :
    read s.text = pure s := by
  have hw : s.WellFormed isSeparator := by
    refine ⟨hh, fun p hp => ?_⟩
    obtain ⟨⟨hne, heq, ht, hi⟩, hf, hb, -⟩ := h p hp
    refine ⟨hne, heq, ht, separates_isSeparator.closed fun c hc => ?_, hf⟩
    rcases List.mem_append.1 hc with hc | hc
    · exact hi c hc
    · rcases List.mem_cons.1 hc with rfl | hc
      · decide
      · exact isInert_of_isNumeralChar (hf.isNumeralChar_text hb c hc)
  have hs : s.reread = s := by
    refine congrArg (Selector.mk s.head) ?_
    have hid : ∀ p ∈ s.parameters, p.reread = id p := fun p hp =>
      congrArg (Parameter.mk p.name) (h p hp).2.2.2
    rw [List.map_congr_left hid, List.map_id]
  rw [hw.read_text (by decide) (by decide), hs]

theorem read_withRanges (h : s.BoundsOnly) (hf : ∀ p ∈ s.parameters, p.value.Faithful)
    (hh : s.head.Readable) : read s.withRanges.text = pure s.withRanges := by
  refine read_text_of_numeric hh ?_
  intro p hp
  obtain ⟨pair, hpair, hj⟩ := List.mem_flatMap.1 hp
  unfold joined at hj
  split_ifs at hj with hb
  · have hn : (Value.range (boundsOf pair s)).Faithful := h.numeric hf pair
    rw [List.mem_singleton.1 hj]
    refine ⟨(isKeyword_rangePairs pair hpair).1, Value.faithful_read _, ?_, hn.reread_reread⟩
    rw [Parameter.value_ofTexts, Option.isSome_iff_ne_none, ne_eq,
      ← boundsOfRange?_eq_none pair, boundsOfRange?_read (h.numeric hf pair) hb]
    simp
  · simp at hj

theorem read_withBounds (h : s.BoundsOnly) (hf : ∀ p ∈ s.parameters, p.value.Faithful)
    (hh : s.head.Readable) : read s.withBounds.text = pure s.withBounds := by
  refine read_text_of_numeric hh ?_
  intro p hp
  obtain ⟨pair, hpair, hname, t, hv, ht⟩ := mem_withBounds h hf hp
  obtain ⟨-, hmin, hmax⟩ := isKeyword_rangePairs pair hpair
  have hkey : Parameter.IsKeyword p.name := by
    rcases hname with hn | hn
    · exact hn ▸ hmin
    · exact hn ▸ hmax
  rw [hv]
  exact ⟨hkey, Value.faithful_scalar ht, rfl, Value.read_of_isNumeral ht⟩

/-! ## What comes back -/

theorem sameNumber_normalize {o : Option Text} (h : ∀ t ∈ o, Numeral.isNumeral t = true) :
    List.Forall₂ SameNumber (o.toList.map Value.scalar)
      ((o.map Numeral.normalize).toList.map Value.scalar) := by
  cases o with
  | none => exact .nil
  | some t =>
    refine .cons ⟨t, Numeral.normalize t, rfl, rfl, ?_⟩ .nil
    have ht := h t rfl
    rw [Numeral.compare?_eq, Numeral.scaled_normalize, ← Numeral.compare?_eq]
    exact Numeral.compare?_self_of_isNumeral ht

/-- Equal ends come back as the spelling of the lower one. -/
theorem sameNumber_of_isPoint {lo hi : Text} (h : Numeral.compare? lo hi = some .eq) :
    SameNumber (.scalar hi) (.scalar (Numeral.normalize lo)) := by
  obtain ⟨x, hlo, hhi⟩ := Numeral.compare?_eq_some_eq.1 h
  refine ⟨hi, Numeral.normalize lo, rfl, rfl, Numeral.compare?_eq_some_eq.2 ⟨x, hhi, ?_⟩⟩
  rw [Numeral.scaled_normalize, hlo]

/-- The values of a bound behind both passes. -/
theorem BoundsOnly.values_roundTrip (h : s.BoundsOnly)
    (hf : ∀ p ∈ s.parameters, p.value.Faithful) (hpair : pair ∈ rangePairs) :
    List.Forall₂ SameNumber (s.values pair.max) (s.withBounds.values pair.max) ∧
      (((boundsOf pair s).isPoint && !pair.scalarIsExact) = false →
        List.Forall₂ SameNumber (s.values pair.min) (s.withBounds.values pair.min)) := by
  obtain ⟨hmin, hmax⟩ := values_withBounds h hf hpair
  have hb := h.boundsOf_eq hf pair
  rw [hmin, hmax, h.values_eq, h.values_eq]
  constructor
  · unfold upperBack
    split_ifs with hpt
    · obtain ⟨lo, hi, he, hc, -⟩ := Bounds.text_of_isPoint hpt
      rw [hb, Bounds.mk.injEq] at he
      rw [hb, he.1, he.2]
      exact .cons (sameNumber_of_isPoint hc) .nil
    · rw [hb]
      exact sameNumber_normalize (h.isNumeral hf)
  · intro hp
    rw [lowerBack, hp, hb]
    exact sameNumber_normalize (h.isNumeral hf)

/-- The range of a quantity loses its lower bound exactly if it is the distance, bounded by
    the same number on both sides. -/
theorem BoundsOnly.isPoint_distance_iff (h : s.BoundsOnly)
    (hf : ∀ p ∈ s.parameters, p.value.Faithful) (hpair : pair ∈ rangePairs) :
    ((boundsOf pair s).isPoint && !pair.scalarIsExact) = true ↔
      pair.min = "rm" ∧ s.FixesDistance := by
  have hexact : ∀ pair ∈ rangePairs, (pair.scalarIsExact = false ↔ pair.min = "rm") ∧
      (pair.min = "rm" → pair.max = "r") := by
    decide
  obtain ⟨hrm, hr⟩ := hexact pair hpair
  rw [Bool.and_eq_true, Bool.not_eq_true', hrm]
  constructor
  · rintro ⟨hp, hmin⟩
    obtain ⟨lo, hi, he, hc, -⟩ := Bounds.text_of_isPoint hp
    rw [h.boundsOf_eq hf, Bounds.mk.injEq, hmin, hr hmin] at he
    refine ⟨hmin, .scalar lo, ?_, .scalar hi, ?_, lo, hi, rfl, rfl, hc⟩
    · rw [h.values_eq, he.1]
      simp
    · rw [h.values_eq, he.2]
      simp
  · rintro ⟨hmin, a, ha, b, hb, lo, hi, rfl, rfl, hc⟩
    have hbound : ∀ {name t}, Value.scalar t ∈ s.values name → s.bound? name = some t := by
      intro name t hm
      rw [h.values_eq] at hm
      obtain ⟨u, hu, he⟩ := List.mem_map.1 hm
      rw [← Value.scalar.inj he]
      exact Option.mem_toList.1 hu
    refine ⟨?_, hmin⟩
    rw [h.boundsOf_eq hf, hmin, hr hmin, hbound ha, hbound hb]
    simpa [Bounds.isPoint] using hc

theorem BoundsOnly.filter_filter_eq (settings : Settings) {t : Text}
    (h : (read t).value.BoundsOnly) :
    read (filter .bedrock settings (filter .java settings t).value).value =
      pure (read t).value.withBounds := by
  have hf : ∀ p ∈ (read t).value.parameters, p.value.Faithful := fun p hp =>
    faithful_of_mem_read hp
  have hh := readable_head_read t
  rw [filter_value, filter_value, h.adapt_java, read_withRanges h hf hh, Noted.value_pure,
    h.adapt_bedrock hf, read_withBounds h hf hh]

/-- Every bound comes back from Java with its value, except for a lower bound on the
    distance that is equal to the upper one. -/
theorem bounds_roundTrip (settings : Settings) {t : Text} (h : (read t).value.BoundsOnly) :
    let s := (read t).value
    let java := (filter .java settings t).value
    let back := (read (filter .bedrock settings java).value).value
    back.head = s.head ∧ ∀ name : Text,
      (name = "rm" ∧ s.FixesDistance → back.values name = []) ∧
      (¬ (name = "rm" ∧ s.FixesDistance) →
        List.Forall₂ SameNumber (s.values name) (back.values name)) := by
  intro s java back
  have hf : ∀ p ∈ s.parameters, p.value.Faithful := fun p hp => faithful_of_mem_read hp
  have hback : back = s.withBounds := congrArg Noted.value (h.filter_filter_eq settings)
  rw [hback]
  refine ⟨rfl, fun name => ?_⟩
  by_cases hname : name ∈ boundNames
  · obtain ⟨pair, hpair, rfl | rfl⟩ := exists_pair_of_boundName hname
    · have hpt := h.isPoint_distance_iff hf hpair
      rw [← hpt]
      constructor
      · intro hp
        rw [(values_withBounds h hf hpair).1, lowerBack, if_pos hp]
        rfl
      · intro hp
        exact (h.values_roundTrip hf hpair).2 (Bool.eq_false_iff.2 hp)
    · have hne : ∀ pair ∈ rangePairs, pair.max ≠ "rm" := by
        decide
      exact ⟨fun hn => absurd hn.1 (hne pair hpair), fun _ => (h.values_roundTrip hf hpair).1⟩
  · -- neither selector has parameters of other names
    have hs : s.values name = [] := by
      apply Parameter.valuesOf_eq_nil_iff.2
      intro p hp hn
      exact hname (hn ▸ h.names p hp)
    have hb : s.withBounds.values name = [] := by
      have hall : ∀ pair ∈ rangePairs, pair.min ∈ boundNames ∧ pair.max ∈ boundNames := by
        decide
      apply Parameter.valuesOf_eq_nil_iff.2
      intro p hp hn
      apply hname
      obtain ⟨pair, hpair, hp, -⟩ := mem_withBounds h hf hp
      rcases hp with hp | hp
      · exact hn ▸ hp ▸ (hall pair hpair).1
      · exact hn ▸ hp ▸ (hall pair hpair).2
    rw [hs, hb]
    exact ⟨fun _ => rfl, fun _ => .nil⟩

/-- Bounds in several spellings, some of them equal. -/
theorem bounds_roundTrip_mixed_spellings :
    let t : Text := "@e[r=5.0,rm=5,lm=.5,rxm=-90,rx=-90.00]"
    let back := (filter .bedrock .standard (filter .java .standard t).value).value
    back = "@e[r=5,rxm=-90,rx=-90,lm=.5]" ∧ (read t).value.FixesDistance ∧
      (read back).value.values "rm" = [] ∧
      List.Forall₂ SameNumber ((read t).value.values "rx") ((read back).value.values "rx") := by
  intro t back
  have h : (read t).value.BoundsOnly :=
    ⟨by decide +kernel, by decide +kernel, by decide +kernel, by decide +kernel⟩
  have hfix : (read t).value.FixesDistance :=
    ⟨.scalar "5", by decide +kernel, .scalar "5.0", by decide +kernel, "5", "5.0", rfl, rfl,
      by decide +kernel⟩
  have hback := (bounds_roundTrip .standard h).2
  exact ⟨by decide +kernel, hfix, (hback "rm").1 ⟨rfl, hfix⟩,
    (hback "rx").2 fun hn => absurd hn.1 (by decide)⟩

/-- A lower bound on the distance that is equal to the upper one does not come back. -/
theorem bounds_roundTrip_loses_equal_distance :
    ¬ ∀ (settings : Settings) (t : Text), (read t).value.BoundsOnly → ∀ name,
      List.Forall₂ SameNumber ((read t).value.values name)
        ((read (filter .bedrock settings (filter .java settings t).value).value).value.values
          name) := by
  intro h
  have hb : (read "@a[rm=5,r=5]").value.BoundsOnly :=
    ⟨by decide +kernel, by decide +kernel, by decide +kernel, by decide +kernel⟩
  have hrm := (h .standard "@a[rm=5,r=5]" hb "rm").length_eq
  revert hrm
  decide +kernel

end Selector

end CrossEdition
