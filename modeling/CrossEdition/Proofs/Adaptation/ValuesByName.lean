import CrossEdition.Proofs.Adaptation.BoundsRoundTrip
import CrossEdition.Proofs.Adaptation.Frames
import CrossEdition.Proofs.Selector.Intervals

/-!
# The values of one name

What an adaptation does to the values of one name. Ranges and bounds are touched by one
stage for each dialect, which puts what it makes behind the rest.

Results:
* `perm_values_displace`: a stage that changes the values of one name one by one.
* `values_toJava`: the ranges of a quantity in Java's terms.
* `values_toBedrock`: the bounds of a quantity in Bedrock's terms.
-/

namespace CrossEdition

namespace Selector

variable {s : Selector} {pair : RangePair} {name : Text}

theorem filterMap_numeral? (ts : List Text) :
    (ts.map Value.scalar).filterMap Value.numeral? = ts := by
  rw [List.filterMap_map]
  exact List.filterMap_some

theorem faithful_values (hf : ∀ p ∈ s.parameters, p.value.Faithful) :
    ∀ v ∈ s.values name, v.Faithful :=
  fun _ hv => hf _ (Parameter.mem_valuesOf.1 hv)

theorem isNumeral_of_mem_numerals (hf : ∀ p ∈ s.parameters, p.value.Faithful) :
    ∀ t ∈ s.numerals name, Numeral.isNumeral t = true :=
  fun _ ht => (hf _ (scalar_mem_of_numerals ht)).isNumeral

theorem numeric_boundsOf (pair : RangePair) (hf : ∀ p ∈ s.parameters, p.value.Faithful) :
    (boundsOf pair s).Numeric := by
  rintro t (ht | ht)
  · exact isNumeral_of_mem_numerals hf t (Numeral.best?_mem ht)
  · exact isNumeral_of_mem_numerals hf t (Numeral.best?_mem ht)

theorem faithful_mergeDuplicates {asHull : Bool} (hf : ∀ p ∈ s.parameters, p.value.Faithful) :
    ∀ p ∈ (s.mergeDuplicates asHull).parameters, p.value.Faithful :=
  Parameter.faithful_mergeDuplicates hf

theorem values_reread (s : Selector) (name : Text) :
    s.reread.values name = (s.values name).map Value.reread :=
  Parameter.valuesOf_reread name s.parameters

/-- Merging does not matter to a name that is there at most once. -/
theorem values_mergeDuplicates_of_length_le (asHull : Bool) (h : (s.values name).length ≤ 1) :
    (s.mergeDuplicates asHull).values name = s.values name := by
  have hv := Parameter.valuesOf_mergeDuplicates asHull s.parameters name
  rwa [Parameter.mergedValue?_of_length_le h] at hv

/-- Merging leaves a name alone if one of its values does not fit the rule. -/
theorem values_mergeDuplicates_of_not_fits (asHull : Bool)
    (h : ¬∀ v ∈ s.values name, (mergeRule name).fits v = true) :
    (s.mergeDuplicates asHull).values name = s.values name := by
  have hv := Parameter.valuesOf_mergeDuplicates asHull s.parameters name
  cases hm : Parameter.mergedValue? asHull s.parameters name with
  | none => rwa [hm] at hv
  | some v => exact absurd (Parameter.fits_of_mergedValue? hm).1 h

/-- Merging does not change the best bound of a name, whether or not all of them are numbers. -/
theorem best?_numerals_mergeDuplicates {asHull : Bool} {wanted : Ordering}
    (hrule : (mergeRule name = .min ∧ wanted = .lt) ∨ (mergeRule name = .max ∧ wanted = .gt))
    (hf : ∀ p ∈ s.parameters, p.value.Faithful) :
    Numeral.best? wanted ((s.mergeDuplicates asHull).numerals name) =
      Numeral.best? wanted (s.numerals name) := by
  by_cases h : ∀ v ∈ s.values name, v.numeral?.isSome = true
  · have hv : (s.mergeDuplicates asHull).values name =
        (Numeral.best? wanted (s.numerals name)).toList.map .scalar :=
      Parameter.scalars_mergeDuplicates hrule (faithful_values hf) h
    rw [numerals, hv, filterMap_numeral?]
    exact Numeral.best?_toList fun t ht => isNumeral_of_mem_numerals hf t (Numeral.best?_mem ht)
  · rw [numerals, values_mergeDuplicates_of_not_fits asHull, numerals]
    rcases hrule with ⟨hr, -⟩ | ⟨hr, -⟩ <;> rwa [hr]

/-- Merging does not change what the bounds of a quantity give. -/
theorem boundsOf_mergeDuplicates {asHull : Bool} (hf : ∀ p ∈ s.parameters, p.value.Faithful)
    (hpair : pair ∈ rangePairs) : boundsOf pair (s.mergeDuplicates asHull) = boundsOf pair s := by
  obtain ⟨-, hmin, hmax⟩ := mergeRule_rangePairs pair hpair
  exact congrArg₂ Bounds.mk (best?_numerals_mergeDuplicates (.inl ⟨hmin, rfl⟩) hf)
    (best?_numerals_mergeDuplicates (.inr ⟨hmax, rfl⟩) hf)

theorem rangeNames_notMem : ∀ pair ∈ rangePairs, ∀ name ∈ pair.names,
    name ∉ Dialect.exclusiveNames .java ∧ name ∉ Dialect.exclusiveNames .bedrock ∧
      name ∉ (["m", "gamemode"] : List Text) ∧ name ∉ (["c", "limit", "sort"] : List Text) ∧
      name ∉ (["hasitem", "nbt"] : List Text) ∧ name ∉ (["scores"] : List Text) ∧
      name ∉ (["nbt", "hasitem", "tag", "type"] : List Text) := by
  decide +kernel

/-- A stage that replaces parameters of one name by such of the same name changes their
    values one by one, and puts the changed ones behind the others. -/
theorem perm_values_displace {f : Rule} {name : Text} {become : Value → List Value}
    (hname : ∀ v, ((f ⟨name, v⟩).value = none ∧ become v = [v]) ∨
      (f ⟨name, v⟩).value = some ((become v).map (Parameter.mk name)))
    (hother : ∀ p, p.name ≠ name → (f p).value = none) :
    ((displace f s).value.values name).Perm ((s.values name).flatMap become) := by
  rw [values, displace, Parameter.valuesOf_append, values]
  induction s.parameters with
  | nil => exact .nil
  | cons p ps ih =>
    rw [List.flatMap_cons, Parameter.valuesOf_append, Parameter.valuesOf_cons]
    by_cases hp : p.name = name
    · obtain ⟨_, v⟩ := p
      obtain rfl : _ = name := hp
      rw [if_pos rfl, List.flatMap_cons]
      rcases hname v with ⟨hv, hb⟩ | hv
      · rw [List.filter_cons_of_pos (by rw [hv]; rfl), hv, Parameter.valuesOf_cons, if_pos rfl, hb]
        exact ih.cons v
      · rw [List.filter_cons_of_neg (by rw [hv]; exact Bool.false_ne_true), hv, Option.getD_some,
          Parameter.valuesOf_map_mk]
        exact (List.perm_append_comm_assoc ..).trans (ih.append_left _)
    · have hv := hother p hp
      rw [if_neg hp, hv, List.filter_cons_of_pos (by rw [hv]; rfl), Parameter.valuesOf_cons,
        if_neg hp]
      exact ih

/-- In Java's terms the bounds of a quantity stand as one more range behind its ranges. -/
theorem values_toJava (hpair : pair ∈ rangePairs) :
    (toJava s).value.values pair.java = s.values pair.java ++
      if (boundsOf pair s).hasBound then [.read (boundsOf pair s).text] else [] := by
  have hnames := rangeNames_notMem pair hpair
  obtain ⟨hd, -, hm, hc, hi, hs, -⟩ := hnames _ pair.java_mem_names
  simp only [toJava, Noted.value_bind, touchesOnly_positiveScores.values hs,
    touchesOnly_itemsToNbt.values hi, touchesOnly_splitCount.values hc,
    touchesOnly_gamemode.values hm]
  generalize hr : (dropExclusive .java (replaceVariable s).value).value = r
  have hv : ∀ name ∈ pair.names, r.values name = s.values name := by
    intro name hname
    rw [← hr, (touchesOnly_dropExclusive .java).values (hnames name hname).1,
      touchesOnly_replaceVariable.values (List.not_mem_nil)]
  have hb : boundsOf pair r = boundsOf pair s := by
    rw [boundsOf, boundsOf, numerals, numerals, hv _ pair.min_mem_names,
      hv _ pair.max_mem_names, numerals, numerals]
  have hj : Parameter.valuesOf pair.java (rangePairs.flatMap fun pair => joined pair r) =
      if (boundsOf pair r).hasBound then [.read (boundsOf pair r).text] else [] :=
    values_withRanges hpair
  rw [values, foldl_joinRange apart_rangePairs, Parameter.valuesOf_append, hj, hb,
    ← hv _ pair.java_mem_names, values]
  congr 1
  refine Parameter.valuesOf_filter fun p _ hp => ?_
  have hne : ∀ a ∈ rangePairs, ∀ b ∈ rangePairs, a.java ≠ b.min ∧ a.java ≠ b.max := by
    decide
  refine List.all_eq_true.2 fun other ho => ?_
  simp [isBound, hp, hne pair hpair other ho]

/-- Joined bounds are read as a value with their interval. -/
theorem interval?_of_mem_joined (pair : RangePair) (hf : ∀ p ∈ s.parameters, p.value.Faithful)
    {v : Value} (hv : v ∈
      if (boundsOf pair s).hasBound then [Value.read (boundsOf pair s).text] else []) :
    v.Faithful ∧ v.interval? = some (boundsOf pair s).interval := by
  split_ifs at hv with hb
  · obtain rfl := List.mem_singleton.1 hv
    exact ⟨Value.faithful_read _,
      Value.Faithful.interval?_reread_range (numeric_boundsOf pair hf) hb⟩
  · exact absurd hv (List.not_mem_nil)

/-- In Bedrock's terms the ends of the ranges stand behind the bounds of a quantity. -/
theorem values_toBedrock (hpair : pair ∈ rangePairs) (hname : name ∈ [pair.min, pair.max]) :
    (toBedrock s).value.values name =
      s.values name ++ Parameter.valuesOf name (splitOff pair s) := by
  have hnames := rangeNames_notMem pair hpair
  obtain ⟨-, hd, hm, hc, -, -, hg⟩ := hnames name (List.mem_cons_of_mem _ hname)
  rw [values_toBedrock_eq_rangesSplit hm hc hg, rangesSplit]
  generalize hr : (dropExclusive .bedrock s).value = r
  have hv : ∀ name ∈ pair.names, r.values name = s.values name := by
    intro name hname
    rw [← hr, (touchesOnly_dropExclusive .bedrock).values (hnames name hname).2.1]
  have ho : splitOff pair r = splitOff pair s := by
    rw [splitOff, splitOff, hv _ pair.java_mem_names]
  have hmade : Parameter.valuesOf name (rangePairs.flatMap fun pair => splitOff pair r) =
      Parameter.valuesOf name (splitOff pair r) := by
    refine valuesOf_flatMap (by decide) hpair fun other hother hne => ?_
    rw [Parameter.valuesOf_eq_nil_iff]
    rintro p hp rfl
    obtain ⟨hmin, hmax⟩ := (apart_of_ne pair hpair other hother (Ne.symm hne)).2 _ hname
    rcases name_of_mem_splitOff hp with hn | hn
    · exact hmin hn
    · exact hmax hn
  rw [values, foldlM_splitRange, Parameter.valuesOf_append, hmade, ho,
    ← hv name (List.mem_cons_of_mem _ hname), values]
  congr 1
  have hne : ∀ a ∈ rangePairs, ∀ b ∈ rangePairs, ∀ name ∈ [a.min, a.max], name ≠ b.java := by
    decide
  refine Parameter.valuesOf_filter fun p _ hp => List.all_eq_true.2 fun other hother => ?_
  rw [splitRule_value, if_neg (hp ▸ hne pair hpair other hother name hname)]
  rfl

/-- A range is split into its two ends, and so is a single number that is exact. -/
theorem exists_boundsOfRange? (pair : RangePair) {v : Value} {c : Bounds} (hf : v.Faithful)
    (hc : v.bounds? = some c)
    (hv : v.isRange = true ∨ (pair.scalarIsExact = true ∧ v.numeral?.isSome = true)) :
    ∃ b : Bounds, b.Numeric ∧ b.interval = c.interval ∧ b.hasBound = c.hasBound ∧
      boundsOfRange? pair v = some (boundParameters pair b) := by
  cases v with
  | scalar t =>
    rcases hv with hv | ⟨he, -⟩
    · simp [Value.isRange] at hv
    · exact ⟨c, hf.numeric hc, rfl, rfl, by simp [← Option.some.inj hc, boundsOfRange?, he,
        boundParameters, Bounds.exact]⟩
  | range b =>
    obtain rfl := Option.some.inj hc
    refine ⟨b.normal, Bounds.numeric_normal hf, ?_, Bounds.hasBound_normal b, ?_⟩
    · obtain ⟨_ | lo, _ | hi⟩ := b <;> simp [Bounds.interval, Bounds.normal]
    · simp [boundsOfRange?, boundParameters, Bounds.normal, Function.comp_def]
  | compound | literal => simp [Value.bounds?] at hc

/-- In Bedrock's terms only ranges that are not numeric are left. -/
theorem mem_values_java_toBedrock (hpair : pair ∈ rangePairs) {v : Value}
    (hv : v ∈ (toBedrock s).value.values pair.java) : v ∈ s.values pair.java ∧ v.bounds? = none := by
  obtain ⟨-, hd, hm, hc, -, -, hg⟩ := rangeNames_notMem pair hpair _ pair.java_mem_names
  rw [values_toBedrock_eq_rangesSplit hm hc hg, rangesSplit, values, foldlM_splitRange] at hv
  rcases List.mem_append.1 (Parameter.mem_valuesOf.1 hv) with hp | hp
  · obtain ⟨hp, hall⟩ := List.mem_filter.1 hp
    have hnone := List.all_eq_true.1 hall pair hpair
    rw [Option.isNone_iff_eq_none, splitRule_value, if_pos rfl, boundsOfRange?_eq_none] at hnone
    rw [← (touchesOnly_dropExclusive .bedrock).values hd]
    exact ⟨Parameter.mem_valuesOf.2 hp, hnone⟩
  · obtain ⟨other, hother, hp⟩ := List.mem_flatMap.1 hp
    have hne : ∀ a ∈ rangePairs, ∀ b ∈ rangePairs, b.java ≠ a.min ∧ b.java ≠ a.max := by
      decide
    obtain ⟨hmin, hmax⟩ := hne other hother pair hpair
    exact absurd (name_of_mem_splitOff hp) (not_or.2 ⟨hmin, hmax⟩)

/-- In Bedrock's terms no numeric ranges are left. -/
theorem values_java_toBedrock (hpair : pair ∈ rangePairs)
    (h : ∀ v ∈ s.values pair.java, v.bounds?.isSome = true) :
    (toBedrock s).value.values pair.java = [] := by
  rw [List.eq_nil_iff_forall_not_mem]
  intro v hv
  obtain ⟨hv, hnone⟩ := mem_values_java_toBedrock hpair hv
  have hsome := h v hv
  rw [hnone] at hsome
  exact Bool.noConfusion hsome

end Selector

end CrossEdition
