import CrossEdition.Proofs.Adaptation.ValuesByName

/-!
# Bounds of a mixed selector

A selector with parameters of both editions is written out for each of them. Java gets the
hull of its ranges and of its bounds, and Bedrock the least lower and the greatest upper end
of both. An open end counts differently on the two ways: it opens a hull, but it does not
take away a bound. So the editions get the same interval for a quantity exactly where the
ranges and the bounds have their ends on the same sides, or only one of them is there.

Results:
* `rangeInterval_adapt`, `boundInterval_adapt`: the interval that each edition gets.
* `rangeInterval_eq_boundInterval_iff`: when the two are the same.
* `convert_mixed_bounds`: all of this for the conversion of a mixed selector.
-/

namespace CrossEdition

namespace Selector

variable {s : Selector} {pair : RangePair} {name : Text}

/-! ## Intervals in front of the stages and behind them -/

/-- The interval that Java's parameter for a quantity gives. Without one it is unbounded. -/
def rangeInterval (pair : RangePair) (s : Selector) : Interval :=
  ((s.values pair.java).head?.bind Value.interval?).getD .unbounded

/-- The interval that Bedrock's bounds of a quantity give. -/
def boundInterval (pair : RangePair) (s : Selector) : Interval where
  lower := ((s.values pair.min).head?.bind Value.numeral?).bind Numeral.scaled?
  upper := ((s.values pair.max).head?.bind Value.numeral?).bind Numeral.scaled?

/-- A selector whose ranges and bounds have numeric values: ranges have the form of ranges,
    and bounds are single numbers. -/
structure NumericBounds (s : Selector) : Prop where
  ranges : ∀ pair ∈ rangePairs, ∀ v ∈ s.values pair.java, v.isRange = true
  bounds : ∀ pair ∈ rangePairs, ∀ name ∈ [pair.min, pair.max], ∀ v ∈ s.values name,
    v.numeral?.isSome = true

/-- What the ranges of a quantity give together: their hull. -/
def givenRange (pair : RangePair) (s : Selector) : Interval :=
  .hull ((s.values pair.java).filterMap Value.interval?)

/-- What the bounds of a quantity give together. -/
def givenBounds (pair : RangePair) (s : Selector) : Interval :=
  (boundsOf pair s).interval

/-! ### The first merge -/

/-- Behind merging each bound is there at most once, with the value that counts. -/
theorem values_min_mergeDuplicates {asHull : Bool} (hn : s.NumericBounds)
    (hf : ∀ p ∈ s.parameters, p.value.Faithful) (hpair : pair ∈ rangePairs) :
    (s.mergeDuplicates asHull).values pair.min = (boundsOf pair s).min.toList.map .scalar :=
  Parameter.scalars_mergeDuplicates (.inl ⟨(mergeRule_rangePairs pair hpair).2.1, rfl⟩)
    (faithful_values hf) (hn.bounds pair hpair _ (by simp))

theorem values_max_mergeDuplicates {asHull : Bool} (hn : s.NumericBounds)
    (hf : ∀ p ∈ s.parameters, p.value.Faithful) (hpair : pair ∈ rangePairs) :
    (s.mergeDuplicates asHull).values pair.max = (boundsOf pair s).max.toList.map .scalar :=
  Parameter.scalars_mergeDuplicates (.inr ⟨(mergeRule_rangePairs pair hpair).2.2, rfl⟩)
    (faithful_values hf) (hn.bounds pair hpair _ (by simp))

/-- Behind merging the range of a quantity is there at most once. -/
theorem values_java_mergeDuplicates (hn : s.NumericBounds)
    (hf : ∀ p ∈ s.parameters, p.value.Faithful) (hpair : pair ∈ rangePairs) :
    (s.values pair.java = [] ∧ (s.mergeDuplicates true).values pair.java = []) ∨
      ∃ b, s.values pair.java ≠ [] ∧ (s.mergeDuplicates true).values pair.java = [.range b] ∧
        b.interval = givenRange pair s := by
  have hv := Parameter.interval?_mergeDuplicates (mergeRule_rangePairs pair hpair).1
    (faithful_values hf) fun v hv => by
      obtain ⟨b, rfl⟩ := Value.isRange_iff.1 (hn.ranges pair hpair v hv)
      rfl
  have hrange : ∀ v ∈ (s.mergeDuplicates true).values pair.java, ∃ b, v = .range b := by
    intro v hv
    rcases Parameter.mem_mergeDuplicates hf (Parameter.mem_valuesOf.1 hv) with hp | ⟨-, -, b, hb, -⟩
    · exact Value.isRange_iff.1 (hn.ranges pair hpair v (Parameter.mem_valuesOf.2 hp))
    · exact ⟨b, hb⟩
  split_ifs at hv with hnil
  · exact .inl ⟨hnil, List.map_eq_nil_iff.1 hv⟩
  · obtain ⟨v, hv, hi⟩ := List.map_eq_singleton_iff.1 hv
    obtain ⟨b, rfl⟩ := hrange v (by rw [values, mergeDuplicates, hv]; simp)
    exact .inr ⟨b, hnil, hv, Option.some.inj hi⟩

/-! ### Java -/

/-- Behind the second merge one range is left, if any, and it is the hull of what stood there
    in front of it. -/
theorem rangeInterval_mergeDuplicates (hpair : pair ∈ rangePairs)
    (hf : ∀ v ∈ s.values pair.java, v.Faithful)
    (h : ∀ v ∈ s.values pair.java, v.bounds?.isSome = true) :
    ((s.mergeDuplicates true).values pair.java).length ≤ 1 ∧
      (s.mergeDuplicates true).rangeInterval pair = givenRange pair s := by
  have hv := Parameter.interval?_mergeDuplicates (mergeRule_rangePairs pair hpair).1 hf h
  rw [rangeInterval, givenRange, values, mergeDuplicates]
  split_ifs at hv with hnil
  · rw [List.map_eq_nil_iff.1 hv, values, hnil]
    exact ⟨by simp, rfl⟩
  · obtain ⟨v, hv, hi⟩ := List.map_eq_singleton_iff.1 hv
    rw [hv]
    refine ⟨le_rfl, ?_⟩
    rw [List.head?_cons, Option.bind_some, hi]
    rfl

/-- Java gets the hull of the ranges and of what the bounds are joined to. -/
theorem rangeInterval_adapt (hn : s.NumericBounds) (hf : ∀ p ∈ s.parameters, p.value.Faithful)
    (hpair : pair ∈ rangePairs) :
    ((adapt .java true s).value.values pair.java).length ≤ 1 ∧
      (adapt .java true s).value.rangeInterval pair =
        .hull ((if s.values pair.java = [] then [] else [givenRange pair s])
          ++ if (boundsOf pair s).hasBound then [givenBounds pair s] else []) := by
  have hv := values_toJava (s := s.mergeDuplicates true) hpair
  rw [boundsOf_mergeDuplicates hf hpair] at hv
  rw [adapt_value, inTerms]
  have hjoined : ∀ v ∈
      (if (boundsOf pair s).hasBound then [Value.read (boundsOf pair s).text] else []),
      v.Faithful ∧ v.interval? = some (givenBounds pair s) :=
    fun v hv => interval?_of_mem_joined pair hf hv
  have hjoins : (if (boundsOf pair s).hasBound then [Value.read (boundsOf pair s).text]
      else []).filterMap Value.interval? =
        if (boundsOf pair s).hasBound then [givenBounds pair s] else [] := by
    split_ifs at hjoined ⊢
    · rw [List.filterMap_cons_some (hjoined _ (by simp)).2]
      rfl
    · rfl
  have hmem : ∀ v ∈ (toJava (s.mergeDuplicates true)).value.values pair.java,
      v.Faithful ∧ v.bounds?.isSome = true := by
    intro v hm
    rw [hv, List.mem_append] at hm
    rcases hm with hm | hm
    · refine ⟨faithful_values (faithful_mergeDuplicates hf) v hm, ?_⟩
      rcases values_java_mergeDuplicates hn hf hpair with ⟨-, h⟩ | ⟨b, -, h, -⟩
      · simp [h] at hm
      · rw [h, List.mem_singleton] at hm
        rw [hm]
        rfl
    · exact ⟨(hjoined v hm).1, by rw [← Value.isSome_interval?, (hjoined v hm).2]; rfl⟩
  obtain ⟨hlen, hi⟩ := rangeInterval_mergeDuplicates hpair (fun v hv => (hmem v hv).1)
    fun v hv => (hmem v hv).2
  refine ⟨hlen, ?_⟩
  rw [hi, givenRange, hv, List.filterMap_append, hjoins]
  rcases values_java_mergeDuplicates hn hf hpair with ⟨h, h'⟩ | ⟨b, h, h', hb⟩
  · rw [h', if_pos h]
    rfl
  · rw [h', if_neg h, ← hb]
    rfl

/-! ### Bedrock -/

theorem filterMap_scaled?_toList (o o' : Option Text) :
    (o.toList ++ o'.toList).filterMap Numeral.scaled? =
      (o.bind Numeral.scaled?).toList ++ (o'.bind Numeral.scaled?).toList := by
  have h : ∀ o : Option Text, o.toList.filterMap Numeral.scaled? =
      (o.bind Numeral.scaled?).toList := by
    rintro (_ | t)
    · rfl
    · cases hx : Numeral.scaled? t <;> simp [hx]
  rw [List.filterMap_append, h, h]

theorem min?_toList (o o' : Option Int) :
    (o.toList ++ o'.toList).min? = Option.merge min o o' := by
  cases o <;> cases o' <;> rfl

theorem max?_toList (o o' : Option Int) :
    (o.toList ++ o'.toList).max? = Option.merge max o o' := by
  cases o <;> cases o' <;> rfl

theorem isNumeral_of_mem_toList {o o' : Option Text} (ho : ∀ t ∈ o, Numeral.isNumeral t = true)
    (ho' : ∀ t ∈ o', Numeral.isNumeral t = true) :
    ∀ t ∈ o.toList ++ o'.toList, Numeral.isNumeral t = true := by
  intro t ht
  rw [List.mem_append, Option.mem_toList, Option.mem_toList] at ht
  exact ht.elim (ho t) (ho' t)

/-- Of two bounds on one side the best one is left, with the better of their values. -/
theorem bound_mergeDuplicates {r : Selector} {wanted : Ordering} {o o' : Option Text}
    (hrule : (mergeRule name = .min ∧ wanted = .lt) ∨ (mergeRule name = .max ∧ wanted = .gt))
    (ho : ∀ t ∈ o, Numeral.isNumeral t = true) (ho' : ∀ t ∈ o', Numeral.isNumeral t = true)
    (hv : r.values name = (o.toList ++ o'.toList).map .scalar) :
    (r.mergeDuplicates true).values name =
      (Numeral.best? wanted (o.toList ++ o'.toList)).toList.map .scalar := by
  have hmem : ∀ v ∈ Parameter.valuesOf name r.parameters, ∃ t,
      Numeral.isNumeral t = true ∧ v = .scalar t := by
    intro v hm
    rw [show Parameter.valuesOf name r.parameters = _ from hv] at hm
    obtain ⟨t, ht, rfl⟩ := List.mem_map.1 hm
    exact ⟨t, isNumeral_of_mem_toList ho ho' t ht, rfl⟩
  rw [← filterMap_numeral? (o.toList ++ o'.toList), ← hv]
  refine Parameter.scalars_mergeDuplicates hrule ?_ ?_
  · intro v hm
    obtain ⟨t, ht, rfl⟩ := hmem v hm
    exact Value.faithful_scalar ht
  · intro v hm
    obtain ⟨t, -, rfl⟩ := hmem v hm
    rfl

theorem numeral?_head_toList (o : Option Text) :
    (o.toList.map Value.scalar).head?.bind Value.numeral? = o := by
  cases o <;> rfl

/-- The ends that the ranges of a quantity are split into behind the first merge. -/
theorem splitOff_mergeDuplicates (hn : s.NumericBounds)
    (hf : ∀ p ∈ s.parameters, p.value.Faithful) (hpair : pair ∈ rangePairs) :
    ∃ b : Bounds, b.Numeric ∧ b.interval = givenRange pair s ∧
      splitOff pair (s.mergeDuplicates true) = boundParameters pair b := by
  rcases values_java_mergeDuplicates hn hf hpair with ⟨h, h'⟩ | ⟨b, h, h', hb⟩
  · refine ⟨⟨none, none⟩, by rintro t (h | h) <;> simp at h, ?_, ?_⟩
    · rw [givenRange, h]
      rfl
    · rw [splitOff, h']
      rfl
  · have hm : Value.range b ∈ (s.mergeDuplicates true).values pair.java := by
      rw [h']
      simp
    obtain ⟨c, hc, hi, -, hsplit⟩ := exists_boundsOfRange? pair
      (faithful_values (faithful_mergeDuplicates hf) _ hm) rfl (.inl rfl)
    refine ⟨c, hc, hi.trans hb, ?_⟩
    rw [splitOff, h', List.flatMap_singleton, hsplit, Option.getD_some]

/-- Bedrock gets, on each side, the bound that stands there or the end of the ranges, and if
    there are both, the outer of the two. -/
theorem boundInterval_adapt (hn : s.NumericBounds) (hf : ∀ p ∈ s.parameters, p.value.Faithful)
    (hpair : pair ∈ rangePairs) :
    (∀ name ∈ [pair.min, pair.max], ∃ o : Option Text,
        (adapt .bedrock true s).value.values name = o.toList.map .scalar) ∧
      (adapt .bedrock true s).value.boundInterval pair =
        ⟨Option.merge min (givenBounds pair s).lower (givenRange pair s).lower,
          Option.merge max (givenBounds pair s).upper (givenRange pair s).upper⟩ := by
  obtain ⟨b, hnum, hb, hsplit⟩ := splitOff_mergeDuplicates hn hf hpair
  obtain ⟨hmin, hmax⟩ := valuesOf_boundParameters hpair hnum
  have hgiven := numeric_boundsOf pair hf
  have hmem : pair.min ∈ [pair.min, pair.max] ∧ pair.max ∈ [pair.min, pair.max] := by simp
  have hvmin := values_toBedrock (s := s.mergeDuplicates true) hpair hmem.1
  have hvmax := values_toBedrock (s := s.mergeDuplicates true) hpair hmem.2
  rw [hsplit, hmin, values_min_mergeDuplicates hn hf hpair, ← List.map_append] at hvmin
  rw [hsplit, hmax, values_max_mergeDuplicates hn hf hpair, ← List.map_append] at hvmax
  rw [adapt_value, inTerms]
  generalize (toBedrock (s.mergeDuplicates true)).value = r at hvmin hvmax
  obtain ⟨-, hrmin, hrmax⟩ := mergeRule_rangePairs pair hpair
  have hmin := bound_mergeDuplicates (.inl ⟨hrmin, rfl⟩)
    (fun t ht => hgiven t (.inl ht)) (fun t ht => hnum t (.inl ht)) hvmin
  have hmax := bound_mergeDuplicates (.inr ⟨hrmax, rfl⟩)
    (fun t ht => hgiven t (.inr ht)) (fun t ht => hnum t (.inr ht)) hvmax
  constructor
  · intro name hname
    simp only [List.mem_cons, List.not_mem_nil, or_false] at hname
    rcases hname with rfl | rfl
    · exact ⟨_, hmin⟩
    · exact ⟨_, hmax⟩
  · have hlower := Numeral.scaled?_least? (isNumeral_of_mem_toList
      (fun t ht => hgiven t (.inl ht)) (fun t ht => hnum t (.inl ht)))
    have hupper := Numeral.scaled?_greatest? (isNumeral_of_mem_toList
      (fun t ht => hgiven t (.inr ht)) (fun t ht => hnum t (.inr ht)))
    rw [filterMap_scaled?_toList, min?_toList] at hlower
    rw [filterMap_scaled?_toList, max?_toList] at hupper
    rw [boundInterval, hmin, hmax, numeral?_head_toList, numeral?_head_toList, ← hb]
    exact congrArg₂ Interval.mk hlower hupper

/-! ## Where the editions agree -/

/-- Whether both editions get the same interval for a quantity: it has no ranges, or no
    bounds, or its ranges are all bounded exactly on the sides on which it has bounds. -/
def EndsMatch (pair : RangePair) (s : Selector) : Prop :=
  s.values pair.java = [] ∨ (s.values pair.min = [] ∧ s.values pair.max = []) ∨
    (((∀ v ∈ s.values pair.java, (v.bounds?.bind (·.min)).isSome = true) ↔
        s.values pair.min ≠ []) ∧
      ((∀ v ∈ s.values pair.java, (v.bounds?.bind (·.max)).isSome = true) ↔
        s.values pair.max ≠ []))

instance (pair : RangePair) (s : Selector) : Decidable (EndsMatch pair s) :=
  inferInstanceAs (Decidable (_ ∨ _ ∨ _))

/-- Being bounded where both are is being bounded where one is exactly if both are bounded
    on the same side. -/
theorem map₂_eq_merge_iff {f : Int → Int → Int} (hf : ∀ a b, f a b = f b a) (o o' : Option Int) :
    Option.map₂ f o o' = Option.merge f o' o ↔ (o.isSome = true ↔ o'.isSome = true) := by
  cases o <;> cases o' <;> simp [Option.merge, hf]

theorem givenBounds_isSome (hn : s.NumericBounds) (hf : ∀ p ∈ s.parameters, p.value.Faithful)
    (hpair : pair ∈ rangePairs) :
    ((givenBounds pair s).lower.isSome = true ↔ s.values pair.min ≠ []) ∧
      ((givenBounds pair s).upper.isSome = true ↔ s.values pair.max ≠ []) := by
  have hbest : ∀ wanted, ∀ name ∈ [pair.min, pair.max],
      (Numeral.best? wanted (s.numerals name)).isSome = true ↔ s.values name ≠ [] := by
    intro wanted name hname
    constructor
    · intro hs hnil
      rw [numerals, hnil] at hs
      exact Bool.false_ne_true hs
    · exact fun hne => Parameter.best?_numerals_isSome hne (faithful_values hf)
        (hn.bounds pair hpair name hname)
  have hnum := numeric_boundsOf pair hf
  rw [givenBounds, Bounds.lower_isSome hnum, Bounds.upper_isSome hnum]
  exact ⟨hbest _ _ (by simp), hbest _ _ (by simp)⟩

theorem givenRange_isSome (hn : s.NumericBounds) (hf : ∀ p ∈ s.parameters, p.value.Faithful)
    (hpair : pair ∈ rangePairs) (hne : s.values pair.java ≠ []) :
    ((givenRange pair s).lower.isSome = true ↔
        ∀ v ∈ s.values pair.java, (v.bounds?.bind (·.min)).isSome = true) ∧
      ((givenRange pair s).upper.isSome = true ↔
        ∀ v ∈ s.values pair.java, (v.bounds?.bind (·.max)).isSome = true) := by
  have hranges : ∀ v ∈ s.values pair.java, ∃ b : Bounds, b.Numeric ∧ v = .range b := by
    intro v hv
    obtain ⟨b, rfl⟩ := Value.isRange_iff.1 (hn.ranges pair hpair v hv)
    exact ⟨b, faithful_values hf _ hv, rfl⟩
  have hsome : (s.values pair.java).filterMap Value.interval? ≠ [] := by
    obtain ⟨v, hv⟩ := List.exists_mem_of_ne_nil _ hne
    obtain ⟨b, -, rfl⟩ := hranges v hv
    exact List.ne_nil_of_mem (List.mem_filterMap.2 ⟨_, hv, rfl⟩)
  rw [givenRange, Interval.lower_hull_isSome hsome, Interval.upper_hull_isSome hsome,
    List.forall_mem_filterMap, List.forall_mem_filterMap]
  constructor
  all_goals
    refine forall_congr' fun v => forall_congr' fun hv => ?_
    obtain ⟨b, hb, rfl⟩ := hranges v hv
    simp [Value.interval?, Value.bounds?, Bounds.lower_isSome hb, Bounds.upper_isSome hb]

/-- The editions get the same interval for a quantity exactly if its ends match. -/
theorem rangeInterval_eq_boundInterval_iff (hn : s.NumericBounds)
    (hf : ∀ p ∈ s.parameters, p.value.Faithful) (hpair : pair ∈ rangePairs) :
    (adapt .java true s).value.rangeInterval pair =
        (adapt .bedrock true s).value.boundInterval pair ↔ EndsMatch pair s := by
  obtain ⟨hmin, hmax⟩ := givenBounds_isSome hn hf hpair
  have hnum := numeric_boundsOf pair hf
  have hlower : (givenBounds pair s).lower.isSome = (boundsOf pair s).min.isSome :=
    Bounds.lower_isSome hnum
  have hupper : (givenBounds pair s).upper.isSome = (boundsOf pair s).max.isSome :=
    Bounds.upper_isSome hnum
  rw [(rangeInterval_adapt hn hf hpair).2, (boundInterval_adapt hn hf hpair).2, EndsMatch]
  by_cases hb : (boundsOf pair s).hasBound = true
  · have hbounds : ¬ (s.values pair.min = [] ∧ s.values pair.max = []) := by
      rw [Bounds.hasBound, ← hlower, ← hupper, Bool.or_eq_true, hmin, hmax] at hb
      tauto
    by_cases hr : s.values pair.java = []
    · -- without ranges both get the bounds
      have hg : givenRange pair s = .unbounded := by
        rw [givenRange, hr]
        rfl
      refine iff_of_true ?_ (.inl hr)
      rw [if_pos hr, if_pos hb, hg]
      obtain ⟨_ | _, _ | _⟩ := givenBounds pair s <;> rfl
    · obtain ⟨hrmin, hrmax⟩ := givenRange_isSome hn hf hpair hr
      rw [if_neg hr, if_pos hb, List.singleton_append, Interval.hull_pair, Interval.mk.injEq,
        map₂_eq_merge_iff min_comm, map₂_eq_merge_iff max_comm, hrmin, hrmax, hmin, hmax]
      simp [hr, hbounds]
  · have hunbounded : ∀ b : Bounds, ¬ b.hasBound = true → b.interval = .unbounded := by
      rintro ⟨_ | _, _ | _⟩ h
      · rfl
      all_goals simp [Bounds.hasBound] at h
    have hnone : givenBounds pair s = .unbounded := hunbounded _ hb
    have hbounds : s.values pair.min = [] ∧ s.values pair.max = [] := by
      rw [hnone] at hmin hmax
      simpa [Interval.unbounded] using And.intro hmin hmax
    refine iff_of_true ?_ (.inr (.inl hbounds))
    rw [if_neg hb, hnone, List.append_nil]
    split_ifs with hr
    · rw [givenRange, hr]
      rfl
    · rw [Interval.hull_singleton]
      obtain ⟨_ | _, _ | _⟩ := givenRange pair s <;> rfl

/-! ## Reading the texts -/

theorem rangeInterval_reread (hf : ∀ p ∈ s.parameters, p.value.Faithful) :
    s.reread.rangeInterval pair = s.rangeInterval pair := by
  rw [rangeInterval, rangeInterval, values_reread]
  cases h : s.values pair.java with
  | nil => rfl
  | cons v vs =>
    exact (faithful_values hf v (by rw [h]; simp)).interval_reread

theorem boundInterval_reread (hf : ∀ p ∈ s.parameters, p.value.Faithful)
    (h : ∀ name ∈ [pair.min, pair.max], ∃ o : Option Text,
      s.values name = o.toList.map .scalar) :
    s.reread.boundInterval pair = s.boundInterval pair := by
  have hv : ∀ name ∈ [pair.min, pair.max], s.reread.values name = s.values name := by
    intro name hname
    obtain ⟨o, ho⟩ := h name hname
    rw [values_reread]
    refine List.map_congr_left (fun v hv => ?_) |>.trans (List.map_id _)
    obtain ⟨t, -, rfl⟩ := List.mem_map.1 (ho ▸ hv)
    exact (faithful_values hf _ hv).reread_eq (by simp)
  rw [boundInterval, boundInterval, hv pair.min (by simp), hv pair.max (by simp)]

theorem convert_of_isMixed (target : Dialect) {settings : Settings} {t : Text}
    (hmode : settings.mixedEditions = true) (hmixed : (read t).value.isMixed = true) :
    (convert target settings t).value.java = (adapt .java true (read t).value).value.text ∧
      (convert target settings t).value.bedrock =
        (adapt .bedrock true (read t).value).value.text := by
  have htrim : read (Text.trim t) = read t := by
    simp only [read, Text.trim_trim]
  have hv : (convert target settings t).value =
      ((read t).value.convertMixed (Text.trim t)).value := by
    simp only [convert, htrim, Noted.value_bind]
    rw [hmode, hmixed, Bool.and_self, if_pos rfl]
  rw [hv, convertMixed]
  simp only [Noted.value_bind, Noted.value_pure, and_self]

/-- A mixed selector whose ranges and bounds are numeric is written out for each edition with
    at most one range, and with at most one bound on each side, of every quantity. The range
    and the bounds give the same interval exactly if the ends match: a range that is open on
    some side opens the merged range, but it does not take away a bound. Reading the texts
    gives the same intervals, if the parameter list closes its quotes and brackets and no
    parameter is converted as a whole. -/
theorem convert_mixed_bounds (target : Dialect) {settings : Settings} {t : Text}
    (hmode : settings.mixedEditions = true) (hmixed : (read t).value.isMixed = true)
    (hn : (read t).value.NumericBounds) :
    let s := (read t).value
    let java := (adapt .java true s).value
    let bedrock := (adapt .bedrock true s).value
    let both := (convert target settings t).value
    both.java = java.text ∧ both.bedrock = bedrock.text ∧
      (∀ pair ∈ rangePairs, (java.values pair.java).length ≤ 1 ∧
        (∀ name ∈ [pair.min, pair.max], (bedrock.values name).length ≤ 1) ∧
        (java.rangeInterval pair = bedrock.boundInterval pair ↔ EndsMatch pair s)) ∧
      ((∀ body ∈ body? (Text.trim t), (Nesting.outside.scan body).isTop = true) →
        (∀ p ∈ s.parameters, p.name ∉ wholeNames) →
        ∀ pair ∈ rangePairs,
          (read both.java).value.rangeInterval pair = java.rangeInterval pair ∧
            (read both.bedrock).value.boundInterval pair = bedrock.boundInterval pair) := by
  intro s java bedrock both
  have hf : ∀ p ∈ s.parameters, p.value.Faithful := fun p hp => faithful_of_mem_read hp
  obtain ⟨hjava, hbedrock⟩ := convert_of_isMixed target hmode hmixed
  refine ⟨hjava, hbedrock, fun pair hpair => ?_, fun hbody hnames pair hpair => ?_⟩
  · refine ⟨(rangeInterval_adapt hn hf hpair).1, fun name hname => ?_,
      rangeInterval_eq_boundInterval_iff hn hf hpair⟩
    obtain ⟨o, ho⟩ := (boundInterval_adapt hn hf hpair).1 name hname
    rw [ho, List.length_map]
    cases o <;> simp
  · have hclosing : ∀ c, decide (c = ']') = true → Text.isClosing c = true :=
      fun c hc => Bool.or_eq_true_iff.2 (.inl hc)
    have hw := wellFormed_read hclosing (closed_body hbody)
    have hadapt := fun target => hw.adapt target true (separates_or_comma hclosing) hnames
    have hfaithful : ∀ target, ∀ p ∈ (adapt target true s).value.parameters, p.value.Faithful :=
      fun target p hp => ((hadapt target).parameters p hp).faithful
    have hread : ∀ target, (read (adapt target true s).value.text).value =
        (adapt target true s).value.reread := fun target =>
      congrArg Noted.value ((hadapt target).read_text (by decide) (by decide))
    have hj : (read both.java).value = java.reread :=
      (congrArg (fun t => (read t).value) hjava).trans (hread .java)
    have hb : (read both.bedrock).value = bedrock.reread :=
      (congrArg (fun t => (read t).value) hbedrock).trans (hread .bedrock)
    rw [hj, hb]
    exact ⟨rangeInterval_reread (hfaithful .java),
      boundInterval_reread (hfaithful .bedrock) (boundInterval_adapt hn hf hpair).1⟩

/-- Ranges and bounds that are bounded on the same sides, or are not both there. -/
theorem convert_mixed_bounds_matching :
    let t : Text := "@a[distance=2..8,distance=..12.0,r=20,x_rotation=-5..,x_rotation=1..9,rxm=-7,l=3]"
    let settings : Settings := { Settings.standard with mixedEditions := true }
    let both := (convert .java settings t).value
    both.java = "@a[distance=..20,x_rotation=-7..,level=..3]" ∧
      both.bedrock = "@a[r=20,rxm=-7,l=3]" ∧
      ∀ pair ∈ rangePairs, (read both.java).value.rangeInterval pair =
        (read both.bedrock).value.boundInterval pair := by
  intro t settings both
  have hn : (read t).value.NumericBounds := ⟨by decide +kernel, by decide +kernel⟩
  obtain ⟨-, -, hpairs, hread⟩ := convert_mixed_bounds .java
    (show settings.mixedEditions = true from rfl) (by decide +kernel) hn
  refine ⟨by decide +kernel, by decide +kernel, fun pair hpair => ?_⟩
  have hends : ∀ pair ∈ rangePairs, EndsMatch pair (read t).value := by decide +kernel
  obtain ⟨hjava, hbedrock⟩ := hread (by decide +kernel) (by decide +kernel) pair hpair
  rw [hjava, hbedrock]
  exact (hpairs pair hpair).2.2.2 (hends pair hpair)

/-- A lower bound next to a range with both ends leaves the range open above in Java, and
    bounded in Bedrock. -/
theorem convert_mixed_bounds_differ :
    ¬ ∀ (target : Dialect) (settings : Settings) (t : Text), settings.mixedEditions = true →
      (read t).value.isMixed = true → (read t).value.NumericBounds → ∀ pair ∈ rangePairs,
        (read (convert target settings t).value.java).value.rangeInterval pair =
          (read (convert target settings t).value.bedrock).value.boundInterval pair := by
  intro h
  have hd := h .java { Settings.standard with mixedEditions := true } "@a[distance=1..10,rm=5]" rfl
    (by decide +kernel) ⟨by decide +kernel, by decide +kernel⟩ ⟨"distance", "rm", "r", false⟩
    (by decide)
  revert hd
  decide +kernel

end Selector

end CrossEdition
