import CrossEdition.Proofs.Adaptation.MixedBounds
import CrossEdition.Proofs.Selector.NormalForm

/-!
# Ranges without ends

A range that is read has an end, and so has every parameter that a stage makes. But the hull of
ranges is open on a side where one of them is, so ranges that are open on different sides become a
range without ends, whose text is not read as a range again.

Results:
* `bounded_mergeDuplicates_iff`: when two merges leave no such range.
* `left_or_read`: what a stage makes was read.
* `rangesBounded_adapt_iff`: exactly which selectors get such a range.
* `ranges_bounded_iff`: all of this for filtering and converting.
-/

namespace CrossEdition

/-! ## Intervals without ends -/

namespace Interval

variable {i : Interval} {is js : List Interval}

/-- Whether several intervals have no end together: on either side one of them has none. -/
def Open (is : List Interval) : Prop :=
  (∃ i ∈ is, i.lower = none) ∧ ∃ i ∈ is, i.upper = none

theorem lower_hull_eq_none (h : is ≠ []) : (hull is).lower = none ↔ ∃ i ∈ is, i.lower = none := by
  have hsome := not_congr (lower_hull_isSome h)
  simpa only [Bool.not_eq_true, Option.isSome_eq_false_iff, Option.isNone_iff_eq_none, not_forall,
    exists_prop] using hsome

theorem upper_hull_eq_none (h : is ≠ []) : (hull is).upper = none ↔ ∃ i ∈ is, i.upper = none := by
  have hsome := not_congr (upper_hull_isSome h)
  simpa only [Bool.not_eq_true, Option.isSome_eq_false_iff, Option.isNone_iff_eq_none, not_forall,
    exists_prop] using hsome

theorem eq_unbounded_iff : i = unbounded ↔ i.lower = none ∧ i.upper = none := by
  cases i
  exact Interval.mk.injEq .. ▸ Iff.rfl

theorem hull_eq_unbounded_iff (h : is ≠ []) : hull is = unbounded ↔ Open is := by
  rw [eq_unbounded_iff, lower_hull_eq_none h, upper_hull_eq_none h, Open]

/-- A hull is open where the intervals are. -/
theorem open_hull_cons (h : is ≠ []) : Open (hull is :: js) ↔ Open (is ++ js) := by
  unfold Open
  refine and_congr ?_ ?_
  · rw [List.exists_mem_cons_iff, lower_hull_eq_none h]
    simp only [List.mem_append, or_and_right, exists_or]
  · rw [List.exists_mem_cons_iff, upper_hull_eq_none h]
    simp only [List.mem_append, or_and_right, exists_or]

end Interval

theorem Bounds.interval_eq_unbounded_iff {b : Bounds} (hn : b.Numeric) :
    b.interval = .unbounded ↔ b.hasBound = false := by
  simp only [Interval.eq_unbounded_iff, Bounds.hasBound, Bool.or_eq_false_iff,
    ← Bounds.lower_isSome hn, ← Bounds.upper_isSome hn, Option.isSome_eq_false_iff,
    Option.isNone_iff_eq_none]

namespace Value

variable {v : Value}

/-- Whether a value is no range without ends: a range has an end, and its text is read as a number
    or a range. -/
def Bounded (v : Value) : Prop :=
  ∀ b, v = .range b → b.hasBound = true ∧ (read b.text).bounds?.isSome = true

theorem Faithful.bounded_iff (h : v.Faithful) :
    v.Bounded ↔ ∀ b, v = .range b → b.hasBound = true := by
  refine ⟨fun hv b hb => (hv b hb).1, fun hv b hb => ⟨hv b hb, ?_⟩⟩
  subst hb
  rw [← isSome_interval?]
  exact Option.isSome_of_eq_some (h.interval?_reread_range (hv b rfl))

theorem bounded_read (t : Text) : (read t).Bounded :=
  (faithful_read t).bounded_iff.2 fun _ hb => read_hasBound hb

theorem Faithful.bounded_iff_interval? (h : v.Faithful) :
    v.Bounded ↔ v.interval? ≠ some .unbounded := by
  rw [h.bounded_iff]
  cases v with
  | scalar t =>
    refine iff_of_true (fun b hb => by cases hb) fun hi => ?_
    have hb := (Bounds.interval_eq_unbounded_iff (h.numeric rfl)).1 (Option.some.inj hi)
    exact Bool.noConfusion hb
  | range b =>
    rw [Ne, interval?, bounds?, Option.map_some, Option.some.injEq,
      Bounds.interval_eq_unbounded_iff h, Bool.not_eq_false]
    exact ⟨fun hb => hb b rfl, fun hb c hc => range.inj hc ▸ hb⟩
  | compound | literal => exact iff_of_true (fun b hb => by cases hb) (by simp [interval?, bounds?])

end Value

namespace Selector

variable {asHull : Bool} {s r : Selector} {pair : RangePair} {target : Dialect} {name : Text}
  {p : Parameter} {vs : List Value}

/-- Whether no parameter of a selector is a range without ends. -/
def RangesBounded (s : Selector) : Prop :=
  ∀ p ∈ s.parameters, p.value.Bounded

theorem RangesBounded.values (h : s.RangesBounded) : ∀ v ∈ s.values name, v.Bounded :=
  fun _ hv => h _ (Parameter.mem_valuesOf.1 hv)

/-! ## The widest range -/

/-- The widest of several ranges has an end if all of them have one. -/
theorem rangesBounded_mergeDuplicates (hf : ∀ p ∈ s.parameters, p.value.Faithful)
    (h : s.RangesBounded) : (s.mergeDuplicates false).RangesBounded := by
  intro p hp
  rcases Parameter.mem_or_merged hp with hp | hm
  · exact h p hp
  obtain ⟨-, hm⟩ := Parameter.mergedValue?_eq_some hm
  have hfaithful : p.value.Faithful := faithful_mergeDuplicates hf p hp
  rcases Parameter.mem_of_mergeValues? (faithful_values hf) hm with hv | ⟨hr, hall, -⟩
  · exact h.values p.value hv
  rw [← values, hr, Parameter.mergeValues?, if_pos (List.all_eq_true.2 hall)] at hm
  obtain ⟨b, hb, hv⟩ := Option.map_eq_some_iff.1 hm
  obtain ⟨v, hmem, hvb⟩ := List.mem_filterMap.1 (Bounds.mem_of_merge? hb)
  -- the range that is chosen stood there, perhaps as a single number
  have hi : p.value.interval? = v.interval? := by
    rw [← hv, Value.interval?, Value.interval?, hvb]
    rfl
  rw [hfaithful.bounded_iff_interval?, hi, ← (faithful_values hf v hmem).bounded_iff_interval?]
  exact h.values v hmem

/-! ## Hulls -/

/-- Whether values of a range are all numeric, and have no end together: one of them has no lower
    end, and one has no upper end. -/
def Opens (vs : List Value) : Prop :=
  (∀ v ∈ vs, v.bounds?.isSome = true) ∧ (∃ v ∈ vs, v.bounds?.bind (·.min) = none) ∧
    ∃ v ∈ vs, v.bounds?.bind (·.max) = none

instance (vs : List Value) : Decidable (Opens vs) :=
  inferInstanceAs (Decidable (_ ∧ _))

/-- Whether some value has no end on a side, by the ends of the intervals. -/
theorem exists_open_iff {side : Bounds → Option Text} {last : Interval → Option Int}
    (hlast : ∀ b : Bounds, b.Numeric → (last b.interval = none ↔ side b = none))
    (hf : ∀ v ∈ vs, v.Faithful) (h : ∀ v ∈ vs, v.bounds?.isSome = true) :
    (∃ v ∈ vs, v.bounds?.bind side = none) ↔
      ∃ i ∈ vs.filterMap Value.interval?, last i = none := by
  constructor
  · rintro ⟨v, hv, hside⟩
    obtain ⟨b, hb⟩ := Option.isSome_iff_exists.1 (h v hv)
    rw [hb, Option.bind_some] at hside
    refine ⟨b.interval, List.mem_filterMap.2 ⟨v, hv, ?_⟩, (hlast b ((hf v hv).numeric hb)).2 hside⟩
    rw [Value.interval?, hb]
    rfl
  · rintro ⟨i, hi, hopen⟩
    obtain ⟨v, hv, hvi⟩ := List.mem_filterMap.1 hi
    obtain ⟨b, hb, rfl⟩ := Option.map_eq_some_iff.1 hvi
    refine ⟨v, hv, ?_⟩
    rw [hb, Option.bind_some]
    exact (hlast b ((hf v hv).numeric hb)).1 hopen

theorem opens_iff (hf : ∀ v ∈ vs, v.Faithful) (h : ∀ v ∈ vs, v.bounds?.isSome = true) :
    Opens vs ↔ Interval.Open (vs.filterMap Value.interval?) := by
  have hlower : ∀ b : Bounds, b.Numeric → (b.interval.lower = none ↔ b.min = none) := by
    intro b hb
    rw [← Option.isNone_iff_eq_none, ← Option.isNone_iff_eq_none, ← Option.isSome_eq_false_iff,
      ← Option.isSome_eq_false_iff, Bounds.lower_isSome hb]
  have hupper : ∀ b : Bounds, b.Numeric → (b.interval.upper = none ↔ b.max = none) := by
    intro b hb
    rw [← Option.isNone_iff_eq_none, ← Option.isNone_iff_eq_none, ← Option.isSome_eq_false_iff,
      ← Option.isSome_eq_false_iff, Bounds.upper_isSome hb]
  rw [Opens, Interval.Open, exists_open_iff hlower hf h, exists_open_iff hupper hf h]
  exact and_iff_right h

theorem filterMap_interval?_ne_nil (hne : vs ≠ []) (h : ∀ v ∈ vs, v.bounds?.isSome = true) :
    vs.filterMap Value.interval? ≠ [] := by
  obtain ⟨v, hv⟩ := List.exists_mem_of_ne_nil vs hne
  obtain ⟨i, hi⟩ := Option.isSome_iff_exists.1 ((Value.isSome_interval? v).trans (h v hv))
  exact List.ne_nil_of_mem (List.mem_filterMap.2 ⟨v, hv, hi⟩)

theorem forall_bounded_iff (hf : ∀ v ∈ vs, v.Faithful) :
    (∀ v ∈ vs, v.Bounded) ↔ .unbounded ∉ vs.filterMap Value.interval? := by
  rw [List.mem_filterMap, not_exists]
  refine forall_congr' fun v => ?_
  rw [not_and]
  exact forall_congr' fun hv => (hf v hv).bounded_iff_interval?

section Numeric

variable (hrule : mergeRule name = .range) (hf : ∀ p ∈ s.parameters, p.value.Faithful)
  (h : ∀ v ∈ s.values name, v.bounds?.isSome = true)

include hrule hf h

/-- Numeric values of a range are one behind a merge, and it bounds their hull. -/
theorem intervals_mergeDuplicates :
    (∀ v ∈ (s.mergeDuplicates true).values name, v.bounds?.isSome = true) ∧
      ((s.mergeDuplicates true).values name).filterMap Value.interval? =
        if s.values name = [] then []
        else [.hull ((s.values name).filterMap Value.interval?)] := by
  have hv := Parameter.interval?_mergeDuplicates hrule (faithful_values hf) h
  rw [← values] at hv
  split_ifs at hv ⊢
  · rw [values, mergeDuplicates, List.map_eq_nil_iff.1 hv]
    exact ⟨List.forall_mem_nil _, rfl⟩
  · obtain ⟨v, hv, hi⟩ := List.map_eq_singleton_iff.1 hv
    rw [values, mergeDuplicates, hv, List.forall_mem_singleton, ← Value.isSome_interval?, hi]
    exact ⟨rfl, List.filterMap_cons_some hi⟩

/-- Numeric values of a range become one with an end exactly if they have an end together. -/
theorem bounded_hull_iff : (∀ v ∈ (s.mergeDuplicates true).values name, v.Bounded) ↔
    ¬Interval.Open ((s.values name).filterMap Value.interval?) := by
  rw [forall_bounded_iff (faithful_values (faithful_mergeDuplicates hf)),
    (intervals_mergeDuplicates hrule hf h).2]
  split_ifs with hnil
  · rw [hnil]
    simp [Interval.Open]
  · rw [List.mem_singleton, eq_comm,
      Interval.hull_eq_unbounded_iff (filterMap_interval?_ne_nil hnil h)]

/-- Values that were merged are open where they were before. -/
theorem open_mergeDuplicates_iff (js : List Interval) :
    Interval.Open (((s.mergeDuplicates true).values name).filterMap Value.interval? ++ js) ↔
      Interval.Open ((s.values name).filterMap Value.interval? ++ js) := by
  rw [(intervals_mergeDuplicates hrule hf h).2]
  split_ifs with hnil
  · rw [hnil, List.filterMap_nil]
  · exact Interval.open_hull_cons (filterMap_interval?_ne_nil hnil h)

end Numeric

/-- A merge leaves values alone of which none is numeric. -/
theorem bounded_of_not_numeric (hrule : mergeRule name = .range)
    (h : ∀ v ∈ s.values name, v.bounds? = none) :
    ∀ v ∈ (s.mergeDuplicates asHull).values name, v.Bounded := by
  have hv : (s.mergeDuplicates asHull).values name = s.values name := by
    by_cases hnil : s.values name = []
    · exact values_mergeDuplicates_of_length_le asHull (by rw [hnil]; exact Nat.zero_le 1)
    · refine values_mergeDuplicates_of_not_fits asHull fun hall => ?_
      obtain ⟨v, hv⟩ := List.exists_mem_of_ne_nil _ hnil
      have hfits := hall v hv
      rw [hrule, MergeRule.fits, h v hv] at hfits
      exact Bool.noConfusion hfits
  intro v hm b hb
  have hnone := h v (hv ▸ hm)
  rw [hb] at hnone
  exact absurd hnone (Option.some_ne_none b)

/-- Ranges that were merged, and merged again with others: what is left has an end exactly if
    all of them have one together, or some of them is not numeric. -/
theorem bounded_mergeDuplicates_iff (hrule : mergeRule name = .range)
    (hf : ∀ p ∈ s.parameters, p.value.Faithful) (hfr : ∀ p ∈ r.parameters, p.value.Faithful)
    (hs : s.RangesBounded) (hvs : ∀ v ∈ vs, v.Bounded ∧ v.bounds?.isSome = true)
    (hr : r.values name = (s.mergeDuplicates true).values name ++ vs) :
    (∀ v ∈ (r.mergeDuplicates true).values name, v.Bounded) ↔ ¬Opens (s.values name ++ vs) := by
  have hfr' : ∀ v ∈ r.values name, v.Faithful := faithful_values hfr
  rw [hr, List.forall_mem_append] at hfr'
  have hfvs : ∀ v ∈ s.values name ++ vs, v.Faithful :=
    List.forall_mem_append.2 ⟨faithful_values hf, hfr'.2⟩
  by_cases h : ∀ v ∈ s.values name, v.bounds?.isSome = true
  · have hall : ∀ v ∈ s.values name ++ vs, v.bounds?.isSome = true :=
      List.forall_mem_append.2 ⟨h, fun v hv => (hvs v hv).2⟩
    have hone : ∀ v ∈ r.values name, v.bounds?.isSome = true := by
      rw [hr, List.forall_mem_append]
      exact ⟨(intervals_mergeDuplicates hrule hf h).1, fun v hv => (hvs v hv).2⟩
    rw [bounded_hull_iff hrule hfr hone, hr, List.filterMap_append,
      open_mergeDuplicates_iff hrule hf h, opens_iff hfvs hall,
      List.filterMap_append]
  · have hfit : ∀ {vs : List Value}, (∀ v ∈ vs, (mergeRule name).fits v = true) ↔
        ∀ v ∈ vs, v.bounds?.isSome = true := by
      rw [hrule]
      exact Iff.rfl
    have hkeep : (s.mergeDuplicates true).values name = s.values name :=
      values_mergeDuplicates_of_not_fits true (hfit.not.2 h)
    have hnot : ¬∀ v ∈ s.values name ++ vs, v.bounds?.isSome = true :=
      fun hall => h (List.forall_mem_append.1 hall).1
    rw [hkeep] at hr
    rw [values_mergeDuplicates_of_not_fits true (hfit.not.2 (hr ▸ hnot)), hr]
    refine iff_of_true ?_ fun ho => hnot ho.1
    exact List.forall_mem_append.2 ⟨hs.values, fun v hv => (hvs v hv).1⟩

/-! ## The stages -/

/-- What a stage makes was read. -/
theorem left_or_read (h : p ∈ (inTerms target s).value.parameters) :
    p ∈ s.parameters ∨ ∃ name t, p = .ofTexts name t := by
  cases target with
  | java =>
    cases originsInJava h with
    | kept hp => exact .inl hp
    | range | gamemode | items => exact .inr ⟨_, _, rfl⟩
    | pick hp =>
      rcases hp with ⟨n, rfl⟩ | rfl | rfl
      all_goals exact .inr ⟨_, _, rfl⟩
    | scores _ hm hq =>
      obtain ⟨t, rfl⟩ := exists_ofTexts_of_mem_positiveScores hm hq
      exact .inr ⟨_, _, rfl⟩
  | bedrock =>
    cases originsInBedrock h with
    | kept hp => exact .inl hp
    | mode => exact .inr ⟨_, _, rfl⟩
    | bound _ _ hm hq =>
      rw [splitRule_value] at hm
      split_ifs at hm
      obtain ⟨name, t, rfl, -⟩ := mem_boundsOfRange? hm hq
      exact .inr ⟨_, _, rfl⟩
    | count hp =>
      obtain ⟨n, t, -, -, rfl⟩ := hp
      exact .inr ⟨_, _, rfl⟩
    | items hf hq =>
      obtain ⟨name, -, t, rfl⟩ := exists_ofTexts_of_mem_itemParameters hf hq
      exact .inr ⟨_, _, rfl⟩
  | universal => exact .inl h

theorem faithful_inTerms (target : Dialect) (hf : ∀ p ∈ s.parameters, p.value.Faithful) :
    ∀ p ∈ (inTerms target s).value.parameters, p.value.Faithful := by
  intro p hp
  rcases left_or_read hp with hp | ⟨name, t, rfl⟩
  · exact hf p hp
  · exact Value.faithful_read t

theorem rangesBounded_inTerms (h : s.RangesBounded) : (inTerms target s).value.RangesBounded := by
  intro p hp
  rcases left_or_read hp with hp | ⟨name, t, rfl⟩
  · exact h p hp
  · exact Value.bounded_read t

/-- The values that meet as ranges of a quantity in the terms of a dialect. In Bedrock's terms
    there are no ranges, and in Java's the joined bounds meet the ranges. -/
def meeting (pair : RangePair) (s : Selector) : Dialect → List Value
  | .java => s.values pair.java ++
      if (boundsOf pair s).hasBound then [.read (boundsOf pair s).text] else []
  | .bedrock => []
  | .universal => s.values pair.java

/-- Which ranges of a quantity have an end behind both merges. -/
theorem bounded_values_adapt_iff (hf : ∀ p ∈ s.parameters, p.value.Faithful)
    (hs : s.RangesBounded) (hpair : pair ∈ rangePairs) (target : Dialect) :
    (∀ v ∈ (adapt target true s).value.values pair.java, v.Bounded) ↔
      ¬Opens (meeting pair s target) := by
  have hrule := (mergeRule_rangePairs pair hpair).1
  have hfm : ∀ p ∈ (s.mergeDuplicates true).parameters, p.value.Faithful :=
    faithful_mergeDuplicates hf
  have hfr := faithful_inTerms target hfm
  rw [adapt_value]
  cases target with
  | java =>
    refine bounded_mergeDuplicates_iff hrule hf hfr hs (fun v hv => ?_) ?_
    · obtain ⟨hv', hi⟩ := interval?_of_mem_joined pair hf hv
      rw [← Value.isSome_interval?]
      refine ⟨?_, Option.isSome_of_eq_some hi⟩
      split_ifs at hv
      · rw [List.mem_singleton.1 hv]
        exact Value.bounded_read _
      · exact absurd hv (List.not_mem_nil)
    · have hv := values_toJava (s := s.mergeDuplicates true) hpair
      rwa [boundsOf_mergeDuplicates hf hpair] at hv
  | bedrock =>
    refine iff_of_true ?_ fun ho => ?_
    · exact bounded_of_not_numeric hrule fun v hv => (mem_values_java_toBedrock hpair hv).2
    · obtain ⟨-, ⟨v, hv, -⟩, -⟩ := ho
      exact absurd hv (List.not_mem_nil)
  | universal =>
    have hnil : ∀ v ∈ ([] : List Value), v.Bounded ∧ v.bounds?.isSome = true := nofun
    have hv := bounded_mergeDuplicates_iff hrule hf hfr hs hnil (List.append_nil _).symm
    rwa [List.append_nil] at hv

/-- A selector is adapted to one whose ranges all have an end, unless ranges become their hull and
    those that meet for some quantity have no end together. -/
theorem rangesBounded_adapt_iff (hf : ∀ p ∈ s.parameters, p.value.Faithful)
    (hs : s.RangesBounded) (target : Dialect) (asHull : Bool) :
    (adapt target asHull s).value.RangesBounded ↔
      ¬(asHull = true ∧ ∃ pair ∈ rangePairs, Opens (meeting pair s target)) := by
  have hfm : ∀ p ∈ (s.mergeDuplicates asHull).parameters, p.value.Faithful :=
    faithful_mergeDuplicates hf
  have hfr := faithful_inTerms target hfm
  cases asHull with
  | false =>
    refine iff_of_true ?_ fun h => Bool.noConfusion h.1
    rw [adapt_value]
    exact rangesBounded_mergeDuplicates hfr
      (rangesBounded_inTerms (rangesBounded_mergeDuplicates hf hs))
  | true =>
    -- a range without ends was merged, so it is one of the four quantities
    have hquantities : (adapt target true s).value.RangesBounded ↔ ∀ pair ∈ rangePairs,
        ∀ v ∈ (adapt target true s).value.values pair.java, v.Bounded := by
      refine ⟨fun h pair _ => h.values, fun h p hp => ?_⟩
      have hname : mergeRule p.name = .range → p.value.Bounded := by
        intro hr
        obtain ⟨pair, hpair, hn⟩ := exists_pair_of_mergeRule hr
        exact h pair hpair p.value (Parameter.mem_valuesOf.2 (hn ▸ hp))
      rw [adapt_value] at hp
      rcases Parameter.mem_mergeDuplicates hfr hp with hp | ⟨hr, -⟩
      · rcases left_or_read hp with hp | ⟨name, t, rfl⟩
        · rcases Parameter.mem_mergeDuplicates hf hp with hp | ⟨hr, -⟩
          · exact hs p hp
          · exact hname hr
        · exact Value.bounded_read t
      · exact hname hr
    rw [hquantities, and_iff_right rfl, not_exists]
    refine forall_congr' fun pair => ?_
    rw [not_and]
    exact forall_congr' fun hpair => bounded_values_adapt_iff hf hs hpair target

/-! ## Filtering and converting -/

/-- The dialects that a conversion adapts a selector to, each with whether ranges become their
    hull. -/
def ways (target : Dialect) (settings : Settings) (s : Selector) : List (Dialect × Bool) :=
  if settings.mixedEditions && s.isMixed then [(.java, true), (.bedrock, true)]
  else if target = .universal then [] else [(target, settings.mergeToHull)]

/-- Either text of a conversion is the one given, or the selector was adapted for it. -/
theorem exists_way (target : Dialect) (settings : Settings) (t : Text) :
    ∀ u ∈ [(convert target settings t).value.java, (convert target settings t).value.bedrock],
      u = Text.trim t ∨ ∃ way ∈ ways target settings (read t).value,
        u = (adapt way.1 way.2 (read t).value).value.text := by
  have htrim : read (Text.trim t) = read t := by
    simp only [read, Text.trim_trim]
  by_cases hmixed : (settings.mixedEditions && (read t).value.isMixed) = true
  · obtain ⟨hmode, hm⟩ := Bool.and_eq_true_iff.1 hmixed
    obtain ⟨hjava, hbedrock⟩ := convert_of_isMixed target hmode hm
    rw [ways, if_pos hmixed, hjava, hbedrock]
    exact List.forall_mem_cons.2 ⟨.inr ⟨(.java, true), by simp, rfl⟩,
      List.forall_mem_singleton.2 (.inr ⟨(.bedrock, true), by simp, rfl⟩)⟩
  · have hfilter : (filter target settings (Text.trim t)).value =
        (adapt target settings.mergeToHull (read t).value).value.text := by
      rw [filter_value, htrim]
    simp only [convert, htrim, Noted.value_bind, ways, if_neg hmixed]
    cases target with
    | universal => simp
    | java => simp [hfilter]
    | bedrock => simp [hfilter]

/-- Every range that filtering and converting put out has an end, and its text is read as a number
    or a range, unless repeated ranges become their hull: then those without a lower end and those
    without an upper end become a range without ends. In the terms of Bedrock that range is left
    out. -/
theorem ranges_bounded_iff (target : Dialect) (settings : Settings) (t : Text) :
    let s := (read t).value
    let both := (convert target settings t).value
    (filter target settings t).value = (adapt target settings.mergeToHull s).value.text ∧
      (∀ u ∈ [both.java, both.bedrock], u = Text.trim t ∨ ∃ way ∈ ways target settings s,
        u = (adapt way.1 way.2 s).value.text) ∧
      s.RangesBounded ∧
      ∀ (target : Dialect) (asHull : Bool), (adapt target asHull s).value.RangesBounded ↔
        ¬(asHull = true ∧ ∃ pair ∈ rangePairs, Opens (meeting pair s target)) := by
  intro s both
  have hf : ∀ p ∈ s.parameters, p.value.Faithful := fun p hp => faithful_of_mem_read hp
  have hs : s.RangesBounded := fun p hp => (hf p hp).bounded_iff.2 (hasBound_of_mem_read hp)
  exact ⟨filter_value target settings t, exists_way target settings t, hs,
    rangesBounded_adapt_iff hf hs⟩

/-- A distance from one on and one up to five become a distance without ends. -/
theorem filter_opens_range :
    ¬∀ (target : Dialect) (settings : Settings) (t : Text),
      (adapt target settings.mergeToHull (read t).value).value.RangesBounded := by
  intro h
  have hp : (⟨"distance", .range ⟨none, none⟩⟩ : Parameter) ∈
      (adapt .java true (read "@a[distance=1..,distance=..5]").value).value.parameters := by
    decide +kernel
  have hb := h .java { Settings.standard with mergeToHull := true } "@a[distance=1..,distance=..5]"
    _ hp ⟨none, none⟩ rfl
  exact Bool.noConfusion hb.1

/-- A bound counts like a range in Java's terms, and Bedrock keeps either end. -/
example :
    let t : Text := "@a[distance=1..,r=5,level=..7]"
    let s := (read t).value
    Opens (meeting ⟨"distance", "rm", "r", false⟩ s .java) ∧
      (adapt .java true s).value.text = "@a[distance=..,level=..7]" ∧
      (adapt .bedrock true s).value.text = "@a[r=5,rm=1,l=7]" := by
  decide +kernel

end Selector

end CrossEdition
