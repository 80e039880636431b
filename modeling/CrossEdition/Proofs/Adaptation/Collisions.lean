import CrossEdition.Proofs.Adaptation.Counts
import CrossEdition.Proofs.Adaptation.JavaVocabulary

/-!
# Names that collide

Both editions' parameters may stand in one selector, so that a stage makes a parameter whose
name is there already. The second merge makes one of the two where the rule of the name fits
both values. With numbers wherever a number is expected this fails for three names: orders
have no rule, an infinite count makes a limit that is a word, and so does a minus sign in front
of a plus sign for a count.

Results:
* `repeated_mergeDuplicates_iff`: what is still repeated behind a merge.
* `NumericOnce.range_once`: ranges and bounds never collide.
* `NumericOnce.exists_word_iff`: where the count that is made is no number.
* `adapt_repeated_iff`: exactly which names collide.
-/

namespace CrossEdition

namespace Selector

variable {asHull : Bool} {s : Selector} {name : Text}

/-! ## What a merge leaves -/

/-- Behind a merge a name is repeated where it was before and some value does not fit its
    rule. -/
theorem repeated_mergeDuplicates_iff (hf : ∀ v ∈ s.values name, v.Faithful) :
    1 < ((s.mergeDuplicates asHull).values name).length ↔
      1 < (s.values name).length ∧ ∃ v ∈ s.values name, (mergeRule name).fits v = false := by
  have hv := Parameter.valuesOf_mergeDuplicates asHull s.parameters name
  rw [← values, Parameter.mergedValue?, ← values] at hv
  rw [values, mergeDuplicates, hv]
  by_cases hlen : 1 < (s.values name).length
  · have hne : s.values name ≠ [] := List.ne_nil_of_length_pos (by omega)
    rw [if_pos hlen, ← @Parameter.mergeValues?_eq_none_iff asHull _ _ hne hf]
    cases Parameter.mergeValues? asHull (s.values name) (mergeRule name) with
    | none => simp [hlen]
    | some v => simp
  · rw [if_neg hlen]
    exact iff_of_false hlen fun h => hlen h.1

/-- Values that all fit their rule are one behind a merge. -/
theorem once_of_fits (hf : ∀ v ∈ s.values name, v.Faithful)
    (h : ∀ v ∈ s.values name, (mergeRule name).fits v = true) :
    ¬1 < ((s.mergeDuplicates asHull).values name).length := by
  rw [repeated_mergeDuplicates_iff hf]
  rintro ⟨-, v, hv, hn⟩
  rw [h v hv] at hn
  exact Bool.noConfusion hn

/-! ## Selectors without repetition -/

/-- A selector that has each name once, with numbers wherever a number is expected. -/
structure NumericOnce (s : Selector) : Prop where
  once : (s.parameters.map (·.name)).Nodup
  ranges : ∀ pair ∈ rangePairs, ∀ v ∈ s.values pair.java, v.bounds?.isSome = true
  bounds : ∀ pair ∈ rangePairs, ∀ name ∈ [pair.min, pair.max], ∀ v ∈ s.values name,
    v.numeral?.isSome = true
  counts : ∀ name ∈ (["limit", "c"] : List Text), ∀ v ∈ s.values name, v.numeral?.isSome = true

/-- The names that have one value in either edition. -/
def singleNames : List Text :=
  quantityNames ++ (["limit", "sort", "c"] : List Text)

theorem fits_range (pair : RangePair) (hpair : pair ∈ rangePairs) (v : Value) :
    (mergeRule pair.java).fits v = v.bounds?.isSome ∧
      ∀ name ∈ [pair.min, pair.max], (mergeRule name).fits v = v.numeral?.isSome := by
  obtain ⟨hjava, hmin, hmax⟩ := mergeRule_rangePairs pair hpair
  refine ⟨by rw [hjava]; rfl, List.forall_mem_cons.2 ⟨by rw [hmin]; rfl, ?_⟩⟩
  exact List.forall_mem_singleton.2 (by rw [hmax]; rfl)

theorem scalar_of_numeral? {v : Value} (h : v.numeral?.isSome = true) : ∃ t, v = .scalar t := by
  cases v with
  | scalar t => exact ⟨t, rfl⟩
  | range | compound | literal => exact absurd h Bool.false_ne_true

namespace NumericOnce

variable (hs : s.NumericOnce)

include hs

theorem values_eq (name : Text) : s.values name = [] ∨ ∃ v, s.values name = [v] := by
  have hlen : (s.values name).length ≤ 1 := Parameter.length_valuesOf_of_nodup hs.once
  match hv : s.values name with
  | [] => exact .inl rfl
  | [v] => exact .inr ⟨v, rfl⟩
  | _ :: _ :: _ => simp [hv] at hlen

/-- A value that is there is the only one of its name. -/
theorem values_eq_of_mem {v : Value} (hv : v ∈ s.values name) : s.values name = [v] := by
  rcases hs.values_eq name with h | ⟨w, h⟩
  · rw [h] at hv
    exact absurd hv (List.not_mem_nil)
  · rw [h, List.mem_singleton] at hv
    rw [h, hv]

theorem values_eq_scalar (name : Text) (hname : name ∈ (["limit", "c"] : List Text)) :
    s.values name = [] ∨ ∃ t, s.values name = [.scalar t] := by
  rcases hs.values_eq name with hv | ⟨v, hv⟩
  · exact .inl hv
  · obtain ⟨t, rfl⟩ := scalar_of_numeral? (hs.counts name hname v (by simp [hv]))
    exact .inr ⟨t, hv⟩

/-- There is nothing to merge. -/
theorem mergeDuplicates_eq : s.mergeDuplicates asHull = s := by
  rw [mergeDuplicates, Parameter.mergeDuplicates_eq_self]
  exact fun p _ =>
    Parameter.mergedValue?_of_length_le (Parameter.length_valuesOf_of_nodup hs.once)

theorem value_adapt (target : Dialect) :
    (adapt target asHull s).value = (inTerms target s).value.mergeDuplicates asHull := by
  rw [adapt_value, hs.mergeDuplicates_eq]

/-- In Java's terms the ranges of a quantity are ranges or numbers. -/
theorem ranges_toJava (hf : ∀ p ∈ s.parameters, p.value.Faithful) {pair : RangePair}
    (hpair : pair ∈ rangePairs) :
    ∀ v ∈ (toJava s).value.values pair.java, v.Faithful ∧ v.bounds?.isSome = true := by
  rw [values_toJava hpair]
  refine List.forall_mem_append.2
    ⟨fun v hv => ⟨faithful_values hf v hv, hs.ranges pair hpair v hv⟩, fun v hv => ?_⟩
  obtain ⟨hv, hi⟩ := interval?_of_mem_joined pair hf hv
  refine ⟨hv, ?_⟩
  rw [← Value.isSome_interval?]
  exact Option.isSome_of_eq_some hi

/-- In Java's terms there are no bounds. -/
theorem bounds_toJava {pair : RangePair} (hpair : pair ∈ rangePairs)
    (hname : name ∈ [pair.min, pair.max]) : (toJava s).value.values name = [] := by
  have hbedrock : ∀ pair ∈ rangePairs, ∀ name ∈ [pair.min, pair.max],
      name ∈ Dialect.bedrockNames := by
    decide
  refine Parameter.valuesOf_eq_nil_iff.2 fun p hp hn => ?_
  obtain ⟨-, hmem, hnone⟩ := bound_of_mem_toJava hp (hn ▸ hbedrock pair hpair name hname)
  have hnum := hs.bounds pair hpair name hname p.value (Parameter.mem_valuesOf.2 (hn ▸ hmem))
  rw [hnone] at hnum
  exact Bool.noConfusion hnum

/-- In Bedrock's terms the bounds of a quantity are numbers. -/
theorem bounds_toBedrock (hf : ∀ p ∈ s.parameters, p.value.Faithful) {pair : RangePair}
    (hpair : pair ∈ rangePairs) (hname : name ∈ [pair.min, pair.max]) :
    ∀ v ∈ (toBedrock s).value.values name, v.Faithful ∧ v.numeral?.isSome = true := by
  rw [values_toBedrock hpair hname]
  refine List.forall_mem_append.2
    ⟨fun v hv => ⟨faithful_values hf v hv, hs.bounds pair hpair name hname v hv⟩, fun v hv => ?_⟩
  obtain ⟨w, hw, hmade⟩ := List.mem_flatMap.1 (Parameter.mem_valuesOf.1 hv)
  cases hb : boundsOfRange? pair w with
  | none =>
    rw [hb] at hmade
    exact absurd hmade (List.not_mem_nil)
  | some made =>
    rw [hb, Option.getD_some] at hmade
    obtain ⟨_, t, heq, -, hnum⟩ := mem_boundsOfRange? hb hmade
    have hread := Value.read_of_isNumeral (hnum (faithful_values hf w hw))
    obtain ⟨-, rfl⟩ := Parameter.mk.inj heq
    exact ⟨Value.faithful_read t, by rw [hread]; rfl⟩

/-- Ranges and bounds do not collide: what is made for them are ranges and numbers. -/
theorem range_once (hf : ∀ p ∈ s.parameters, p.value.Faithful) (target : Dialect)
    (hname : name ∈ quantityNames) :
    ¬1 < ((adapt target asHull s).value.values name).length := by
  obtain ⟨pair, hpair, hname⟩ := List.mem_flatMap.1 hname
  rw [hs.value_adapt]
  have hnil : (inTerms target s).value.values name = [] →
      ¬1 < (((inTerms target s).value.mergeDuplicates asHull).values name).length := fun h =>
    once_of_fits (by simp [h]) (by simp [h])
  cases target with
  | java =>
    rcases List.mem_cons.1 hname with rfl | hb
    · refine once_of_fits (fun v hv => (hs.ranges_toJava hf hpair v hv).1) fun v hv => ?_
      rw [(fits_range pair hpair v).1]
      exact (hs.ranges_toJava hf hpair v hv).2
    · exact hnil (hs.bounds_toJava hpair hb)
  | bedrock =>
    rcases List.mem_cons.1 hname with rfl | hb
    · exact hnil (values_java_toBedrock hpair (hs.ranges pair hpair))
    · refine once_of_fits (fun v hv => (hs.bounds_toBedrock hf hpair hb v hv).1) fun v hv => ?_
      rw [(fits_range pair hpair v).2 name hb]
      exact (hs.bounds_toBedrock hf hpair hb v hv).2
  | universal =>
    rw [inTerms, Noted.value_pure, hs.mergeDuplicates_eq, Nat.not_lt]
    exact Parameter.length_valuesOf_of_nodup hs.once

end NumericOnce

/-! ## Where names collide -/

/-- Java gets the order for a count beside the order that is there. -/
def OrderCollides (s : Selector) : Prop :=
  s.values "sort" ≠ [] ∧ ∃ t n, .scalar t ∈ s.values "c" ∧ Numeral.value? t = some n ∧
    n.compare? (.zero false) ≠ some .eq ∧ (n.lt (.zero false) = true ∨ s.head ≠ .randomPlayer)

/-- Java gets the limit for an infinite count beside the limit that is there. -/
def LimitCollides (s : Selector) : Prop :=
  s.values "limit" ≠ [] ∧ ∃ t negative, .scalar t ∈ s.values "c" ∧
    Numeral.value? t = some (.infinite negative)

/-- Bedrock gets a minus sign and a limit with a plus sign beside the count that is there. -/
def CountCollides (s : Selector) : Prop :=
  s.values "c" ≠ [] ∧ ∃ t v, .scalar t ∈ s.values "limit" ∧ isPositiveCount t = true ∧
    (Text.trim t).head? = some '+' ∧ v ∈ s.values "sort" ∧ v.text = "furthest"

/-- Where a name of one value is repeated in the terms of a dialect. -/
def Collides (s : Selector) : Dialect → Text → Prop
  | .java, name => name = "sort" ∧ s.OrderCollides ∨ name = "limit" ∧ s.LimitCollides
  | .bedrock, name => name = "c" ∧ s.CountCollides
  | .universal, _ => False

theorem Collides.notMem {target : Dialect} (h : s.Collides target name) : name ∉ quantityNames := by
  have hnames : ∀ name ∈ (["sort", "limit", "c"] : List Text), name ∉ quantityNames := by
    decide
  refine hnames name ?_
  cases target with
  | java => rcases h with ⟨rfl, -⟩ | ⟨rfl, -⟩ <;> decide
  | bedrock =>
    rw [h.1]
    decide
  | universal => exact h.elim

namespace NumericOnce

variable (hs : s.NumericOnce)

include hs

/-- A name of which one value was there, or none, and one was made, or none. -/
theorem repeated_iff (target : Dialect) (hf : ∀ p ∈ s.parameters, p.value.Faithful)
    {made : List Value} (hv : (inTerms target s).value.values name = s.values name ++ made)
    (hone : made = [] ∨ ∃ t, made = [.read t]) :
    1 < ((adapt target asHull s).value.values name).length ↔
      s.values name ≠ [] ∧ made ≠ [] ∧
        ∃ v ∈ s.values name ++ made, (mergeRule name).fits v = false := by
  have hfaithful : ∀ v ∈ s.values name ++ made, v.Faithful := by
    refine List.forall_mem_append.2 ⟨faithful_values hf, ?_⟩
    rcases hone with rfl | ⟨t, rfl⟩
    · exact List.forall_mem_nil _
    · exact List.forall_mem_singleton.2 (Value.faithful_read t)
  rw [hs.value_adapt, repeated_mergeDuplicates_iff (by rwa [hv]), hv, ← and_assoc]
  refine and_congr_left fun _ => ?_
  rcases hs.values_eq name with h | ⟨v, h⟩ <;> rcases hone with rfl | ⟨t, rfl⟩ <;> simp [h]

theorem greatest_count {t : Text} (hc : .scalar t ∈ s.values "c") :
    (Numeral.greatest? (s.numerals "c")).bind Numeral.value? = Numeral.value? t :=
  value?_greatest_count (hs.values_eq_of_mem hc)

/-- A limit or an order is made for a count other than zero. -/
theorem exists_count (h : picksOf s ≠ []) : ∃ t n, .scalar t ∈ s.values "c" ∧
    Numeral.value? t = some n ∧ n.compare? (.zero false) ≠ some .eq := by
  by_contra hno
  refine h (picksOf_eq_nil fun n hn => ?_)
  by_contra hzero
  rcases hs.values_eq_scalar "c" (by simp) with hv | ⟨t, hv⟩
  · rw [numerals, hv] at hn
    exact absurd hn (Option.not_mem_none n)
  · rw [value?_greatest_count hv] at hn
    exact hno ⟨t, n, by rw [hv]; exact List.mem_singleton_self _, hn, hzero⟩

/-- At most one limit and at most one order are made. -/
theorem made_pick (hname : name = "limit" ∨ name = "sort") :
    Parameter.valuesOf name (picksOf s) = [] ∨
      ∃ t, Parameter.valuesOf name (picksOf s) = [.read t] := by
  by_cases hp : picksOf s = []
  · exact .inl (by rw [hp]; rfl)
  · obtain ⟨t, n, hc, hn, hzero⟩ := hs.exists_count hp
    obtain ⟨hlimit, hsort⟩ := valuesOf_picksOf ((hs.greatest_count hc).trans hn) hzero
    rcases hname with rfl | rfl
    · exact .inr ⟨_, hlimit⟩
    · rw [hsort]
      split_ifs
      · exact .inr ⟨"furthest", by decide⟩
      · exact .inl rfl
      · exact .inr ⟨"nearest", by decide⟩

/-- There is no rule for orders: two of them stay. -/
theorem order_iff (hf : ∀ p ∈ s.parameters, p.value.Faithful) :
    1 < ((adapt .java asHull s).value.values "sort").length ↔ s.OrderCollides := by
  rw [hs.repeated_iff .java hf (values_pick_toJava (.inr rfl) s) (hs.made_pick (.inr rfl)),
    OrderCollides]
  apply and_congr_right
  intro hsort
  constructor
  · rintro ⟨hne, -⟩
    obtain ⟨t, n, hc, hn, hzero⟩ := hs.exists_count fun h => hne (by rw [h]; rfl)
    refine ⟨t, n, hc, hn, hzero, ?_⟩
    rw [(valuesOf_picksOf ((hs.greatest_count hc).trans hn) hzero).2] at hne
    by_contra ho
    obtain ⟨hlt, hhead⟩ := not_or.1 ho
    rw [if_neg hlt, if_pos (not_not.1 hhead)] at hne
    exact hne rfl
  · rintro ⟨t, n, hc, hn, hzero, ho⟩
    obtain ⟨v, hv⟩ := List.exists_mem_of_ne_nil _ hsort
    refine ⟨?_, v, List.mem_append_left _ hv, rfl⟩
    rw [(valuesOf_picksOf ((hs.greatest_count hc).trans hn) hzero).2]
    split_ifs with hlt hhead
    · exact List.cons_ne_nil _ _
    · exact absurd hhead (ho.resolve_left hlt)
    · exact List.cons_ne_nil _ _

/-- Limits are numbers, and so is what is made for a count that is not infinite. -/
theorem limit_iff (hf : ∀ p ∈ s.parameters, p.value.Faithful) :
    1 < ((adapt .java asHull s).value.values "limit").length ↔ s.LimitCollides := by
  rw [hs.repeated_iff .java hf (values_pick_toJava (.inl rfl) s) (hs.made_pick (.inl rfl)),
    LimitCollides]
  apply and_congr_right
  intro _
  constructor
  · rintro ⟨hne, v, hv, hfit⟩
    obtain ⟨t, n, hc, hn, hzero⟩ := hs.exists_count fun h => hne (by rw [h]; rfl)
    rw [(valuesOf_picksOf ((hs.greatest_count hc).trans hn) hzero).1] at hv
    rcases List.mem_append.1 hv with hv | hv
    · rw [show (mergeRule "limit").fits v = true from hs.counts "limit" (by simp) v hv] at hfit
      exact Bool.noConfusion hfit
    · have hword : Numeral.isNumeral n.abs.text = false := by
        by_contra hnum
        rw [List.mem_singleton.1 hv, Value.read_of_isNumeral (Bool.of_not_eq_false hnum)] at hfit
        exact Bool.noConfusion hfit
      obtain ⟨negative, rfl⟩ := Numeral.eq_infinite_of_value? hn hword
      exact ⟨t, negative, hc, hn⟩
  · rintro ⟨t, negative, hc, hn⟩
    have hzero := Double.compare?_infinite_zero negative
    rw [(valuesOf_picksOf ((hs.greatest_count hc).trans hn) hzero).1]
    refine ⟨List.cons_ne_nil _ _, _, List.mem_append_right _ (List.mem_singleton_self _), ?_⟩
    rw [Double.abs]
    decide

/-- A count that is no number stands for a positive limit and the order of the furthest. -/
theorem limit_and_order_of_word {u : Text} (hu : u ∈ (pickOf s).2)
    (hword : (Value.read u).numeral?.isSome = false) :
    ∃ t v, s.values "limit" = [.scalar t] ∧ isPositiveCount t = true ∧
      s.values "sort" = [v] ∧ v.text = "furthest" := by
  have hnum : Numeral.isNumeral u = false := by
    by_contra h
    rw [Value.read_of_isNumeral (Bool.of_not_eq_false h)] at hword
    exact Bool.noConfusion hword
  obtain ⟨hsort, hlimit⟩ := furthest_of_not_isNumeral hu hnum
  rcases hs.values_eq "sort" with hv | ⟨v, hv⟩
  · rw [hv] at hsort
    exact absurd hsort (by simp)
  rcases hs.values_eq_scalar "limit" (by simp) with ht | ⟨t, ht⟩
  · rw [ht] at hlimit
    exact absurd rfl hlimit
  rw [hv, List.getLast?_singleton, Option.map_some, Option.some.injEq] at hsort
  rw [ht, limit?_singleton] at hlimit
  exact ⟨t, v, ht, by_contra fun hp => hlimit (if_neg hp), hv, hsort⟩

/-- The count that is made is no number exactly where a minus sign comes in front of a plus
    sign. -/
theorem exists_word_iff :
    (∃ u ∈ (pickOf s).2, (Value.read u).numeral?.isSome = false) ↔
      ∃ t v, .scalar t ∈ s.values "limit" ∧ isPositiveCount t = true ∧
        (Text.trim t).head? = some '+' ∧ v ∈ s.values "sort" ∧ v.text = "furthest" := by
  constructor
  · rintro ⟨u, hu, hword⟩
    obtain ⟨t, v, ht, hp, hv, hsort⟩ := hs.limit_and_order_of_word hu hword
    rw [pickOf_ordered ht hp hv (.inr hsort)] at hu
    obtain rfl := Option.some.inj hu
    have hplus := ((numeral?_read_countText hp v.text).1 hword).2
    exact ⟨t, v, by rw [ht]; exact List.mem_singleton_self _, hp, hplus,
      by rw [hv]; exact List.mem_singleton_self _, hsort⟩
  · rintro ⟨t, v, ht, hp, hplus, hv, hsort⟩
    have hpick := pickOf_ordered (hs.values_eq_of_mem ht) hp (hs.values_eq_of_mem hv) (.inr hsort)
    rw [hpick]
    exact ⟨_, rfl, (numeral?_read_countText hp v.text).2 ⟨hsort, hplus⟩⟩

/-- Counts are numbers, and so is what is made for a limit and an order, unless a minus sign
    comes in front of a plus sign. -/
theorem count_iff (hf : ∀ p ∈ s.parameters, p.value.Faithful) :
    1 < ((adapt .bedrock asHull s).value.values "c").length ↔ s.CountCollides := by
  rw [hs.repeated_iff .bedrock hf (values_c_toBedrock s) (made_count s), CountCollides,
    ← hs.exists_word_iff]
  apply and_congr_right
  intro _
  constructor
  · rintro ⟨-, v, hv, hfit⟩
    rcases List.mem_append.1 hv with hv | hv
    · rw [show (mergeRule "c").fits v = true from hs.counts "c" (by simp) v hv] at hfit
      exact Bool.noConfusion hfit
    · obtain ⟨u, hu, rfl⟩ := Option.map_eq_some_iff.1 (Option.mem_toList.1 hv)
      exact ⟨u, hu, hfit⟩
  · rintro ⟨u, hu, hword⟩
    have hmade : Value.read u ∈ ((pickOf s).2.map Value.read).toList :=
      Option.mem_toList.2 (Option.mem_map_of_mem Value.read hu)
    exact ⟨List.ne_nil_of_mem hmade, _, List.mem_append_right _ hmade, hword⟩

end NumericOnce

/-- Of a selector that has each name once, with numbers wherever a number is expected, a name
    is repeated in the terms of a dialect exactly where it collides. -/
theorem adapt_repeated_iff (target : Dialect) (settings : Settings) (t : Text)
    (hs : (read t).value.NumericOnce) :
    ∀ name ∈ singleNames,
      1 < ((adapt target settings.mergeToHull (read t).value).value.values name).length ↔
        (read t).value.Collides target name := by
  have hf : ∀ p ∈ (read t).value.parameters, p.value.Faithful := fun _ hp =>
    faithful_of_mem_read hp
  generalize (read t).value = s at hs hf
  have hnil : ∀ name, (inTerms target s).value.values name = [] →
      ¬1 < ((adapt target settings.mergeToHull s).value.values name).length := by
    intro name h
    rw [hs.value_adapt]
    exact once_of_fits (by simp [h]) (by simp [h])
  intro name hname
  rcases List.mem_append.1 hname with hname | hname
  · exact iff_of_false (hs.range_once hf target hname) fun h => h.notMem hname
  have hother : ∀ {p q : Prop}, name = "sort" ∧ p ∨ name = "limit" ∧ q → name ≠ "c" := by
    rintro p q (⟨rfl, -⟩ | ⟨rfl, -⟩) <;> decide
  simp only [List.mem_cons, List.not_mem_nil, or_false] at hname
  cases target with
  | java =>
    rcases hname with rfl | rfl | rfl
    · rw [hs.limit_iff hf]
      simp [Collides]
    · rw [hs.order_iff hf]
      simp [Collides]
    · exact iff_of_false (hnil _ (values_c_toJava s)) fun h => hother h rfl
  | bedrock =>
    rcases hname with rfl | rfl | rfl
    · refine iff_of_false (hnil _ (values_pick_toBedrock (.inr rfl) s)) fun h => ?_
      exact absurd h.1 (by decide)
    · refine iff_of_false (hnil _ (values_pick_toBedrock (.inl rfl) s)) fun h => ?_
      exact absurd h.1 (by decide)
    · rw [hs.count_iff hf]
      simp [Collides]
  | universal =>
    refine iff_of_false ?_ not_false
    rw [hs.value_adapt, inTerms, Noted.value_pure, hs.mergeDuplicates_eq, Nat.not_lt]
    exact Parameter.length_valuesOf_of_nodup hs.once

/-- A range and bounds become one range, and so do two limits, but there are two orders. -/
theorem adapt_repeated_iff_mixed :
    let t : Text := "@a[distance=..9,rm=2,limit=+5,sort=furthest,c=3]"
    let java := (adapt .java Settings.standard.mergeToHull (read t).value).value
    java.text = "@a[distance=..9,limit=+5,sort=furthest,sort=nearest]" ∧
      (read t).value.NumericOnce ∧ ∀ name ∈ singleNames,
        1 < (java.values name).length ↔ (read t).value.Collides .java name := by
  intro t java
  have hs : (read t).value.NumericOnce :=
    ⟨by decide +kernel, by decide +kernel, by decide +kernel, by decide +kernel⟩
  exact ⟨by decide +kernel, hs, adapt_repeated_iff .java .standard t hs⟩

/-- A count becomes a second order beside the one that is there. -/
theorem adapt_repeats_order : ¬∀ (target : Dialect) (settings : Settings) (t : Text),
    (read t).value.NumericOnce → ∀ name ∈ singleNames,
      ((adapt target settings.mergeToHull (read t).value).value.values name).length ≤ 1 := by
  intro h
  have hone := h .java .standard "@a[sort=furthest,c=3]"
    ⟨by decide +kernel, by decide +kernel, by decide +kernel, by decide +kernel⟩ "sort" (by decide)
  revert hone
  decide +kernel

end Selector

end CrossEdition
