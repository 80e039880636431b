import CrossEdition.Proofs.Adaptation.ValuesByName

/-!
# Ranges to Bedrock and back

A range is split into bounds for Bedrock, and the bounds are joined to a range again for
Java. If no bounds stood beside it, it comes back with ends of the same values, whatever
else is rewritten in the selector. Ends that are equal come back as one number, which is
the same range.

Results:
* `GivenOnce.bounded_adapt`: Bedrock has the ends of a range as bounds, and no range.
* `Bounded.values_adapt`: Java has such bounds as one range.
* `ranges_roundTrip`: what comes back.
-/

namespace CrossEdition

/-- Two ends of the same value, or two absent ones. -/
def Bounds.SameEnd : Option Text → Option Text → Prop :=
  Option.Rel fun a b => Numeral.compare? a b = some .eq

theorem Bounds.sameEnd_of_scaled {o o' : Option Text}
    (ho : ∀ t ∈ o, Numeral.isNumeral t = true) (ho' : ∀ t ∈ o', Numeral.isNumeral t = true)
    (h : o.bind Numeral.scaled? = o'.bind Numeral.scaled?) : SameEnd o o' := by
  cases o with
  | none =>
    obtain rfl : o' = none := (bind_eq_none ho').1.1 h.symm
    exact .none
  | some a =>
    cases o' with
    | none => exact absurd ((bind_eq_none ho).1.1 h) (Option.some_ne_none a)
    | some b =>
      have ha := ho a rfl
      obtain ⟨x, hx⟩ := Numeral.exists_scaled ((Numeral.trim_of_isNumeral ha).symm ▸ ha)
      exact .some (Numeral.compare?_eq_some_eq.2 ⟨x, hx, h.symm.trans hx⟩)

/-- Two values that are ranges with the same ends, each perhaps in different spelling. A
    number `n` is the range from `n` to `n`. -/
def Value.SameEnds (v w : Value) : Prop :=
  ∃ b c, v.bounds? = some b ∧ w.bounds? = some c ∧ Bounds.SameEnd b.min c.min ∧
    Bounds.SameEnd b.max c.max

theorem Value.Faithful.sameEnds {v w : Value} {b : Bounds} (hv : v.Faithful) (hw : w.Faithful)
    (hb : v.bounds? = some b) (h : w.interval? = some b.interval) : v.SameEnds w := by
  obtain ⟨c, hc, hi⟩ := Option.map_eq_some_iff.1 h
  have hnb := hv.numeric hb
  have hnc := hw.numeric hc
  refine ⟨b, c, hb, hc, ?_, ?_⟩
  · exact Bounds.sameEnd_of_scaled (fun t ht => hnb t (.inl ht)) (fun t ht => hnc t (.inl ht))
      (congrArg Interval.lower hi).symm
  · exact Bounds.sameEnd_of_scaled (fun t ht => hnb t (.inr ht)) (fun t ht => hnc t (.inr ht))
      (congrArg Interval.upper hi).symm

namespace Selector

variable {s : Selector} {pair : RangePair} {b : Bounds}

/-- A value that a quantity can have in Java and in Bedrock: a range, or a single number if
    it is exact. -/
def Splits (pair : RangePair) (v : Value) : Prop :=
  v.isRange = true ∨ (pair.scalarIsExact = true ∧ v.numeral?.isSome = true)

instance (pair : RangePair) (v : Value) : Decidable (Splits pair v) :=
  inferInstanceAs (Decidable (_ ∨ _))

theorem Splits.exists_bounds {u : Text} (h : Splits pair (.read u)) :
    ∃ b, (Value.read u).bounds? = some b ∧ b.hasBound = true := by
  cases hv : Value.read u with
  | scalar t => exact ⟨.exact t, rfl, rfl⟩
  | range b => exact ⟨b, rfl, Value.read_hasBound hv⟩
  | compound | literal => simp [Splits, hv, Value.isRange, Value.numeral?] at h

/-- A selector that bounds a quantity in Bedrock's way: it has no range for it, and the ends
    of `b` as bounds. -/
structure Bounded (pair : RangePair) (b : Bounds) (s : Selector) : Prop where
  java : s.values pair.java = []
  min : s.values pair.min = b.min.toList.map .scalar
  max : s.values pair.max = b.max.toList.map .scalar

namespace Bounded

theorem mergeDuplicates (h : Bounded pair b s) (asHull : Bool) :
    Bounded pair b (s.mergeDuplicates asHull) := by
  have hone : ∀ {name : Text} {o : Option Text}, s.values name = o.toList.map .scalar →
      (s.mergeDuplicates asHull).values name = o.toList.map .scalar := by
    intro name o ho
    rw [values_mergeDuplicates_of_length_le asHull, ho]
    rw [ho]
    cases o <;> simp
  exact ⟨hone (o := none) h.java, hone h.min, hone h.max⟩

theorem reread (h : Bounded pair b s) (hb : b.Numeric) : Bounded pair b s.reread := by
  have hsame : ∀ {name : Text} {o : Option Text}, (∀ t ∈ o, Numeral.isNumeral t = true) →
      s.values name = o.toList.map .scalar → s.reread.values name = o.toList.map .scalar := by
    intro name o hn ho
    rw [values_reread, ho, List.map_map]
    refine List.map_congr_left fun t ht => ?_
    exact Value.read_of_isNumeral (hn t (Option.mem_toList.1 ht))
  exact ⟨hsame (o := none) (by simp) h.java, hsame (fun t ht => hb t (.inl ht)) h.min,
    hsame (fun t ht => hb t (.inr ht)) h.max⟩

theorem boundsOf_eq (h : Bounded pair b s) (hb : b.Numeric) : boundsOf pair s = b := by
  rw [boundsOf, numerals, numerals, h.min, h.max, filterMap_numeral?, filterMap_numeral?,
    Numeral.least?, Numeral.greatest?, Numeral.best?_toList fun t ht => hb t (.inl ht),
    Numeral.best?_toList fun t ht => hb t (.inr ht)]

/-- In Java's terms the bounds are one range, if there are any. -/
theorem values_adapt (h : Bounded pair b s) (hb : b.Numeric) (hpair : pair ∈ rangePairs)
    (asHull : Bool) : (adapt .java asHull s).value.values pair.java =
      if b.hasBound then [(Value.range b).reread] else [] := by
  have hm := h.mergeDuplicates asHull
  have hv := values_toJava (s := s.mergeDuplicates asHull) hpair
  rw [hm.java, hm.boundsOf_eq hb, List.nil_append] at hv
  rw [adapt_value, inTerms,
    values_mergeDuplicates_of_length_le asHull, hv]
  · rfl
  · rw [hv]
    split_ifs <;> simp

end Bounded

/-- A selector that was read and that gives a quantity at most once, as a range, and not by
    bounds. -/
structure GivenOnce (pair : RangePair) (s : Selector) : Prop where
  one : (s.values pair.java).length ≤ 1
  read : ∀ v ∈ s.values pair.java, ∃ u, v = .read u
  splits : ∀ v ∈ s.values pair.java, Splits pair v
  min : s.values pair.min = []
  max : s.values pair.max = []

namespace GivenOnce

theorem bounds?_isSome (h : GivenOnce pair s) :
    ∀ v ∈ s.values pair.java, v.bounds?.isSome = true := by
  intro v hv
  obtain ⟨u, rfl⟩ := h.read v hv
  obtain ⟨c, hc, -⟩ := (h.splits _ hv).exists_bounds
  rw [hc]
  rfl

/-- What the range is split into is all that Bedrock has for the quantity. -/
theorem bounded_of_splitOff (h : GivenOnce pair s) (hpair : pair ∈ rangePairs) (asHull : Bool)
    (hb : b.Numeric) (hoff : splitOff pair s = boundParameters pair b) :
    Bounded pair b (adapt .bedrock asHull s).value := by
  have hjava : (s.mergeDuplicates asHull).values pair.java = s.values pair.java :=
    values_mergeDuplicates_of_length_le asHull h.one
  have hmin : (s.mergeDuplicates asHull).values pair.min = [] := by
    rw [values_mergeDuplicates_of_length_le asHull (by simp [h.min]), h.min]
  have hmax : (s.mergeDuplicates asHull).values pair.max = [] := by
    rw [values_mergeDuplicates_of_length_le asHull (by simp [h.max]), h.max]
  have hoff' : splitOff pair (s.mergeDuplicates asHull) = boundParameters pair b := by
    rw [← hoff, splitOff, hjava, splitOff]
  obtain ⟨hlower, hupper⟩ := valuesOf_boundParameters hpair hb
  rw [adapt_value, inTerms]
  refine Bounded.mergeDuplicates ⟨values_java_toBedrock hpair ?_, ?_, ?_⟩ asHull
  · rw [hjava]
    exact h.bounds?_isSome
  · rw [values_toBedrock hpair (by simp), hmin, hoff', hlower, List.nil_append]
  · rw [values_toBedrock hpair (by simp), hmax, hoff', hupper, List.nil_append]

/-- In Bedrock's terms the ends of the range are bounds. -/
theorem bounded_adapt (h : GivenOnce pair s) (hpair : pair ∈ rangePairs) (asHull : Bool) :
    ∃ b : Bounds, b.Numeric ∧ Bounded pair b (adapt .bedrock asHull s).value ∧
      ((s.values pair.java = [] ∧ b.hasBound = false) ∨ ∃ v c, s.values pair.java = [v] ∧
        v.bounds? = some c ∧ c.interval = b.interval ∧ b.hasBound = true) := by
  cases hvs : s.values pair.java with
  | nil =>
    have hnone : Bounds.Numeric ⟨none, none⟩ := by
      rintro t (ht | ht) <;> simp at ht
    refine ⟨⟨none, none⟩, hnone, h.bounded_of_splitOff hpair asHull hnone ?_, .inl ⟨rfl, rfl⟩⟩
    rw [splitOff, hvs]
    rfl
  | cons v vs =>
    have hone := h.one
    rw [hvs, List.length_cons] at hone
    obtain rfl : vs = [] := List.length_eq_zero_iff.1 (by omega)
    have hv : v ∈ s.values pair.java := by simp [hvs]
    obtain ⟨u, rfl⟩ := h.read v hv
    have hsplit := h.splits _ hv
    obtain ⟨c, hc, hcb⟩ := hsplit.exists_bounds
    obtain ⟨b, hb, hi, hbb, hoff⟩ := exists_boundsOfRange? pair (Value.faithful_read u) hc hsplit
    refine ⟨b, hb, h.bounded_of_splitOff hpair asHull hb ?_,
      .inr ⟨_, c, rfl, hc, hi.symm, hbb.trans hcb⟩⟩
    rw [splitOff, hvs, List.flatMap_singleton, hoff, Option.getD_some]

end GivenOnce

/-- Ranges that are adapted to Bedrock and back to Java have the same ends as before, and
    none comes up. The parameter list has to close its quotes and brackets, and parameters
    that are converted as a whole are left aside. So is a single distance, which bounds from
    above only. -/
theorem ranges_roundTrip (settings settings' : Settings) {t : Text}
    (hbody : ∀ body ∈ body? (Text.trim t), (Nesting.outside.scan body).isTop = true)
    (hnames : ∀ p ∈ (read t).value.parameters, p.name ∉ wholeNames ∧ p.name ∉ boundNames)
    (hone : ∀ pair ∈ rangePairs, ((read t).value.values pair.java).length ≤ 1)
    (hsplit : ∀ pair ∈ rangePairs, ∀ v ∈ (read t).value.values pair.java, Splits pair v) :
    let bedrock := (filter .bedrock settings t).value
    let back := (read (filter .java settings' bedrock).value).value
    ∀ pair ∈ rangePairs,
      List.Forall₂ Value.SameEnds ((read t).value.values pair.java) (back.values pair.java) := by
  intro bedrock back pair hpair
  have hclosing : ∀ c, decide (c = ']') = true → Text.isClosing c = true :=
    fun c hc => Bool.or_eq_true_iff.2 (.inl hc)
  have hq := separates_or_comma hclosing
  have hin : ∀ pair ∈ rangePairs, pair.min ∈ boundNames ∧ pair.max ∈ boundNames := by
    decide
  have hnone : ∀ name ∈ boundNames, (read t).value.values name = [] := by
    intro name hname
    rw [values, Parameter.valuesOf_eq_nil_iff]
    rintro p hp rfl
    exact (hnames p hp).2 hname
  have hgiven : GivenOnce pair (read t).value :=
    ⟨hone pair hpair, fun v hv => exists_read_of_mem (Parameter.mem_valuesOf.1 hv),
      hsplit pair hpair, hnone _ (hin pair hpair).1, hnone _ (hin pair hpair).2⟩
  obtain ⟨b, hb, hbounded, hcases⟩ := hgiven.bounded_adapt hpair settings.mergeToHull
  -- both texts are read back
  obtain ⟨hbedrock, hw, hn⟩ := read_filter .bedrock settings hq (by decide) (by decide)
    (wellFormed_read hclosing (closed_body hbody)) fun p hp => (hnames p hp).1
  obtain ⟨hback, -, -⟩ := read_filter .java settings' hq (by decide) (by decide) hw hn
  have hvalues : back.values pair.java = if b.hasBound then [(Value.range b).reread] else [] := by
    have hr : (Value.range b).Faithful := hb
    have hj := (hbounded.reread hb).values_adapt hb hpair settings'.mergeToHull
    rw [← hbedrock] at hj
    rw [show back = _ from hback, values_reread, hj]
    split_ifs
    · rw [List.map_singleton, hr.reread_reread]
    · rfl
  rw [hvalues]
  rcases hcases with ⟨hnil, hbound⟩ | ⟨v, c, hvs, hc, hi, hbound⟩
  · rw [hnil, hbound]
    exact .nil
  · rw [hvs, hbound, if_pos rfl]
    obtain ⟨u, rfl⟩ := hgiven.read v (by simp [hvs])
    have hr : (Value.range b).Faithful := hb
    refine .cons ((Value.faithful_read u).sameEnds (Value.faithful_reread _) hc ?_) .nil
    rw [hi]
    exact hr.interval?_reread_range hbound

/-- Equal ends, a single number and an open end, with other parameters beside them. -/
theorem ranges_roundTrip_beside_others :
    let t : Text := "@e[distance=5..5.0,x_rotation=-.50..,sort=furthest,name=\"a,]\",level=3]"
    let java := (filter .java .standard (filter .bedrock .standard t).value).value
    java = "@e[name=\"a,]\",distance=5,x_rotation=-.5..,level=3,limit=9999,sort=furthest]" ∧
      ∀ pair ∈ rangePairs, List.Forall₂ Value.SameEnds ((read t).value.values pair.java)
        ((read java).value.values pair.java) := by
  intro t java
  have hread : (read t).value = ⟨.allEntities, [⟨"distance", .range ⟨some "5", some "5.0"⟩⟩,
      ⟨"x_rotation", .range ⟨some "-.50", none⟩⟩, ⟨"sort", .literal "furthest"⟩,
      ⟨"name", .literal "\"a,]\""⟩, ⟨"level", .scalar "3"⟩]⟩ := by
    decide +kernel
  refine ⟨by decide +kernel, ranges_roundTrip .standard .standard (by decide +kernel) ?_ ?_ ?_⟩
  · rw [hread]
    decide
  · rw [hread]
    decide
  · rw [hread]
    decide

end Selector

end CrossEdition
