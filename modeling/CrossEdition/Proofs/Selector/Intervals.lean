import CrossEdition.Proofs.Selector.Merging
import Mathlib.Data.Option.NAry

/-!
# Intervals of values

What a numeric value bounds, apart from its spelling: the values of its two ends, where an
absent end bounds nothing. Merging repeated ranges takes the hull of their intervals, and
merging repeated bounds the least or the greatest of their values.

Results:
* `scaled?_least?`, `scaled?_greatest?`: the chosen numeral has the extreme value.
* `interval_hull`: the interval of a hull is the hull of the intervals.
* `interval?_mergeDuplicates`: what merging makes of the ranges of one name.
* `scalars_mergeDuplicates`: what merging makes of the bounds of one name.
* `interval_reread`: reading a value again keeps its interval.
-/

namespace CrossEdition

/-! ## Extreme numerals -/

namespace Numeral

/-- Choosing the best of several numerals compares their values. -/
theorem scaled?_foldl_best {wanted : Ordering} {pick : Int → Int → Int}
    (hpick : ∀ a b, pick a b = if compare b a = wanted then b else a) {ts : List Text}
    {xs : List Int} {best : Text × Double} {x : Int} (hbest : scaled? best.1 = some x)
    (hvalue : best.2.scaled? = some x) (h : ts.map scaled? = xs.map some) :
    scaled? ((valued ts).foldl
      (fun best t => if t.2.compare? best.2 = some wanted then t else best) best).1 =
        some (xs.foldl pick x) := by
  induction ts generalizing xs best x with
  | nil =>
    obtain rfl : xs = [] := by simpa using h.symm
    exact hbest
  | cons t ts ih =>
    obtain _ | ⟨y, ys⟩ := xs
    · simp at h
    rw [List.map_cons, List.map_cons, List.cons.injEq] at h
    obtain ⟨hy, hys⟩ := h
    obtain ⟨d, hd, hdy⟩ := Option.bind_eq_some_iff.1 hy
    have hv : valued (t :: ts) = (t, d) :: valued ts := by simp [valued, hd]
    have hc : d.compare? best.2 = some (compare y x) := by simp [Double.compare?, hdy, hvalue]
    rw [hv, List.foldl_cons, List.foldl_cons, hpick, hc]
    simp only [Option.some.injEq]
    split_ifs
    · exact ih hy hdy hys
    · exact ih hbest hvalue hys

theorem map_scaled? {ts : List Text} (h : ∀ t ∈ ts, isNumeral t = true) :
    ts.map scaled? = (ts.filterMap scaled?).map some := by
  induction ts with
  | nil => rfl
  | cons t ts ih =>
    have ht := h t (by simp)
    obtain ⟨x, hx⟩ := exists_scaled ((trim_of_isNumeral ht).symm ▸ ht)
    rw [List.filterMap_cons_some hx, List.map_cons, List.map_cons, hx,
      ih fun u hu => h u (List.mem_cons_of_mem t hu)]

theorem scaled?_best? {wanted : Ordering} {pick : Int → Int → Int}
    (hpick : ∀ a b, pick a b = if compare b a = wanted then b else a) {t : Text} {ts : List Text}
    {x : Int} {xs : List Int} (h : (t :: ts).map scaled? = (x :: xs).map some) :
    (best? wanted (t :: ts)).bind scaled? = some (xs.foldl pick x) := by
  rw [List.map_cons, List.map_cons, List.cons.injEq] at h
  obtain ⟨hx, hxs⟩ := h
  obtain ⟨d, hd, hdx⟩ := Option.bind_eq_some_iff.1 hx
  have hv : valued (t :: ts) = (t, d) :: valued ts := by simp [valued, hd]
  rw [best?, hv]
  exact scaled?_foldl_best hpick hx hdx hxs

/-- The least of several numerals has the least of their values. -/
theorem scaled?_least? {ts : List Text} (h : ∀ t ∈ ts, isNumeral t = true) :
    (least? ts).bind scaled? = (ts.filterMap scaled?).min? := by
  have hm := map_scaled? h
  cases ts with
  | nil => rfl
  | cons t ts =>
    cases hx : (t :: ts).filterMap scaled? with
    | nil => simp [hx] at hm
    | cons x xs =>
      rw [hx] at hm
      rw [List.min?_cons', least?]
      refine scaled?_best? (fun a b => ?_) hm
      simp only [compare_lt_iff_lt]
      omega

/-- The greatest of several numerals has the greatest of their values. -/
theorem scaled?_greatest? {ts : List Text} (h : ∀ t ∈ ts, isNumeral t = true) :
    (greatest? ts).bind scaled? = (ts.filterMap scaled?).max? := by
  have hm := map_scaled? h
  cases ts with
  | nil => rfl
  | cons t ts =>
    cases hx : (t :: ts).filterMap scaled? with
    | nil => simp [hx] at hm
    | cons x xs =>
      rw [hx] at hm
      rw [List.max?_cons', greatest?]
      refine scaled?_best? (fun a b => ?_) hm
      simp only [compare_gt_iff_gt]
      omega

end Numeral

/-! ## Intervals -/

/-- An interval of numbers, in the units that numerals are compared in. Without an end it
    is unbounded on that side. -/
structure Interval where
  lower : Option Int
  upper : Option Int
deriving DecidableEq, Repr

namespace Interval

/-- All numbers. -/
def unbounded : Interval :=
  ⟨none, none⟩

/-- The outermost of several ends, or none if one of them is absent. -/
def outermost (best : List Int → Option Int) (ends : List (Option Int)) : Option Int :=
  if none ∈ ends then none else best (ends.filterMap id)

/-- The least interval that contains all of several; all numbers if there are none. -/
def hull (is : List Interval) : Interval :=
  ⟨outermost List.min? (is.map lower), outermost List.max? (is.map upper)⟩

@[simp] theorem hull_nil : hull [] = unbounded := rfl

@[simp] theorem hull_singleton (i : Interval) : hull [i] = i := by
  obtain ⟨_ | lo, _ | hi⟩ := i <;> rfl

/-- The hull of two intervals is bounded where both are. -/
theorem hull_pair (i j : Interval) :
    hull [i, j] = ⟨Option.map₂ min i.lower j.lower, Option.map₂ max i.upper j.upper⟩ := by
  obtain ⟨_ | _, _ | _⟩ := i <;> obtain ⟨_ | _, _ | _⟩ := j <;> rfl

theorem outermost_isSome {best : List Int → Option Int} {ends : List (Option Int)}
    (hbest : ∀ xs ≠ [], (best xs).isSome = true) (h : ends ≠ []) :
    (outermost best ends).isSome = true ↔ ∀ o ∈ ends, o.isSome = true := by
  unfold outermost
  split_ifs with hn
  · exact iff_of_false (by simp) fun hall => by simpa using hall none hn
  · have hall : ∀ o ∈ ends, o.isSome = true := fun o ho =>
      Option.isSome_iff_ne_none.2 fun he => hn (he ▸ ho)
    obtain ⟨o, os, rfl⟩ := List.exists_cons_of_ne_nil h
    obtain ⟨x, rfl⟩ := Option.isSome_iff_exists.1 (hall o (by simp))
    exact iff_of_true (hbest _ (by simp)) hall

theorem lower_hull_isSome {is : List Interval} (h : is ≠ []) :
    (hull is).lower.isSome = true ↔ ∀ i ∈ is, i.lower.isSome = true := by
  rw [hull, outermost_isSome (by simp) (by simpa using h), List.forall_mem_map]

theorem upper_hull_isSome {is : List Interval} (h : is ≠ []) :
    (hull is).upper.isSome = true ↔ ∀ i ∈ is, i.upper.isSome = true := by
  rw [hull, outermost_isSome (by simp) (by simpa using h), List.forall_mem_map]

end Interval

namespace Bounds

variable {b : Bounds}

/-- The interval of a range. -/
def interval (b : Bounds) : Interval :=
  ⟨b.min.bind Numeral.scaled?, b.max.bind Numeral.scaled?⟩

theorem bind_eq_none {o : Option Text} (h : ∀ t ∈ o, Numeral.isNumeral t = true) :
    (o.bind Numeral.scaled? = none ↔ o = none) ∧ (o.bind Numeral.value? = none ↔ o = none) := by
  cases o with
  | none => simp
  | some t =>
    have ht : Numeral.isNumeral (Text.trim t) = true :=
      (Numeral.trim_of_isNumeral (h t rfl)).symm ▸ h t rfl
    obtain ⟨x, hx⟩ := Numeral.exists_scaled ht
    obtain ⟨d, hd⟩ := Option.isSome_iff_exists.1 (Numeral.value?_isSome.trans ht)
    simp [hx, hd]

theorem lower_isSome (h : b.Numeric) : b.interval.lower.isSome = b.min.isSome := by
  have hn := (bind_eq_none fun t ht => h t (.inl ht)).1
  rw [Bool.eq_iff_iff, Option.isSome_iff_ne_none, Option.isSome_iff_ne_none]
  exact not_congr hn

theorem upper_isSome (h : b.Numeric) : b.interval.upper.isSome = b.max.isSome := by
  have hn := (bind_eq_none fun t ht => h t (.inr ht)).1
  rw [Bool.eq_iff_iff, Option.isSome_iff_ne_none, Option.isSome_iff_ne_none]
  exact not_congr hn

/-- The value of one end of a hull, by the values of the ends on that side. -/
theorem scaled?_outermost {side : Bounds → Option Text} {best : List Text → Option Text}
    {best' : List Int → Option Int} {bs : List Bounds}
    (hbest : ∀ ts, (∀ t ∈ ts, Numeral.isNumeral t = true) →
      (best ts).bind Numeral.scaled? = best' (ts.filterMap Numeral.scaled?))
    (h : ∀ b ∈ bs, ∀ t ∈ side b, Numeral.isNumeral t = true) :
    (if bs.any (fun b => ((side b).bind Numeral.value?).isNone) then none
      else best (bs.filterMap side)).bind Numeral.scaled? =
        Interval.outermost best' (bs.map fun b => (side b).bind Numeral.scaled?) := by
  have hnone : bs.any (fun b => ((side b).bind Numeral.value?).isNone) = true ↔
      none ∈ bs.map fun b => (side b).bind Numeral.scaled? := by
    simp only [List.any_eq_true, List.mem_map, Option.isNone_iff_eq_none]
    refine exists_congr fun b => and_congr_right fun hb => ?_
    rw [(bind_eq_none (h b hb)).1, (bind_eq_none (h b hb)).2]
  rw [Interval.outermost, if_congr hnone rfl rfl]
  split_ifs
  · rfl
  · rw [hbest, List.filterMap_filterMap, List.filterMap_map]
    · rfl
    · intro t ht
      obtain ⟨b, hb, hm⟩ := List.mem_filterMap.1 ht
      exact h b hb t hm

/-- The interval of a hull is the hull of the intervals. -/
theorem interval_hull {bs : List Bounds} (h : ∀ b ∈ bs, b.Numeric) :
    (hull bs).interval = Interval.hull (bs.map interval) := by
  have hlo := scaled?_outermost (fun _ => Numeral.scaled?_least?) fun b hb t ht =>
    h b hb t (.inl ht)
  have hhi := scaled?_outermost (fun _ => Numeral.scaled?_greatest?) fun b hb t ht =>
    h b hb t (.inr ht)
  rw [Interval.hull, List.map_map, List.map_map]
  exact congrArg₂ Interval.mk hlo hhi

end Bounds

/-! ## Values -/

namespace Value

variable {v : Value} {b : Bounds}

/-- The interval of a numeric value. -/
def interval? (v : Value) : Option Interval :=
  v.bounds?.map Bounds.interval

theorem isSome_interval? (v : Value) : v.interval?.isSome = v.bounds?.isSome :=
  Option.isSome_map

/-- Whether a value is a range. -/
def isRange : Value → Bool
  | range _ => true
  | _ => false

theorem isRange_iff : v.isRange = true ↔ ∃ b, v = range b := by
  cases v <;> simp [isRange]

theorem Faithful.numeric (h : v.Faithful) (hb : v.bounds? = some b) : b.Numeric := by
  cases v with
  | scalar t =>
    rw [← Option.some.inj hb]
    rintro u (hu | hu) <;> exact Option.some.inj hu ▸ h.isNumeral
  | range b' =>
    rw [← Option.some.inj hb]
    exact h
  | compound | literal => simp [bounds?] at hb

/-- Normalized ends bound the same interval, and so does a single number for two equal
    ends. -/
theorem Faithful.interval?_reread_range (h : (range b).Faithful) (hb : b.hasBound = true) :
    (range b).reread.interval? = some b.interval := by
  cases hp : b.isPoint with
  | true =>
    obtain ⟨lo, hi, rfl, he, hr⟩ := h.reread_point hp
    obtain ⟨x, hlo, hhi⟩ := Numeral.compare?_eq_some_eq.1 he
    simp [hr, interval?, bounds?, Bounds.interval, Bounds.exact, hlo, hhi]
  | false =>
    rw [h.reread_range hp hb]
    obtain ⟨lo, hi⟩ := b
    cases lo <;> cases hi <;> simp [interval?, bounds?, Bounds.interval, Bounds.normal]

/-- Reading a value again keeps its interval. A range without ends is read as no range. -/
theorem Faithful.interval_reread (h : v.Faithful) :
    v.reread.interval?.getD .unbounded = v.interval?.getD .unbounded := by
  cases v with
  | range b =>
    cases hb : b.hasBound with
    | true => rw [h.interval?_reread_range hb]; rfl
    | false =>
      rw [reread_unbounded hb]
      obtain ⟨_ | lo, _ | hi⟩ := b
      · rfl
      all_goals simp [Bounds.hasBound] at hb
  | scalar | compound | literal => rw [h.reread_eq (by simp)]

end Value

/-! ## Repeated values -/

namespace Parameter

variable {ps : List Parameter} {name : Text}

/-- Repeated numeric values of a range become one value, whose interval is their hull. -/
theorem interval?_mergeDuplicates (hrule : mergeRule name = .range)
    (hf : ∀ v ∈ valuesOf name ps, v.Faithful)
    (h : ∀ v ∈ valuesOf name ps, v.bounds?.isSome = true) :
    (valuesOf name (mergeDuplicates true ps)).map Value.interval? =
      if valuesOf name ps = [] then []
      else [some (.hull ((valuesOf name ps).filterMap Value.interval?))] := by
  rw [valuesOf_mergeDuplicates, mergedValue?, hrule]
  generalize valuesOf name ps = vs at hf h
  rcases vs with _ | ⟨v, _ | ⟨w, vs⟩⟩
  · rfl
  · obtain ⟨b, hb⟩ := Option.isSome_iff_exists.1 (h v (by simp))
    simp [Value.interval?, hb]
  · obtain ⟨b, hb⟩ := Option.isSome_iff_exists.1 (h v (by simp))
    have hn : ∀ b ∈ (v :: w :: vs).filterMap Value.bounds?, b.Numeric := by
      intro b hb
      obtain ⟨u, hu, hub⟩ := List.mem_filterMap.1 hb
      exact (hf u hu).numeric hub
    have hm : mergeValues? true (v :: w :: vs) .range =
        some (.range (.hull ((v :: w :: vs).filterMap Value.bounds?))) := by
      rw [mergeValues?, if_pos (List.all_eq_true.2 h), List.filterMap_cons_some hb, Bounds.merge?]
      rfl
    have hi : (v :: w :: vs).filterMap Value.interval? =
        ((v :: w :: vs).filterMap Value.bounds?).map Bounds.interval :=
      (List.map_filterMap ..).symm
    rw [if_pos (by simp), hm, if_neg (by simp), hi, ← Bounds.interval_hull hn]
    rfl

/-- Repeated bounds become the best of them. -/
theorem scalars_mergeDuplicates {asHull : Bool} {wanted : Ordering}
    (hrule : (mergeRule name = .min ∧ wanted = .lt) ∨ (mergeRule name = .max ∧ wanted = .gt))
    (hf : ∀ v ∈ valuesOf name ps, v.Faithful)
    (h : ∀ v ∈ valuesOf name ps, v.numeral?.isSome = true) :
    valuesOf name (mergeDuplicates asHull ps) =
      (Numeral.best? wanted ((valuesOf name ps).filterMap Value.numeral?)).toList.map .scalar := by
  rw [valuesOf_mergeDuplicates, mergedValue?]
  generalize valuesOf name ps = vs at hf h
  rcases vs with _ | ⟨v, _ | ⟨w, vs⟩⟩
  · rfl
  · obtain ⟨t, ht⟩ := Option.isSome_iff_exists.1 (h v (by simp))
    cases v with
    | scalar u =>
      have hbest : Numeral.best? wanted (some u).toList = some u :=
        Numeral.best?_toList fun t ht =>
          Option.some.inj ht ▸ (hf (.scalar u) (by simp)).isNumeral
      rw [Option.toList_some] at hbest
      simp [Value.numeral?, hbest]
    | _ => simp [Value.numeral?] at ht
  · obtain ⟨t, ht⟩ : ∃ t, Numeral.best? wanted ((v :: w :: vs).filterMap Value.numeral?) = some t :=
      Option.isSome_iff_exists.1 (best?_numerals_isSome (by simp) hf h)
    have hm : mergeValues? asHull (v :: w :: vs) (mergeRule name) = some (.scalar t) := by
      rcases hrule with ⟨hr, rfl⟩ | ⟨hr, rfl⟩
      · rw [hr, mergeValues?, if_pos (List.all_eq_true.2 h), Numeral.least?, ht]
        rfl
      · rw [hr, mergeValues?, if_pos (List.all_eq_true.2 h), Numeral.greatest?, ht]
        rfl
    rw [if_pos (by simp), hm, ht]
    rfl

end Parameter

end CrossEdition
