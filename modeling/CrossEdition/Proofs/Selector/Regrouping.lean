import CrossEdition.Proofs.Decimal.WholeNumbers
import CrossEdition.Proofs.Selector.Intervals
import Mathlib.Data.Int.ConditionallyCompleteOrder
import Mathlib.Data.List.MinMax

/-!
# Merging in groups

Several ranges may be merged group by group: merging what the groups give is merging all of
them. The widest range and the outermost ends are each the first of the greatest under a rank,
and such a choice may be made in groups. The hull does not depend on the order either: on each
side it is the outermost value, so it is the least interval that contains all others.

Results:
* `argmax_append`: the first of the greatest of two lists together.
* `merge?_widest`, `best?_eq_argmax`: the widest range and the best numeral are such choices.
* `hull_append`: the hull of two groups is the hull of their hulls.
* `within_hull_iff`: the hull is the least interval that contains all others.
* `merge?_groups`: all of this for ranges with finite ends.
-/

namespace CrossEdition

/-! ## The first of the greatest -/

section Greatest

variable {α β : Type} [LinearOrder β] {rank : α → β} {l m : List α} {a b : α}

/-- The first of the greatest of two lists is that of the two that were chosen from each. -/
theorem argmax_append (hl : l.argmax rank = some a) (hm : m.argmax rank = some b) :
    (l ++ m).argmax rank = [a, b].argmax rank := by
  have hfront : (l ++ m).argmax rank = (a :: m).argmax rank := by
    have ha : l.foldl (List.argAux fun b c => rank c < rank b) none = some a := hl
    rw [List.argmax, List.argmax, List.foldl_append, ha]
    rfl
  rw [hfront, List.argmax_cons, List.argmax_cons, hm, List.argmax_singleton]

/-- Keeping the better of two, one after the other, chooses the first of the greatest. -/
theorem argmax_cons_eq_foldl {better : α → α → Prop} [DecidableRel better]
    (h : ∀ x ∈ a :: l, ∀ y ∈ a :: l, better x y ↔ rank y < rank x) :
    (a :: l).argmax rank =
      some (l.foldl (fun best x => if better x best then x else best) a) := by
  change l.foldl (List.argAux fun b c => rank c < rank b) (some a) = _
  induction l generalizing a with
  | nil => rfl
  | cons x l ih =>
    have hx := h x (by simp) a (by simp)
    simp only [List.foldl_cons, List.argAux]
    by_cases hlt : rank a < rank x
    · simp only [if_pos hlt, if_pos (hx.2 hlt)]
      exact ih fun y hy z hz => h y (List.mem_cons_of_mem a hy) z (List.mem_cons_of_mem a hz)
    · simp only [if_neg hlt, if_neg (hlt ∘ hx.1)]
      have hsub : a :: l ⊆ a :: x :: l := List.cons_subset_cons a (List.subset_cons_self x l)
      exact ih fun y hy z hz => h y (hsub hy) z (hsub hz)

end Greatest

/-! ## The widest range -/

namespace Double

variable {x y : Double}

/-- A number in units. -/
theorem exists_scaled_of_ne_nan (h : x ≠ nan) : ∃ n, x.scaled? = some n := by
  cases x with
  | nan => exact absurd rfl h
  | infinite negative => exact ⟨_, rfl⟩
  | finite negative units hu => exact ⟨_, rfl⟩

/-- The difference of finite numbers is a number. -/
theorem abs_sub_ne_nan (a b : Bool) {m n : Nat} (hm : Representable m) (hn : Representable n) :
    ((finite a m hm).sub (finite b n hn)).abs ≠ nan := by
  have hsum : (finite a m hm).sub (finite b n hn) ≠ nan := by
    rw [sub, neg, add]
    generalize (if a then -(m : Int) else m) + (if !b then -(n : Int) else n) = sum
    split
    · exact fun h => Double.noConfusion h
    · exact ofRatio_ne_nan _ _ _
  intro h
  cases hs : (finite a m hm).sub (finite b n hn) with
  | nan => exact hsum hs
  | infinite | finite => rw [hs] at h; exact Double.noConfusion h

end Double

namespace Bounds

variable {a b : Bounds} {as bs : List Bounds}

/-- Whether the ends of a range have finite values. -/
def Finite (b : Bounds) : Prop :=
  ∀ t, t ∈ b.min ∨ t ∈ b.max →
    ∃ negative units h, Numeral.value? t = some (.finite negative units h)

/-- The width of a range, in units. -/
def width (b : Bounds) : WithTop Int :=
  match b.span? with
  | none => ⊤
  | some d => (d.scaled?.getD 0 : Int)

/-- The distance between finite ends is a number. -/
theorem Finite.span?_ne_nan (h : b.Finite) : b.span? ≠ some .nan := by
  intro hs
  simp only [span?, Option.bind_eq_bind, Option.bind_eq_some_iff, Option.some.injEq] at hs
  obtain ⟨hi, hhi, lo, hlo, hnan⟩ := hs
  obtain ⟨t, ht, htv⟩ := Option.bind_eq_some_iff.1 hhi
  obtain ⟨u, hu, huv⟩ := Option.bind_eq_some_iff.1 hlo
  obtain ⟨_, _, _, hf⟩ := h t (.inr ht)
  obtain ⟨_, _, _, hg⟩ := h u (.inl hu)
  rw [htv, Option.some.injEq] at hf
  rw [huv, Option.some.injEq] at hg
  subst hf hg
  exact Double.abs_sub_ne_nan _ _ _ _ hnan

theorem wider_iff (ha : a.span? ≠ some .nan) (hb : b.span? ≠ some .nan) :
    b.wider a = true ↔ a.width < b.width := by
  unfold wider width
  cases hs : a.span? with
  | none => simp
  | some s =>
    cases ht : b.span? with
    | none => simp
    | some t =>
      obtain ⟨m, hm⟩ := Double.exists_scaled_of_ne_nan (x := s) fun he => ha (he ▸ hs)
      obtain ⟨n, hn⟩ := Double.exists_scaled_of_ne_nan (x := t) fun he => hb (he ▸ ht)
      simp [Double.lt_iff_of_scaled hm hn, hm, hn]

/-- The merged range is the first of the widest. -/
theorem merge?_widest (h : ∀ b ∈ bs, b.span? ≠ some .nan) :
    merge? false bs = bs.argmax width := by
  cases bs with
  | nil => rfl
  | cons b bs =>
    have hwider : ∀ x ∈ b :: bs, ∀ y ∈ b :: bs, x.wider y = true ↔ y.width < x.width :=
      fun x hx y hy => wider_iff (h y hy) (h x hx)
    exact (argmax_cons_eq_foldl hwider).symm

end Bounds

/-! ## The best numeral -/

namespace Numeral

variable {wanted : Ordering} {ts us : List Text} {t u : Text}

/-- The value in units, turned around if the least is wanted. -/
def weight (wanted : Ordering) (n : Int) : Int :=
  if wanted = .lt then -n else n

/-- A numeral has a value that is a number. -/
theorem ne_nan_of_value? {x : Double} (h : value? t = some x) : x ≠ .nan := by
  obtain ⟨d, -, rfl⟩ := Option.map_eq_some_iff.1 h
  exact Decimal.toDouble_ne_nan d

theorem value?_of_mem_valued {p : Text × Double} (h : p ∈ valued ts) :
    p.1 ∈ ts ∧ value? p.1 = some p.2 := by
  obtain ⟨t, ht, hv⟩ := List.mem_filterMap.1 h
  obtain ⟨x, hx, rfl⟩ := Option.map_eq_some_iff.1 hv
  exact ⟨ht, hx⟩

theorem beats_iff (hw : wanted = .lt ∨ wanted = .gt) {x y : Double} {m n : Int}
    (hx : x.scaled? = some m) (hy : y.scaled? = some n) :
    x.compare? y = some wanted ↔ weight wanted n < weight wanted m := by
  rw [Double.compare?_of_scaled hx hy, Option.some.injEq]
  rcases hw with rfl | rfl
  · simp [weight, compare_lt_iff_lt]
  · simp [weight, compare_gt_iff_gt]

/-- The best numeral is the first of those with the greatest weight. -/
theorem best?_eq_argmax (hw : wanted = .lt ∨ wanted = .gt) (ts : List Text) :
    best? wanted ts =
      ((valued ts).argmax fun p => weight wanted (p.2.scaled?.getD 0)).map Prod.fst := by
  unfold best?
  cases hv : valued ts with
  | nil => rfl
  | cons p ps =>
    have hbeats : ∀ x ∈ p :: ps, ∀ y ∈ p :: ps, x.2.compare? y.2 = some wanted ↔
        weight wanted (y.2.scaled?.getD 0) < weight wanted (x.2.scaled?.getD 0) := by
      intro x hx y hy
      obtain ⟨m, hm⟩ := Double.exists_scaled_of_ne_nan
        (ne_nan_of_value? (value?_of_mem_valued (hv ▸ hx)).2)
      obtain ⟨n, hn⟩ := Double.exists_scaled_of_ne_nan
        (ne_nan_of_value? (value?_of_mem_valued (hv ▸ hy)).2)
      rw [beats_iff hw hm hn, hm, hn]
      rfl
    rw [argmax_cons_eq_foldl hbeats]
    rfl

/-- The best of two groups is the better of the best of each. -/
theorem best?_append (hw : wanted = .lt ∨ wanted = .gt) (ht : best? wanted ts = some t)
    (hu : best? wanted us = some u) : best? wanted (ts ++ us) = best? wanted [t, u] := by
  rw [best?_eq_argmax hw] at ht hu ⊢
  obtain ⟨⟨t, x⟩, hp, rfl⟩ := Option.map_eq_some_iff.1 ht
  obtain ⟨⟨u, y⟩, hq, rfl⟩ := Option.map_eq_some_iff.1 hu
  have hx : value? t = some x := (value?_of_mem_valued (List.argmax_mem hp)).2
  have hy : value? u = some y := (value?_of_mem_valued (List.argmax_mem hq)).2
  have happend : valued (ts ++ us) = valued ts ++ valued us := List.filterMap_append ..
  have hpair : valued [t, u] = [(t, x), (u, y)] := by simp [valued, hx, hy]
  rw [best?_eq_argmax hw, happend, argmax_append hp hq, hpair]

/-- The best numeral is one of those that have a value, and no other has a greater weight. -/
theorem weight_le_of_best? (hw : wanted = .lt ∨ wanted = .gt) (h : best? wanted ts = some t) :
    t ∈ ts ∧ ∃ n, scaled? t = some n ∧
      ∀ u ∈ ts, ∀ m ∈ scaled? u, weight wanted m ≤ weight wanted n := by
  rw [best?_eq_argmax hw] at h
  obtain ⟨⟨t, x⟩, hp, rfl⟩ := Option.map_eq_some_iff.1 h
  obtain ⟨hmem, hx⟩ := value?_of_mem_valued (List.argmax_mem hp)
  obtain ⟨n, hn⟩ := Double.exists_scaled_of_ne_nan (ne_nan_of_value? hx)
  refine ⟨hmem, n, by rw [scaled?, hx]; exact hn, fun u hu m hm => ?_⟩
  obtain ⟨y, hy, hym⟩ := Option.bind_eq_some_iff.1 hm
  have hq : (u, y) ∈ valued ts := List.mem_filterMap.2 ⟨u, hu, by rw [hy]; rfl⟩
  have hle := List.le_of_mem_argmax hq hp
  simpa only [Option.mem_def.1 hym, hn, Option.getD_some] using hle

theorem best?_eq_none_iff (hw : wanted = .lt ∨ wanted = .gt) :
    best? wanted ts = none ↔ ∀ t ∈ ts, value? t = none := by
  simp [best?_eq_argmax hw, valued]

/-- A text has a value in units exactly if it has a value. -/
theorem scaled?_eq_none_iff : scaled? t = none ↔ value? t = none := by
  cases hv : value? t with
  | none => simp [scaled?, hv]
  | some x =>
    obtain ⟨n, hn⟩ := Double.exists_scaled_of_ne_nan (ne_nan_of_value? hv)
    simp [scaled?, hv, hn]

end Numeral

/-! ## One side of a hull -/

/-- The outermost of several ends, or none if one of them has no value. -/
def outermost? (wanted : Ordering) (ends : List (Option Text)) : Option Text :=
  if ends.any fun e => (e.bind Numeral.value?).isNone then none
  else Numeral.best? wanted (ends.filterMap id)

theorem Bounds.hull_eq (bs : List Bounds) :
    hull bs = ⟨outermost? .lt (bs.map (·.min)), outermost? .gt (bs.map (·.max))⟩ := by
  simp only [hull, outermost?, List.any_map, List.filterMap_map]
  rfl

section Outermost

variable {wanted : Ordering} {es fs : List (Option Text)} {t : Text}

/-- Whether all ends have a value. -/
def AllValued (es : List (Option Text)) : Prop :=
  ∀ e ∈ es, ∃ t, e = some t ∧ Numeral.value? t ≠ none

theorem not_allValued_iff : ¬ AllValued es ↔ ∃ e ∈ es, e.bind Numeral.value? = none := by
  simp only [AllValued, not_forall, exists_prop]
  refine exists_congr fun e => and_congr_right fun _ => ?_
  cases e <;> simp

/-- If all ends have a value, so has the outermost one. -/
theorem outermost?_of_allValued (hw : wanted = .lt ∨ wanted = .gt) (hne : es ≠ [])
    (h : AllValued es) : ∃ t, outermost? wanted es = some t ∧
      Numeral.best? wanted (es.filterMap id) = some t := by
  have hany : ¬ (es.any fun e => (e.bind Numeral.value?).isNone) = true := by
    have hnot := not_exists.1 (mt not_allValued_iff.2 (not_not.2 h))
    simpa [Option.isNone_iff_eq_none] using hnot
  have hsome : Numeral.best? wanted (es.filterMap id) ≠ none := by
    obtain ⟨e, he⟩ := List.exists_mem_of_ne_nil es hne
    obtain ⟨t, rfl, ht⟩ := h e he
    exact fun hn => ht ((Numeral.best?_eq_none_iff hw).1 hn t (List.mem_filterMap.2 ⟨_, he, rfl⟩))
  obtain ⟨t, ht⟩ := Option.ne_none_iff_exists'.1 hsome
  exact ⟨t, by rw [outermost?, if_neg hany, ht], ht⟩

theorem outermost?_of_not_allValued (h : ¬ AllValued es) : outermost? wanted es = none := by
  obtain ⟨e, he, hn⟩ := not_allValued_iff.1 h
  exact if_pos (List.any_eq_true.2 ⟨e, he, by rw [hn]; rfl⟩)

theorem allValued_append : AllValued (es ++ fs) ↔ AllValued es ∧ AllValued fs :=
  List.forall_mem_append

/-- The outermost end of two groups is the outermost of what each group gives. -/
theorem outermost?_append (hw : wanted = .lt ∨ wanted = .gt) (hes : es ≠ []) (hfs : fs ≠ []) :
    outermost? wanted (es ++ fs) =
      outermost? wanted [outermost? wanted es, outermost? wanted fs] := by
  have hnone : ∀ o, ¬ AllValued [none, o] ∧ ¬ AllValued [o, none] := by simp [AllValued]
  by_cases he : AllValued es
  · by_cases hf : AllValued fs
    · obtain ⟨t, ht, hbt⟩ := outermost?_of_allValued hw hes he
      obtain ⟨u, hu, hbu⟩ := outermost?_of_allValued hw hfs hf
      have hpair : AllValued [some t, some u] := by
        obtain ⟨-, m, hm, -⟩ := Numeral.weight_le_of_best? hw hbt
        obtain ⟨-, n, hn, -⟩ := Numeral.weight_le_of_best? hw hbu
        simp [AllValued, ← Numeral.scaled?_eq_none_iff, hm, hn]
      obtain ⟨v, hv, hbv⟩ := outermost?_of_allValued hw (by simp) hpair
      obtain ⟨w, hw', hbw⟩ :=
        outermost?_of_allValued hw (by simp [hes]) (allValued_append.2 ⟨he, hf⟩)
      rw [List.filterMap_append, Numeral.best?_append hw hbt hbu] at hbw
      rw [hw', ht, hu, hv, ← hbw]
      exact hbv
    · have happend : ¬ AllValued (es ++ fs) := fun h => hf (allValued_append.1 h).2
      rw [outermost?_of_not_allValued happend, outermost?_of_not_allValued hf,
        outermost?_of_not_allValued (hnone _).2]
  · rw [outermost?_of_not_allValued fun h => he (allValued_append.1 h).1,
      outermost?_of_not_allValued he, outermost?_of_not_allValued (hnone _).1]

/-- The outermost end lies within a limit exactly if all ends do. -/
theorem outermost?_within_iff (hw : wanted = .lt ∨ wanted = .gt) (hne : es ≠ []) (z : Int) :
    (∃ n ∈ (outermost? wanted es).bind Numeral.scaled?, Numeral.weight wanted n ≤ z) ↔
      ∀ e ∈ es, ∃ n ∈ e.bind Numeral.scaled?, Numeral.weight wanted n ≤ z := by
  by_cases h : AllValued es
  · obtain ⟨t, ht, hb⟩ := outermost?_of_allValued hw hne h
    obtain ⟨hmem, n, hn, hle⟩ := Numeral.weight_le_of_best? hw hb
    simp only [ht, Option.bind_some, hn, Option.mem_def, Option.some.injEq, exists_eq_left']
    constructor
    · intro hz e he
      obtain ⟨u, rfl, hu⟩ := h e he
      obtain ⟨m, hm⟩ := Option.ne_none_iff_exists'.1 (mt Numeral.scaled?_eq_none_iff.1 hu)
      exact ⟨m, hm, (hle u (List.mem_filterMap.2 ⟨_, he, rfl⟩) m hm).trans hz⟩
    · intro hall
      obtain ⟨e, he, rfl⟩ := List.mem_filterMap.1 hmem
      obtain ⟨m, hm, hz⟩ := hall _ he
      rw [Option.bind_some, hn, Option.some.injEq] at hm
      exact hm ▸ hz
  · obtain ⟨e, he, hn⟩ := not_allValued_iff.1 h
    rw [outermost?_of_not_allValued h]
    refine iff_of_false (by simp) fun hall => ?_
    obtain ⟨n, hm, -⟩ := hall e he
    cases e with
    | none => simp at hm
    | some t => simp [Numeral.scaled?_eq_none_iff.2 hn] at hm

end Outermost

/-! ## The hull -/

namespace Interval

variable {i j : Interval} {x : Int}

/-- Whether the ends of one interval lie within those of another, side by side. -/
def Within (i j : Interval) : Prop :=
  (∀ x ∈ j.lower, ∃ y ∈ i.lower, x ≤ y) ∧ ∀ x ∈ j.upper, ∃ y ∈ i.upper, y ≤ x

/-- Whether a number lies between the ends. -/
def Holds (i : Interval) (x : Int) : Prop :=
  (∀ lo ∈ i.lower, lo ≤ x) ∧ ∀ hi ∈ i.upper, x ≤ hi

theorem Within.refl (i : Interval) : i.Within i :=
  ⟨fun x hx => ⟨x, hx, le_rfl⟩, fun x hx => ⟨x, hx, le_rfl⟩⟩

theorem Within.antisymm (hij : i.Within j) (hji : j.Within i) : i = j := by
  obtain ⟨lo, hi⟩ := i
  obtain ⟨lo', hi'⟩ := j
  have hlo : lo = lo' := by
    cases lo <;> cases lo' <;> simp [Within] at hij hji ⊢
    omega
  have hhi : hi = hi' := by
    cases hi <;> cases hi' <;> simp [Within] at hij hji ⊢
    omega
  rw [hlo, hhi]

/-- Where the ends lie within those of another interval, so do all numbers between them. -/
theorem Within.holds (h : i.Within j) (hx : i.Holds x) : j.Holds x := by
  constructor
  · intro lo hlo
    obtain ⟨y, hy, hle⟩ := h.1 lo hlo
    exact hle.trans (hx.1 y hy)
  · intro hi hhi
    obtain ⟨y, hy, hle⟩ := h.2 hi hhi
    exact (hx.2 y hy).trans hle

end Interval

namespace Bounds

variable {a b : Bounds} {as bs cs : List Bounds} {asHull : Bool}

/-- The hull of two groups is the hull of their hulls. -/
theorem hull_append (has : as ≠ []) (hbs : bs ≠ []) :
    hull (as ++ bs) = hull [hull as, hull bs] := by
  simp only [hull_eq, List.map_append, List.map_cons, List.map_nil]
  rw [outermost?_append (.inl rfl) (by simpa using has) (by simpa using hbs),
    outermost?_append (.inr rfl) (by simpa using has) (by simpa using hbs)]

/-- The hull lies within exactly the intervals that contain all others. -/
theorem within_hull_iff (hne : bs ≠ []) {k : Interval} :
    (hull bs).interval.Within k ↔ ∀ b ∈ bs, b.interval.Within k := by
  have hlower : ∀ x, (∃ y ∈ (hull bs).interval.lower, x ≤ y) ↔
      ∀ b ∈ bs, ∃ y ∈ b.interval.lower, x ≤ y := by
    intro x
    have hmins : bs.map (·.min) ≠ [] := by simpa using hne
    have hside := outermost?_within_iff (.inl rfl) hmins (-x)
    simpa [Numeral.weight, hull_eq, interval] using hside
  have hupper : ∀ x, (∃ y ∈ (hull bs).interval.upper, y ≤ x) ↔
      ∀ b ∈ bs, ∃ y ∈ b.interval.upper, y ≤ x := by
    intro x
    have hmaxs : bs.map (·.max) ≠ [] := by simpa using hne
    have hside := outermost?_within_iff (.inr rfl) hmaxs x
    simpa [Numeral.weight, hull_eq, interval] using hside
  simp only [Interval.Within, hlower, hupper]
  constructor
  · exact fun h b hb => ⟨fun x hx => h.1 x hx b hb, fun x hx => h.2 x hx b hb⟩
  · exact fun h => ⟨fun x hx b hb => (h b hb).1 x hx, fun x hx b hb => (h b hb).2 x hx⟩

theorem allValued_map {side : Bounds → Option Text}
    (h : ∀ b ∈ bs, ∀ t ∈ side b, Numeral.value? t ≠ none) :
    AllValued (bs.map side) ↔ ∀ b ∈ bs, side b ≠ none := by
  rw [AllValued, List.forall_mem_map]
  refine forall₂_congr fun b hb => ?_
  constructor
  · rintro ⟨t, ht, -⟩ hn
    simp [hn] at ht
  · intro hn
    obtain ⟨t, ht⟩ := Option.ne_none_iff_exists'.1 hn
    exact ⟨t, ht, h b hb t ht⟩

theorem Finite.value?_ne_none (h : b.Finite) {t : Text} (ht : t ∈ b.min ∨ t ∈ b.max) :
    Numeral.value? t ≠ none := by
  obtain ⟨_, _, _, hv⟩ := h t ht
  simp [hv]

/-- On one side the hull is open exactly if one of the ranges is. -/
theorem outermost?_map_eq_none_iff {wanted : Ordering} {side : Bounds → Option Text}
    (hw : wanted = .lt ∨ wanted = .gt) (hne : bs ≠ [])
    (h : ∀ b ∈ bs, ∀ t ∈ side b, Numeral.value? t ≠ none) :
    outermost? wanted (bs.map side) = none ↔ ∃ b ∈ bs, side b = none := by
  have hall := not_congr (allValued_map h)
  simp only [not_forall, not_not, exists_prop] at hall
  rw [← hall]
  refine ⟨fun hn hv => ?_, outermost?_of_not_allValued⟩
  obtain ⟨t, ht, -⟩ := outermost?_of_allValued hw (by simpa using hne) hv
  simp [hn] at ht

theorem min_hull_eq_none_iff (hne : bs ≠ []) (h : ∀ b ∈ bs, b.Finite) :
    (hull bs).min = none ↔ ∃ b ∈ bs, b.min = none := by
  rw [hull_eq]
  exact outermost?_map_eq_none_iff (.inl rfl) hne fun b hb t ht => (h b hb).value?_ne_none (.inl ht)

theorem max_hull_eq_none_iff (hne : bs ≠ []) (h : ∀ b ∈ bs, b.Finite) :
    (hull bs).max = none ↔ ∃ b ∈ bs, b.max = none := by
  rw [hull_eq]
  exact outermost?_map_eq_none_iff (.inr rfl) hne fun b hb t ht => (h b hb).value?_ne_none (.inr ht)

/-- The hull of ranges in another order has the same values. -/
theorem interval_hull_perm (hne : bs ≠ []) (h : cs.Perm bs) :
    (hull cs).interval = (hull bs).interval := by
  have hcs : cs ≠ [] := fun hn => hne (List.nil_perm.1 (hn ▸ h))
  refine Interval.Within.antisymm ?_ ?_
  · exact (within_hull_iff hcs).2 fun b hb =>
      (within_hull_iff hne).1 (.refl _) b (h.mem_iff.1 hb)
  · exact (within_hull_iff hne).2 fun b hb =>
      (within_hull_iff hcs).1 (.refl _) b (h.mem_iff.2 hb)

/-! ## Merging -/

theorem merge?_true (hne : bs ≠ []) : merge? true bs = some (hull bs) := by
  cases bs with
  | nil => exact absurd rfl hne
  | cons b bs => rfl

/-- Merging two groups is merging what each group gives. -/
theorem merge?_append (has : as ≠ []) (hbs : bs ≠ []) (h : ∀ b ∈ as ++ bs, b.Finite) :
    ∃ a b c, merge? asHull as = some a ∧ merge? asHull bs = some b ∧
      merge? asHull (as ++ bs) = some c ∧ merge? asHull [a, b] = some c := by
  cases asHull with
  | true =>
    refine ⟨_, _, _, merge?_true has, merge?_true hbs, merge?_true (by simp [has]), ?_⟩
    rw [hull_append has hbs]
    rfl
  | false =>
    obtain ⟨a, ha⟩ := Option.ne_none_iff_exists'.1 (mt merge?_eq_none_iff.1 has)
    obtain ⟨b, hb⟩ := Option.ne_none_iff_exists'.1 (mt merge?_eq_none_iff.1 hbs)
    have hne : as ++ bs ≠ [] := List.append_ne_nil_of_left_ne_nil has bs
    obtain ⟨c, hc⟩ := Option.ne_none_iff_exists'.1 (mt merge?_eq_none_iff.1 hne)
    have hwidest : ∀ ds ⊆ as ++ bs, merge? false ds = ds.argmax width := fun ds hds =>
      merge?_widest fun d hd => (h d (hds hd)).span?_ne_nan
    have hpair : [a, b] ⊆ as ++ bs := by
      simp [List.cons_subset, mem_of_merge? ha, mem_of_merge? hb]
    refine ⟨a, b, c, ha, hb, hc, ?_⟩
    rw [hwidest _ (List.subset_append_left as bs)] at ha
    rw [hwidest _ (List.subset_append_right as bs)] at hb
    rw [hwidest _ (List.Subset.refl _), argmax_append ha hb] at hc
    rw [hwidest _ hpair, hc]

/-- Ranges with finite ends may be merged in groups, for the hull and for the widest alike. The
    hull is open where one of them is, it is the least interval that contains the ends of all of
    them, with all numbers between, and another order changes neither its open sides nor its
    values. -/
theorem merge?_groups (has : as ≠ []) (hbs : bs ≠ []) (h : ∀ b ∈ as ++ bs, b.Finite) :
    (∀ asHull, ∃ a b c, merge? asHull as = some a ∧ merge? asHull bs = some b ∧
      merge? asHull (as ++ bs) = some c ∧ merge? asHull [a, b] = some c) ∧
    ∃ a, merge? true as = some a ∧
      (a.min = none ↔ ∃ b ∈ as, b.min = none) ∧ (a.max = none ↔ ∃ b ∈ as, b.max = none) ∧
      (∀ k, a.interval.Within k ↔ ∀ b ∈ as, b.interval.Within k) ∧
      (∀ b ∈ as, ∀ x, b.interval.Holds x → a.interval.Holds x) ∧
      ∀ cs, cs.Perm as → ∃ c, merge? true cs = some c ∧
        (c.min = none ↔ a.min = none) ∧ (c.max = none ↔ a.max = none) ∧
        c.interval = a.interval := by
  have hfinite : ∀ b ∈ as, b.Finite := fun b hb => h b (List.mem_append_left bs hb)
  have hmin := min_hull_eq_none_iff has hfinite
  have hmax := max_hull_eq_none_iff has hfinite
  have hwithin : ∀ b ∈ as, b.interval.Within (hull as).interval := (within_hull_iff has).1 (.refl _)
  refine ⟨fun asHull => merge?_append has hbs h, hull as, merge?_true has, hmin, hmax,
    fun k => within_hull_iff has, fun b hb x => (hwithin b hb).holds, fun cs hperm => ?_⟩
  have hcs : cs ≠ [] := fun hn => has (List.nil_perm.1 (hn ▸ hperm))
  have hfinite' : ∀ b ∈ cs, b.Finite := fun b hb => hfinite b (hperm.mem_iff.1 hb)
  refine ⟨hull cs, merge?_true hcs, ?_, ?_, interval_hull_perm has hperm⟩
  · rw [min_hull_eq_none_iff hcs hfinite', hmin]
    simp only [hperm.mem_iff]
  · rw [max_hull_eq_none_iff hcs hfinite', hmax]
    simp only [hperm.mem_iff]

/-- Ends that are whole numbers are finite. -/
theorem finite_of_whole
    (h : ∀ t, t ∈ b.min ∨ t ∈ b.max → ∃ n : Int, n.natAbs ≤ 2 ^ 53 ∧ t = Text.ofInt n) :
    b.Finite := by
  intro t ht
  obtain ⟨n, hn, rfl⟩ := h t ht
  exact ⟨_, _, _, by rw [Numeral.value?_ofInt hn, Double.ofInt_eq hn]⟩

/-- Two ranges of the same width and one without a lower end. -/
theorem merge?_groups_tied :
    let as : List Bounds := [⟨some "1", some "5"⟩, ⟨some "-2", some "2"⟩]
    let bs : List Bounds := [⟨none, some "3"⟩]
    as ≠ [] ∧ bs ≠ [] ∧ (∀ b ∈ as ++ bs, b.Finite) ∧
    (∀ asHull, ∃ a b c, merge? asHull as = some a ∧ merge? asHull bs = some b ∧
      merge? asHull (as ++ bs) = some c ∧ merge? asHull [a, b] = some c) ∧
    ∃ a, merge? true as = some a ∧
      (a.min = none ↔ ∃ b ∈ as, b.min = none) ∧ (a.max = none ↔ ∃ b ∈ as, b.max = none) ∧
      (∀ k, a.interval.Within k ↔ ∀ b ∈ as, b.interval.Within k) ∧
      (∀ b ∈ as, ∀ x, b.interval.Holds x → a.interval.Holds x) ∧
      ∀ cs, cs.Perm as → ∃ c, merge? true cs = some c ∧
        (c.min = none ↔ a.min = none) ∧ (c.max = none ↔ a.max = none) ∧
        c.interval = a.interval := by
  intro as bs
  have hfinite : ∀ b ∈ as ++ bs, b.Finite := by
    simp only [as, bs, List.cons_append, List.nil_append, List.forall_mem_cons]
    refine ⟨finite_of_whole ?_, finite_of_whole ?_, finite_of_whole ?_, by simp⟩
    · rintro t (ht | ht) <;> obtain rfl := Option.some.inj ht
      exacts [⟨1, by decide, by decide⟩, ⟨5, by decide, by decide⟩]
    · rintro t (ht | ht) <;> obtain rfl := Option.some.inj ht
      exacts [⟨-2, by decide, by decide⟩, ⟨2, by decide, by decide⟩]
    · rintro t (ht | ht)
      · simp at ht
      · obtain rfl := Option.some.inj ht
        exact ⟨3, by decide, by decide⟩
  exact ⟨by simp [as], by simp [bs], hfinite, merge?_groups (by simp [as]) (by simp [bs]) hfinite⟩

end Bounds

end CrossEdition
