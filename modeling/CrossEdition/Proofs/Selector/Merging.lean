import CrossEdition.Selector.Merge
import CrossEdition.Proofs.Selector.Printing

/-!
# Repeated parameters

What merging leaves of each name, and that merging once is enough.

Results:
* `valuesOf_mergeDuplicates`: the values of a name behind merging are its merged value,
  or else the values that it had.
* `mem_mergeDuplicates`: a parameter behind merging stood in front of it, or it is a
  range merged from ranges.
* `mergedValue?_mergeDuplicates`: nothing is left to merge.
* `filter_mergeDuplicates`: merging leaves alone what does not fit the rule of its name.
* `mergedValue?_reread`: reading the values again makes nothing mergeable.
-/

namespace CrossEdition

/-! ## The best numeral -/

namespace Numeral

/-- The best of several numerals is one of them. -/
theorem best?_mem {wanted : Ordering} {ts : List Text} {t : Text} (h : best? wanted ts = some t) :
    t ∈ ts := by
  have hmem : ∀ u ∈ valued ts, u.1 ∈ ts := by
    intro u hu
    obtain ⟨t, ht, hv⟩ := List.mem_filterMap.1 hu
    obtain ⟨x, -, rfl⟩ := Option.map_eq_some_iff.1 hv
    exact ht
  unfold best? at h
  split at h
  · simp at h
  · next first rest hv =>
    simp only [Option.some.injEq] at h
    have hfold : ∀ (rest : List (Text × Double)) (best : Text × Double),
        rest.foldl (fun best t => if t.2.compare? best.2 = some wanted then t else best) best
          ∈ best :: rest := by
      intro rest
      induction rest with
      | nil => simp
      | cons u rest ih =>
        intro best
        rw [List.foldl_cons]
        split_ifs
        · exact List.mem_cons_of_mem _ (ih u)
        · rcases List.mem_cons.1 (ih best) with hb | hb
          · rw [hb]
            simp
          · exact List.mem_cons_of_mem _ (List.mem_cons_of_mem _ hb)
    rw [← h]
    exact hmem _ (hv ▸ hfold rest first)

theorem best?_isSome {wanted : Ordering} {ts : List Text} (hne : ts ≠ [])
    (h : ∀ t ∈ ts, isNumeral t = true) : (best? wanted ts).isSome = true := by
  obtain ⟨t, ts, rfl⟩ := List.exists_cons_of_ne_nil hne
  have ht := h t (by simp)
  obtain ⟨x, hx⟩ := Option.isSome_iff_exists.1
    (value?_isSome.trans ((trim_of_isNumeral ht).symm ▸ ht))
  simp [best?, valued, hx]

/-- At most one numeral is the best of itself. -/
theorem best?_toList {wanted : Ordering} {o : Option Text} (h : ∀ t ∈ o, isNumeral t = true) :
    best? wanted o.toList = o := by
  cases o with
  | none => rfl
  | some t =>
    have ht := h t rfl
    obtain ⟨x, hx⟩ := Option.isSome_iff_exists.1
      (value?_isSome.trans ((trim_of_isNumeral ht).symm ▸ ht))
    simp [best?, valued, hx]

end Numeral

namespace Bounds

/-- The widest of several ranges is one of them. -/
theorem mem_of_merge? {bs : List Bounds} {b : Bounds} (h : merge? false bs = some b) : b ∈ bs := by
  cases bs with
  | nil => simp [merge?] at h
  | cons first rest =>
    simp only [merge?, Bool.false_eq_true, if_false, Option.some.injEq] at h
    subst h
    induction rest generalizing first with
    | nil => simp
    | cons c rest ih =>
      rw [List.foldl_cons]
      rcases List.mem_cons.1 (ih (if c.wider first then c else first)) with hm | hm
      · rw [hm]
        split_ifs <;> simp
      · exact List.mem_cons_of_mem _ (List.mem_cons_of_mem _ hm)

/-- The range that several become has ends of theirs. -/
theorem numeric_of_merge? {asHull : Bool} {bs : List Bounds} {b : Bounds}
    (hb : ∀ b ∈ bs, b.Numeric) (h : merge? asHull bs = some b) : b.Numeric := by
  cases bs with
  | nil => simp [merge?] at h
  | cons first rest =>
    cases asHull with
    | true =>
      simp only [merge?, if_true, Option.some.injEq] at h
      subst h
      rintro t (ht | ht)
      · simp only [hull] at ht
        split_ifs at ht
        · simp at ht
        · obtain ⟨c, hc, hm⟩ := List.mem_filterMap.1 (Numeral.best?_mem ht)
          exact hb c hc t (.inl hm)
      · simp only [hull] at ht
        split_ifs at ht
        · simp at ht
        · obtain ⟨c, hc, hm⟩ := List.mem_filterMap.1 (Numeral.best?_mem ht)
          exact hb c hc t (.inr hm)
    | false => exact hb b (mem_of_merge? h)

end Bounds

namespace Parameter

variable {asHull : Bool} {ps : List Parameter} {p : Parameter} {name : Text}

/-! ## Values by name -/

theorem mem_valuesOf {value : Value} : value ∈ valuesOf name ps ↔ ⟨name, value⟩ ∈ ps := by
  simp only [valuesOf, List.mem_filterMap, Option.ite_none_right_eq_some, Option.some.injEq]
  constructor
  · rintro ⟨p, hp, rfl, rfl⟩
    exact hp
  · intro h
    exact ⟨_, h, rfl, rfl⟩

theorem valuesOf_cons (p : Parameter) (ps : List Parameter) :
    valuesOf name (p :: ps) =
      if p.name = name then p.value :: valuesOf name ps else valuesOf name ps := by
  simp only [valuesOf, List.filterMap_cons]
  split_ifs <;> rfl

theorem valuesOf_append (ps qs : List Parameter) :
    valuesOf name (ps ++ qs) = valuesOf name ps ++ valuesOf name qs :=
  List.filterMap_append

theorem valuesOf_map_mk (name : Text) (values : List Value) :
    valuesOf name (values.map (mk name)) = values := by
  rw [valuesOf, List.filterMap_map]
  exact (List.filterMap_congr fun v _ => if_pos rfl).trans List.filterMap_some

theorem valuesOf_eq_nil_iff : valuesOf name ps = [] ↔ ∀ p ∈ ps, p.name ≠ name := by
  simp [valuesOf, List.filterMap_eq_nil_iff]

theorem valuesOf_reread (name : Text) (ps : List Parameter) :
    valuesOf name (ps.map reread) = (valuesOf name ps).map Value.reread := by
  induction ps with
  | nil => rfl
  | cons p ps ih =>
    rw [List.map_cons, valuesOf_cons, valuesOf_cons, ih, name_reread]
    split_ifs <;> rfl

/-! ## Merging -/

/-- The values of a name from some place on. If the name was merged in front of it, none
    are left. -/
theorem valuesOf_go (seen : List Text) (rest : List Parameter) :
    valuesOf name (mergeDuplicates.go asHull ps seen rest) =
      if name ∈ seen then [] else
      match mergedValue? asHull ps name with
      | none => valuesOf name rest
      | some value => if valuesOf name rest = [] then [] else [value] := by
  induction rest generalizing seen with
  | nil =>
    simp only [mergeDuplicates.go]
    cases mergedValue? asHull ps name <;> simp [valuesOf]
  | cons p rest ih =>
    rw [mergeDuplicates.go, valuesOf_cons]
    by_cases hp : p.name = name
    · subst hp
      by_cases hs : p.name ∈ seen
      · simp [hs, ih]
      · cases hm : mergedValue? asHull ps p.name with
        | none => simp [hs, hm, valuesOf_cons, ih]
        | some value => simp [hs, valuesOf_cons, ih]
    · simp only [hp, if_false]
      have hn : name ≠ p.name := Ne.symm hp
      by_cases hs : p.name ∈ seen
      · simp only [hs, if_true, ih]
      · cases hm : mergedValue? asHull ps p.name with
        | none => simp [hs, valuesOf_cons, ih, hp]
        | some value => simp [hs, valuesOf_cons, ih, hp, hn]

/-- The values of a name behind merging. -/
theorem valuesOf_mergeDuplicates (asHull : Bool) (ps : List Parameter) (name : Text) :
    valuesOf name (mergeDuplicates asHull ps) =
      match mergedValue? asHull ps name with
      | none => valuesOf name ps
      | some value => [value] := by
  rw [mergeDuplicates, valuesOf_go]
  cases h : mergedValue? asHull ps name with
  | none => simp
  | some value =>
    have hne : valuesOf name ps ≠ [] := by
      rintro hn
      simp [mergedValue?, hn] at h
    simp [hne]

/-- Nothing is left to merge. -/
theorem mergedValue?_mergeDuplicates (asHull : Bool) (ps : List Parameter) (name : Text) :
    mergedValue? asHull (mergeDuplicates asHull ps) name = none := by
  have hv := valuesOf_mergeDuplicates asHull ps name
  cases h : mergedValue? asHull ps name with
  | none =>
    rw [h] at hv
    rw [← h, mergedValue?, mergedValue?, hv]
  | some value =>
    rw [h] at hv
    simp [mergedValue?, hv]

/-- Parameters of which none merges are left as they are. -/
theorem mergeDuplicates_eq_self (h : ∀ p ∈ ps, mergedValue? asHull ps p.name = none) :
    mergeDuplicates asHull ps = ps := by
  have hgo : ∀ rest ⊆ ps, mergeDuplicates.go asHull ps [] rest = rest := by
    intro rest hs
    induction rest with
    | nil => rfl
    | cons p rest ih =>
      rw [mergeDuplicates.go, if_neg (List.not_mem_nil), h p (hs (by simp))]
      simp only
      rw [ih fun q hq => hs (List.mem_cons_of_mem p hq)]
  exact hgo ps (List.Subset.refl ps)

theorem mergedValue?_of_length_le (h : (valuesOf name ps).length ≤ 1) :
    mergedValue? asHull ps name = none := by
  rw [mergedValue?, if_neg (by omega)]

theorem length_valuesOf_of_nodup (h : (ps.map (·.name)).Nodup) :
    (valuesOf name ps).length ≤ 1 := by
  induction ps with
  | nil => simp [valuesOf]
  | cons p ps ih =>
    obtain ⟨hp, hps⟩ := List.nodup_cons.1 h
    rw [valuesOf_cons]
    split_ifs with hn
    · have he : valuesOf name ps = [] := by
        rw [valuesOf_eq_nil_iff]
        rintro q hq rfl
        exact hp (List.mem_map.2 ⟨q, hq, hn.symm⟩)
      simp [he]
    · exact ih hps

/-- What merging several values gives is one of them, or a range of their ends. -/
theorem mem_of_mergeValues? {values : List Value} {rule : MergeRule} {value : Value}
    (hf : ∀ v ∈ values, v.Faithful) (h : mergeValues? asHull values rule = some value) :
    value ∈ values ∨ (rule = .range ∧ (∀ v ∈ values, v.bounds?.isSome = true) ∧
      ∃ b, value = .range b ∧ b.Numeric) := by
  have hbest : ∀ wanted, (Numeral.best? wanted (values.filterMap Value.numeral?)).map .scalar
      = some value → value ∈ values := by
    intro wanted hw
    obtain ⟨t, ht, rfl⟩ := Option.map_eq_some_iff.1 hw
    obtain ⟨v, hv, hn⟩ := List.mem_filterMap.1 (Numeral.best?_mem ht)
    cases v with
    | scalar u =>
      rw [← Option.some.inj hn]
      exact hv
    | _ => simp [Value.numeral?] at hn
  cases rule with
  | max =>
    simp only [mergeValues?] at h
    split_ifs at h
    exact .inl (hbest _ h)
  | min =>
    simp only [mergeValues?] at h
    split_ifs at h
    exact .inl (hbest _ h)
  | keepAll => simp [mergeValues?] at h
  | range =>
    simp only [mergeValues?] at h
    split_ifs at h with hall
    obtain ⟨b, hb, rfl⟩ := Option.map_eq_some_iff.1 h
    refine .inr ⟨rfl, List.all_eq_true.1 hall, b, rfl, Bounds.numeric_of_merge? ?_ hb⟩
    intro c hc
    obtain ⟨v, hv, hn⟩ := List.mem_filterMap.1 hc
    have hvf := hf v hv
    cases v with
    | scalar t =>
      rw [← Option.some.inj hn]
      rintro u (hu | hu) <;> exact Option.some.inj hu ▸ hvf.isNumeral
    | range c' =>
      rw [← Option.some.inj hn]
      exact hvf
    | _ => simp [Value.bounds?] at hn

/-- A parameter behind merging stood in front of it, or it has the merged value of its
    name. -/
theorem mem_or_merged (h : p ∈ mergeDuplicates asHull ps) :
    p ∈ ps ∨ mergedValue? asHull ps p.name = some p.value := by
  have hv := mem_valuesOf.2 (show ⟨p.name, p.value⟩ ∈ mergeDuplicates asHull ps from h)
  rw [valuesOf_mergeDuplicates] at hv
  cases hm : mergedValue? asHull ps p.name with
  | none =>
    rw [hm] at hv
    exact .inl (mem_valuesOf.1 hv)
  | some value =>
    rw [hm] at hv
    exact .inr (congrArg some (List.mem_singleton.1 hv).symm)

theorem mergedValue?_eq_some {value : Value} (h : mergedValue? asHull ps name = some value) :
    valuesOf name ps ≠ [] ∧ mergeValues? asHull (valuesOf name ps) (mergeRule name) = some value := by
  simp only [mergedValue?] at h
  split_ifs at h with hlen
  exact ⟨List.ne_nil_of_length_pos (by omega), h⟩

/-- Merging makes no new names. -/
theorem exists_name_of_mem_mergeDuplicates (h : p ∈ mergeDuplicates asHull ps) :
    ∃ q ∈ ps, q.name = p.name := by
  rcases mem_or_merged h with hp | hm
  · exact ⟨p, hp, rfl⟩
  · obtain ⟨v, hv⟩ := List.exists_mem_of_ne_nil _ (mergedValue?_eq_some hm).1
    exact ⟨⟨p.name, v⟩, mem_valuesOf.1 hv, rfl⟩

theorem name_notMem_mergeDuplicates {names : List Text} (h : ∀ p ∈ ps, p.name ∉ names) :
    ∀ p ∈ mergeDuplicates asHull ps, p.name ∉ names := by
  intro p hp
  obtain ⟨q, hq, hn⟩ := exists_name_of_mem_mergeDuplicates hp
  exact hn ▸ h q hq

/-- A parameter behind merging stood in front of it, or it is a range that several
    numeric ones became. -/
theorem mem_mergeDuplicates (hf : ∀ p ∈ ps, p.value.Faithful) (h : p ∈ mergeDuplicates asHull ps) :
    p ∈ ps ∨ (mergeRule p.name = .range ∧
      (∃ q ∈ ps, q.name = p.name ∧ q.value.bounds?.isSome = true) ∧
      ∃ b, p.value = .range b ∧ b.Numeric) := by
  rcases mem_or_merged h with hp | hm
  · exact .inl hp
  obtain ⟨hne, hm⟩ := mergedValue?_eq_some hm
  have hvf : ∀ v ∈ valuesOf p.name ps, v.Faithful := fun v hv => hf _ (mem_valuesOf.1 hv)
  rcases mem_of_mergeValues? hvf hm with hmem | ⟨hr, hall, hb⟩
  · exact .inl (mem_valuesOf.1 hmem)
  · obtain ⟨v, hv⟩ := List.exists_mem_of_ne_nil _ hne
    exact .inr ⟨hr, ⟨⟨p.name, v⟩, mem_valuesOf.1 hv, rfl, hall v hv⟩, hb⟩

theorem faithful_mergeDuplicates (hf : ∀ p ∈ ps, p.value.Faithful) :
    ∀ p ∈ mergeDuplicates asHull ps, p.value.Faithful := by
  intro p hp
  rcases mem_mergeDuplicates hf hp with hp | ⟨-, -, b, hv, hb⟩
  · exact hf p hp
  · rw [hv]
    exact hb

/-- Merging keeps parameters well formed. -/
theorem wellFormed_mergeDuplicates {q : Char → Bool} (hq : Separates q)
    (h : ∀ p ∈ ps, p.WellFormed q) : ∀ p ∈ mergeDuplicates asHull ps, p.WellFormed q := by
  intro p hp
  rcases mem_mergeDuplicates (fun p hp => (h p hp).faithful) hp with hp | ⟨-, hrange, b, hv, hb⟩
  · exact h p hp
  · obtain ⟨p₀, hp₀, hname, hnum⟩ := hrange
    have hw := h p₀ hp₀
    have hc : Text.Closed q p.name := hname ▸ hw.closed_name hnum
    obtain ⟨name, value⟩ := p
    simp only at hname hv hc
    subst hname hv
    exact hw.setValue (hc.append (hq.closed (List.forall_mem_cons.2 ⟨by decide, fun c hm =>
      isInert_of_isNumeralChar (Bounds.isNumeralChar_text hb c hm)⟩))) hb

/-! ## Merging values that were read again -/

end Parameter

/-- Whether a value takes part in merging under a rule. -/
def MergeRule.fits : MergeRule → Value → Bool
  | max, v | min, v => v.numeral?.isSome
  | range, v => v.bounds?.isSome
  | keepAll, _ => false

/-- Whether the value of a parameter is no range with equal ends, unless it may be one. -/
def Parameter.PointFree (p : Parameter) : Prop :=
  mergeRule p.name = .range ∨ p.value.isPoint = false

theorem MergeRule.fits_reread (rule : MergeRule) {v : Value} (hf : v.Faithful)
    (hp : rule = .range ∨ v.isPoint = false) (h : rule.fits v.reread = true) :
    rule.fits v = true := by
  cases v with
  | range b =>
    rcases hp with rfl | hp
    · rfl
    · -- a range that is no point is not read as a number
      have hn : (Value.range b).reread.numeral? = none := by
        cases hb : b.hasBound with
        | true => rw [hf.reread_range hp hb]; rfl
        | false => rw [Value.reread_unbounded hb]; rfl
      cases rule <;> simp_all [fits, Value.bounds?]
  | scalar | compound | literal => rwa [hf.reread_eq (by simp)] at h

namespace Parameter

variable {asHull : Bool} {ps : List Parameter} {name : Text}

theorem best?_numerals_isSome {values : List Value} {wanted : Ordering} (hne : values ≠ [])
    (hf : ∀ v ∈ values, v.Faithful) (hall : ∀ v ∈ values, v.numeral?.isSome = true) :
    (Numeral.best? wanted (values.filterMap Value.numeral?)).isSome = true := by
  refine Numeral.best?_isSome ?_ ?_
  · obtain ⟨v, hv⟩ := List.exists_mem_of_ne_nil values hne
    obtain ⟨t, ht⟩ := Option.isSome_iff_exists.1 (hall v hv)
    exact List.ne_nil_of_mem (List.mem_filterMap.2 ⟨v, hv, ht⟩)
  · intro t ht
    obtain ⟨v, hv, hn⟩ := List.mem_filterMap.1 ht
    have hvf := hf v hv
    cases v with
    | scalar u =>
      rw [← Option.some.inj hn]
      exact hvf.isNumeral
    | _ => simp [Value.numeral?] at hn

/-- Several values merge exactly if all of them fit the rule. -/
theorem mergeValues?_eq_none_iff {values : List Value} {rule : MergeRule} (hne : values ≠ [])
    (hf : ∀ v ∈ values, v.Faithful) :
    mergeValues? asHull values rule = none ↔ ∃ v ∈ values, rule.fits v = false := by
  have hiff : (∃ v ∈ values, rule.fits v = false) ↔ ¬ values.all rule.fits = true := by
    simp
  have hbest : ∀ wanted, values.all (·.numeral?.isSome) = true →
      Numeral.best? wanted (values.filterMap Value.numeral?) ≠ none := fun wanted hall =>
    Option.isSome_iff_ne_none.1 (best?_numerals_isSome hne hf (List.all_eq_true.1 hall))
  have hite : ∀ {all : Bool} {x : Option Value}, (all = true → x ≠ none) →
      ((if all = true then x else none) = none ↔ ¬ all = true) := by
    intro all x hx
    cases all with
    | false => simp
    | true => simpa using hx rfl
  rw [hiff]
  cases rule with
  | max => exact hite fun hall => by simpa [Numeral.greatest?] using hbest .gt hall
  | min => exact hite fun hall => by simpa [Numeral.least?] using hbest .lt hall
  | range =>
    apply hite
    intro hall
    obtain ⟨v, hv⟩ := List.exists_mem_of_ne_nil values hne
    obtain ⟨b, hb⟩ := Option.isSome_iff_exists.1 (List.all_eq_true.1 hall v hv)
    rw [ne_eq, Option.map_eq_none_iff, Bounds.merge?_eq_none_iff]
    exact List.ne_nil_of_mem (List.mem_filterMap.2 ⟨v, hv, hb⟩)
  | keepAll =>
    obtain ⟨v, hv⟩ := List.exists_mem_of_ne_nil values hne
    simp only [mergeValues?, true_iff]
    rw [List.all_eq_true]
    exact fun hn => Bool.false_ne_true (hn v hv)

/-- Values that merge fit the rule, and so does what they become. -/
theorem fits_of_mergedValue? {value : Value} (h : mergedValue? asHull ps name = some value) :
    (∀ v ∈ valuesOf name ps, (mergeRule name).fits v = true) ∧
      (mergeRule name).fits value = true := by
  obtain ⟨-, hm⟩ := mergedValue?_eq_some h
  cases hr : mergeRule name <;> rw [hr] at hm <;> simp only [mergeValues?] at hm
  case keepAll => simp at hm
  all_goals
    split_ifs at hm with hall
    obtain ⟨t, -, rfl⟩ := Option.map_eq_some_iff.1 hm
    exact ⟨List.all_eq_true.1 hall, rfl⟩

/-- Merging does not matter to a choice of parameters that do not fit the rules of their
    names. -/
theorem filter_mergeDuplicates {keep : Parameter → Bool}
    (h : ∀ p : Parameter, keep p = true → (mergeRule p.name).fits p.value = false) :
    (mergeDuplicates asHull ps).filter keep = ps.filter keep := by
  have hfit : ∀ p : Parameter, (mergeRule p.name).fits p.value = true → ¬keep p = true := by
    intro p hp hk
    rw [h p hk] at hp
    exact Bool.false_ne_true hp
  -- what was merged in front of some place is not chosen behind it
  have hgo : ∀ rest ⊆ ps, ∀ seen : List Text,
      (∀ name ∈ seen, (mergedValue? asHull ps name).isSome = true) →
      (mergeDuplicates.go asHull ps seen rest).filter keep = rest.filter keep := by
    intro rest
    induction rest with
    | nil => exact fun _ _ _ => rfl
    | cons p rest ih =>
      intro hsub seen hseen
      have hrest := ih fun q hq => hsub (List.mem_cons_of_mem p hq)
      have hp : ∀ value, mergedValue? asHull ps p.name = some value → ¬keep p = true :=
        fun value hm => hfit p ((fits_of_mergedValue? hm).1 _ (mem_valuesOf.2 (hsub (by simp))))
      rw [mergeDuplicates.go]
      by_cases hs : p.name ∈ seen
      · obtain ⟨value, hm⟩ := Option.isSome_iff_exists.1 (hseen p.name hs)
        rw [if_pos hs, hrest seen hseen, List.filter_cons_of_neg (hp value hm)]
      · rw [if_neg hs]
        cases hm : mergedValue? asHull ps p.name with
        | none => simp only [List.filter_cons, hrest seen hseen]
        | some value =>
          have hvalue : ¬keep ⟨p.name, value⟩ = true := hfit _ (fits_of_mergedValue? hm).2
          simp only
          rw [List.filter_cons_of_neg hvalue, List.filter_cons_of_neg (hp value hm)]
          exact hrest _ (List.forall_mem_cons.2 ⟨by rw [hm]; rfl, hseen⟩)
  exact hgo ps (List.Subset.refl ps) [] (by simp)

theorem pointFree_mergeDuplicates {ps : List Parameter} (hf : ∀ p ∈ ps, p.value.Faithful)
    (h : ∀ p ∈ ps, p.PointFree) : ∀ p ∈ mergeDuplicates asHull ps, p.PointFree := by
  intro p hp
  rcases mem_mergeDuplicates hf hp with hp | ⟨hr, -⟩
  · exact h p hp
  · exact .inl hr

/-- Reading the values again makes nothing mergeable. -/
theorem mergedValue?_reread (hf : ∀ p ∈ ps, p.value.Faithful)
    (hp : ∀ p ∈ ps, p.PointFree) (h : mergedValue? asHull ps name = none) :
    mergedValue? asHull (ps.map reread) name = none := by
  have hv : ∀ v ∈ valuesOf name ps, v.Faithful := fun v hv => hf _ (mem_valuesOf.1 hv)
  simp only [mergedValue?, valuesOf_reread, List.length_map] at h ⊢
  split_ifs at h ⊢ with hlen
  · have hne : valuesOf name ps ≠ [] := List.ne_nil_of_length_pos (by omega)
    obtain ⟨v, hm, hfit⟩ := (mergeValues?_eq_none_iff hne hv).1 h
    refine (mergeValues?_eq_none_iff (by simpa using hne) ?_).2 ⟨v.reread, ?_, ?_⟩
    · intro w hw
      obtain ⟨w, -, rfl⟩ := List.mem_map.1 hw
      exact Value.faithful_reread w
    · exact List.mem_map_of_mem hm
    · by_contra hn
      rw [Bool.not_eq_false] at hn
      rw [MergeRule.fits_reread _ (hv v hm) (hp _ (mem_valuesOf.1 hm)) hn] at hfit
      simp at hfit
  · rfl

end Parameter

end CrossEdition
