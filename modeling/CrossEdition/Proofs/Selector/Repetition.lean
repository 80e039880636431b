import CrossEdition.Proofs.Selector.Merging

/-!
# Which repetitions collapse

Of the parameters with one name either all stay as they are or one is left, in the place of
the first. The second happens if the rule of the name merges, the name is there more than once,
and no value resists the rule. One value that does resist keeps all others of its name, and
those of no other name.

Results:
* `isFirstBest_of_best?`: the best of several numerals is the first that no other beats.
* `becomes_of_mergedValue?`: what the values of a name become.
* `mergeDuplicates_eq_staying`: which parameters stay, by their places.
* `mergeDuplicates_read`: all of this, for the parameters of a selector that was read.
-/

namespace CrossEdition

/-! ## The first best numeral -/

namespace Numeral

variable {wanted : Ordering} {ts : List Text} {a b c t v : Text}

/-- Whether a numeral of a list beats all in front of it, and beats or equals all behind it,
    where one beats another if it compares to it as `wanted`. -/
def IsFirstBest (wanted : Ordering) (ts : List Text) (t : Text) : Prop :=
  ∃ before after, ts = before ++ t :: after ∧ (∀ u ∈ before, compare? t u = some wanted) ∧
    ∀ u ∈ after, compare? t u = some wanted ∨ compare? t u = some .eq

theorem beats_trans (hw : wanted = .lt ∨ wanted = .gt) (hab : compare? a b = some wanted)
    (hbc : compare? b c = some wanted ∨ compare? b c = some .eq) :
    compare? a c = some wanted := by
  rw [compare?_eq] at hab hbc ⊢
  cases ha : scaled? a with
  | none => simp [ha] at hab
  | some x =>
    cases hb : scaled? b with
    | none => simp [ha, hb] at hab
    | some y =>
      cases hc : scaled? c with
      | none => simp [hb, hc] at hbc
      | some z =>
        simp only [ha, hb, hc, Option.bind_some, Option.map_some, Option.some.injEq] at hab hbc ⊢
        rcases hw with rfl | rfl
        · rw [compare_lt_iff_lt] at hab hbc ⊢
          rw [compare_eq_iff_eq] at hbc
          omega
        · rw [compare_gt_iff_gt] at hab hbc ⊢
          rw [compare_eq_iff_eq] at hbc
          omega

theorem beats_of_not_beaten (hw : wanted = .lt ∨ wanted = .gt) (ht : isNumeral t = true)
    (hv : isNumeral v = true) (h : compare? v t ≠ some wanted) :
    compare? t v = some wanted ∨ compare? t v = some .eq := by
  obtain ⟨x, hx⟩ := exists_scaled ((trim_of_isNumeral ht).symm ▸ ht)
  obtain ⟨y, hy⟩ := exists_scaled ((trim_of_isNumeral hv).symm ▸ hv)
  simp only [compare?_eq, hx, hy, Option.bind_some, Option.map_some, ne_eq, Option.some.injEq] at h ⊢
  rcases hw with rfl | rfl
  · rw [compare_lt_iff_lt] at h ⊢
    rw [compare_eq_iff_eq]
    omega
  · rw [compare_gt_iff_gt] at h ⊢
    rw [compare_eq_iff_eq]
    omega

/-- One more numeral is the best exactly if it beats the best of the others. -/
theorem IsFirstBest.concat (hw : wanted = .lt ∨ wanted = .gt) (hts : ∀ u ∈ ts, isNumeral u = true)
    (hv : isNumeral v = true) (h : IsFirstBest wanted ts t) :
    IsFirstBest wanted (ts ++ [v]) (if compare? v t = some wanted then v else t) := by
  obtain ⟨before, after, rfl, hbefore, hafter⟩ := h
  split_ifs with hbeats
  · refine ⟨before ++ t :: after, [], rfl, fun u hu => ?_, by simp⟩
    rcases List.mem_append.1 hu with hu | hu
    · exact beats_trans hw hbeats (.inl (hbefore u hu))
    · rcases List.mem_cons.1 hu with rfl | hu
      · exact hbeats
      · exact beats_trans hw hbeats (hafter u hu)
  · refine ⟨before, after ++ [v], by simp, hbefore, fun u hu => ?_⟩
    rcases List.mem_append.1 hu with hu | hu
    · exact hafter u hu
    · rw [List.mem_singleton.1 hu]
      exact beats_of_not_beaten hw (hts t (by simp)) hv hbeats

/-- The invariant of the search: what was found so far is the best of what was looked at. -/
theorem isFirstBest_foldl (hw : wanted = .lt ∨ wanted = .gt) (front : List Text)
    {rest : List Text} {best : Text} {x : Double} (hall : ∀ u ∈ front ++ rest, isNumeral u = true)
    (hx : value? best = some x) (h : IsFirstBest wanted front best) :
    IsFirstBest wanted (front ++ rest) ((valued rest).foldl
      (fun best t => if t.2.compare? best.2 = some wanted then t else best) (best, x)).1 := by
  induction rest generalizing front best x with
  | nil => simpa [valued] using h
  | cons v rest ih =>
    have hv : isNumeral v = true := hall v (by simp)
    obtain ⟨y, hy⟩ := Option.isSome_iff_exists.1
      (value?_isSome.trans ((trim_of_isNumeral hv).symm ▸ hv))
    have hcompare : compare? v best = y.compare? x := by simp [compare?, hx, hy]
    have hnext := h.concat hw (fun u hu => hall u (List.mem_append_left _ hu)) hv
    have hvalued : valued (v :: rest) = (v, y) :: valued rest := by simp [valued, hy]
    rw [hvalued, List.foldl_cons, List.append_cons]
    rw [List.append_cons] at hall
    rw [hcompare] at hnext
    split_ifs at hnext ⊢
    · exact ih (front ++ [v]) hall hy hnext
    · exact ih (front ++ [v]) hall hx hnext

/-- The best of several numerals is the first that no other beats. -/
theorem isFirstBest_of_best? (hw : wanted = .lt ∨ wanted = .gt)
    (hts : ∀ u ∈ ts, isNumeral u = true) (h : best? wanted ts = some t) :
    IsFirstBest wanted ts t := by
  cases ts with
  | nil => simp [best?, valued] at h
  | cons first rest =>
    have hfirst : isNumeral first = true := hts first (by simp)
    obtain ⟨x, hx⟩ := Option.isSome_iff_exists.1
      (value?_isSome.trans ((trim_of_isNumeral hfirst).symm ▸ hfirst))
    have hvalued : valued (first :: rest) = (first, x) :: valued rest := by simp [valued, hx]
    simp only [best?, hvalued, Option.some.injEq] at h
    rw [← h]
    exact isFirstBest_foldl hw [first] hts hx ⟨[], [], rfl, by simp, by simp⟩

end Numeral

/-! ## What the values of a name become -/

/-- What several values become under a rule. -/
inductive MergeRule.Becomes (asHull : Bool) : MergeRule → List Value → Value → Prop
  /-- The first spelling of the greatest number. -/
  | greatest {vs : List Value} {ts : List Text} {t : Text}
      (hts : vs.map Value.numeral? = ts.map some) (h : Numeral.IsFirstBest .gt ts t) :
      Becomes asHull .max vs (.scalar t)
  /-- The first spelling of the least number. -/
  | least {vs : List Value} {ts : List Text} {t : Text}
      (hts : vs.map Value.numeral? = ts.map some) (h : Numeral.IsFirstBest .lt ts t) :
      Becomes asHull .min vs (.scalar t)
  /-- The merged range, where a number counts as the range that holds it only. -/
  | merged {vs : List Value} {bs : List Bounds} {b : Bounds}
      (hbs : vs.map Value.bounds? = bs.map some) (h : Bounds.merge? asHull bs = some b) :
      Becomes asHull .range vs (.range b)

namespace Parameter

variable {asHull : Bool} {ps : List Parameter} {name : Text}

/-- Whether the parameters with a name become one: its rule merges, it is there more than once,
    and all its values fit the rule. -/
def Collapses (ps : List Parameter) (name : Text) : Prop :=
  mergeRule name ≠ .keepAll ∧ 1 < (valuesOf name ps).length ∧
    ∀ v ∈ valuesOf name ps, (mergeRule name).fits v = true

instance (ps : List Parameter) (name : Text) : Decidable (Collapses ps name) :=
  inferInstanceAs (Decidable (_ ∧ _ ∧ _))

/-- There is a merged value exactly for the names that collapse. -/
theorem mergedValue?_isSome_iff (hf : ∀ p ∈ ps, p.value.Faithful) :
    (mergedValue? asHull ps name).isSome = true ↔ Collapses ps name := by
  have hvalues : ∀ v ∈ valuesOf name ps, v.Faithful := fun v hv => hf _ (mem_valuesOf.1 hv)
  simp only [Collapses, mergedValue?]
  split_ifs with hlen
  · have hne : valuesOf name ps ≠ [] := List.ne_nil_of_length_pos (by omega)
    have hkeep : mergeRule name = .keepAll → ¬∀ v ∈ valuesOf name ps, (mergeRule name).fits v = true := by
      intro hk hall
      obtain ⟨v, hv⟩ := List.exists_mem_of_ne_nil _ hne
      have hfits := hall v hv
      rw [hk] at hfits
      exact Bool.false_ne_true hfits
    rw [Option.isSome_iff_ne_none, ne_eq, mergeValues?_eq_none_iff hne hvalues]
    constructor
    · intro hn
      have hall : ∀ v ∈ valuesOf name ps, (mergeRule name).fits v = true := fun v hv => by
        by_contra hv'
        exact hn ⟨v, hv, Bool.eq_false_of_not_eq_true hv'⟩
      exact ⟨fun hk => hkeep hk hall, hlen, hall⟩
    · rintro ⟨-, -, hall⟩ ⟨v, hv, hv'⟩
      rw [hall v hv] at hv'
      exact Bool.noConfusion hv'
  · exact iff_of_false (by simp) fun h => hlen h.2.1

/-- A selection that leaves nothing out. -/
theorem map_eq_map_some {α β : Type} {f : α → Option β} {l : List α}
    (h : ∀ a ∈ l, (f a).isSome = true) : l.map f = (l.filterMap f).map some := by
  induction l with
  | nil => rfl
  | cons a l ih =>
    obtain ⟨b, hb⟩ := Option.isSome_iff_exists.1 (h a (by simp))
    rw [List.filterMap_cons_some hb, List.map_cons, List.map_cons, hb,
      ih fun c hc => h c (List.mem_cons_of_mem a hc)]

/-- The merged value is what the rule makes of the values. -/
theorem becomes_of_mergedValue? {v : Value} (hf : ∀ p ∈ ps, p.value.Faithful)
    (h : mergedValue? asHull ps name = some v) :
    (mergeRule name).Becomes asHull (valuesOf name ps) v := by
  obtain ⟨-, hm⟩ := mergedValue?_eq_some h
  have hnumerals : ∀ t ∈ (valuesOf name ps).filterMap Value.numeral?,
      Numeral.isNumeral t = true := by
    intro t ht
    obtain ⟨w, hw, hn⟩ := List.mem_filterMap.1 ht
    cases w with
    | scalar u => exact Option.some.inj hn ▸ (hf _ (mem_valuesOf.1 hw)).isNumeral
    | range | compound | literal => simp [Value.numeral?] at hn
  cases hr : mergeRule name <;> rw [hr] at hm <;> simp only [mergeValues?] at hm
  case max =>
    split_ifs at hm with hall
    obtain ⟨t, ht, rfl⟩ := Option.map_eq_some_iff.1 hm
    exact .greatest (map_eq_map_some (List.all_eq_true.1 hall))
      (Numeral.isFirstBest_of_best? (.inr rfl) hnumerals ht)
  case min =>
    split_ifs at hm with hall
    obtain ⟨t, ht, rfl⟩ := Option.map_eq_some_iff.1 hm
    exact .least (map_eq_map_some (List.all_eq_true.1 hall))
      (Numeral.isFirstBest_of_best? (.inl rfl) hnumerals ht)
  case range =>
    split_ifs at hm with hall
    obtain ⟨b, hb, rfl⟩ := Option.map_eq_some_iff.1 hm
    exact .merged (map_eq_map_some (List.all_eq_true.1 hall)) hb
  case keepAll => simp at hm

/-! ## Which parameters stay -/

/-- Whether the parameter at a place stays: its name does not collapse, or is not there before. -/
def Stays (ps : List Parameter) (place : Nat) (p : Parameter) : Prop :=
  ¬Collapses ps p.name ∨ p.name ∉ (ps.take place).map (·.name)

instance (ps : List Parameter) (place : Nat) (p : Parameter) : Decidable (Stays ps place p) :=
  inferInstanceAs (Decidable (_ ∨ _))

/-- The parameters that stay, in their order; those with collapsing names have merged values. -/
def staying (merged : Text → Value) (ps : List Parameter) : List Parameter :=
  (ps.zipIdx.filter fun q => Stays ps q.2 q.1).map fun q =>
    if Collapses ps q.1.name then ⟨q.1.name, merged q.1.name⟩ else q.1

/-- Behind some place, merging leaves what stays there. The names that it has seen are the
    collapsing ones in front of that place. -/
theorem go_eq_staying {merged : Text → Value}
    (hm : ∀ name, mergedValue? asHull ps name =
      if Collapses ps name then some (merged name) else none)
    (front : List Parameter) {rest : List Parameter} (hps : ps = front ++ rest) {seen : List Text}
    (hseen : ∀ name, name ∈ seen ↔ Collapses ps name ∧ name ∈ front.map (·.name)) :
    mergeDuplicates.go asHull ps seen rest =
      ((rest.zipIdx front.length).filter fun q => Stays ps q.2 q.1).map fun q =>
        if Collapses ps q.1.name then ⟨q.1.name, merged q.1.name⟩ else q.1 := by
  induction rest generalizing front seen with
  | nil => rfl
  | cons p rest ih =>
    have hnext : ps = (front ++ [p]) ++ rest := by rw [hps, List.append_assoc]; rfl
    have hlength : front.length + 1 = (front ++ [p]).length := by simp
    have hmem : ∀ name, name ∈ (front ++ [p]).map (·.name) ↔
        name ∈ front.map (·.name) ∨ name = p.name := by simp
    have hstays : Stays ps front.length p ↔ p.name ∉ seen := by
      rw [Stays, hps, List.take_left, ← hps, hseen, not_and_or]
    rw [mergeDuplicates.go, List.zipIdx_cons, hlength]
    by_cases hs : p.name ∈ seen
    · rw [if_pos hs, List.filter_cons_of_neg (by simpa [hstays] using hs)]
      refine ih (front ++ [p]) hnext fun name => ?_
      rw [hmem, hseen]
      exact ⟨fun h => ⟨h.1, .inl h.2⟩, fun h => h.2.elim (fun hn => ⟨h.1, hn⟩)
        fun hn => hn ▸ (hseen p.name).1 hs⟩
    · rw [if_neg hs, List.filter_cons_of_pos (by simpa [hstays] using hs), List.map_cons, hm]
      by_cases hc : Collapses ps p.name
      · simp only [if_pos hc]
        rw [ih (front ++ [p]) hnext fun name => ?_]
        rw [hmem, List.mem_cons, hseen, and_or_left, or_comm]
        exact or_congr_right ⟨fun hn => ⟨hn ▸ hc, hn⟩, And.right⟩
      · simp only [if_neg hc]
        rw [ih (front ++ [p]) hnext fun name => ?_]
        rw [hmem, hseen, and_or_left]
        exact ⟨.inl, fun h => h.resolve_right fun hn => hc (hn.2 ▸ hn.1)⟩

/-- Merging leaves what stays. -/
theorem mergeDuplicates_eq_staying {merged : Text → Value}
    (hm : ∀ name, mergedValue? asHull ps name =
      if Collapses ps name then some (merged name) else none) :
    mergeDuplicates asHull ps = staying merged ps :=
  go_eq_staying hm [] rfl (by simp)

/-- Whether a name collapses does not depend on what ranges become, so no name collapses
    twice. -/
theorem mergeDuplicates_mergeDuplicates (hf : ∀ p ∈ ps, p.value.Faithful) (again : Bool) :
    mergeDuplicates again (mergeDuplicates asHull ps) = mergeDuplicates asHull ps := by
  refine mergeDuplicates_eq_self fun p _ => ?_
  rw [← Option.not_isSome_iff_eq_none, mergedValue?_isSome_iff (faithful_mergeDuplicates hf),
    Collapses, valuesOf_mergeDuplicates]
  cases hm : mergedValue? asHull ps p.name with
  | none => rwa [← Option.not_isSome_iff_eq_none, mergedValue?_isSome_iff hf] at hm
  | some v => exact fun h => absurd h.2.1 (by simp)

/-- The parameters of a selector that was read collapse name by name. A name that does not
    collapse keeps its values. One that does is left once, in the place where it first stood
    among the parameters that stay, with the value that its rule makes of its values in their
    order. Merging again, with ranges as hulls or not, changes nothing. -/
theorem mergeDuplicates_read (asHull : Bool) (t : Text) :
    let ps := (Selector.read t).value.parameters
    ∃ merged : Text → Value,
      (∀ name, Collapses ps name →
        (mergeRule name).Becomes asHull (valuesOf name ps) (merged name)) ∧
      (∀ name, valuesOf name (mergeDuplicates asHull ps) =
        if Collapses ps name then [merged name] else valuesOf name ps) ∧
      mergeDuplicates asHull ps = staying merged ps ∧
      ∀ again, mergeDuplicates again (mergeDuplicates asHull ps) = mergeDuplicates asHull ps := by
  intro ps
  have hf : ∀ p ∈ ps, p.value.Faithful := fun p hp => Selector.faithful_of_mem_read hp
  let merged (name : Text) : Value := (mergedValue? asHull ps name).getD (.literal [])
  have hm : ∀ name, mergedValue? asHull ps name =
      if Collapses ps name then some (merged name) else none := by
    intro name
    rw [if_congr (mergedValue?_isSome_iff hf).symm rfl rfl]
    show mergedValue? asHull ps name = if _ then some ((mergedValue? asHull ps name).getD _) else _
    cases mergedValue? asHull ps name <;> rfl
  refine ⟨merged, fun name hc => becomes_of_mergedValue? hf ((hm name).trans (if_pos hc)),
    fun name => ?_, mergeDuplicates_eq_staying hm, mergeDuplicates_mergeDuplicates hf⟩
  rw [valuesOf_mergeDuplicates, hm]
  split_ifs <;> rfl

end Parameter

end CrossEdition
