import CrossEdition.Proofs.Adaptation.Frames
import CrossEdition.Proofs.Item.Accounting

/-!
# Items that drop out

What an adaptation to Java makes of `hasitem` is independent of all other parameters. It is
stated by comparing with the adaptation of the selector without `hasitem`: the two differ in
the `nbt` parameters that the items became and in the reminders about the items, and in nothing
else. They do not differ at all exactly if every value can be read and spells no clause, and then
`hasitem` drops out without a reminder.

Results:
* `Blind.bind`: stages that are blind to a name in a row.
* `blind_beforeItems`, `blind_behindItems`: the stages in front of the one for items, and behind
  it.
* `value_adapt_java`, `exists_reminders_adapt_java`: both adaptations, with items and without.
* `adapt_java_items`: what becomes of `hasitem`, and when nothing is said about it.
* `filter_drops_scalar_item`: an item that is not in braces drops out without a reminder.
-/

namespace CrossEdition

namespace Parameter

variable {name : Text} {ps : List Parameter}

theorem mergedValue?_without_of_ne {asHull : Bool} {other : Text} (h : other ≠ name) :
    mergedValue? asHull (without name ps) other = mergedValue? asHull ps other := by
  rw [mergedValue?, mergedValue?, valuesOf_without_of_ne h]

theorem go_without {asHull : Bool} (h : mergeRule name = .keepAll) (seen : List Text)
    (rest : List Parameter) :
    mergeDuplicates.go asHull (without name ps) seen (without name rest) =
      without name (mergeDuplicates.go asHull ps seen rest) := by
  induction rest generalizing seen with
  | nil => rfl
  | cons p rest ih =>
    by_cases hp : p.name = name
    -- the name never merges, so what was seen stays the same
    · have hkept : mergedValue? asHull ps p.name = none := mergedValue?_of_keepAll (hp ▸ h)
      have hgone : without name (p :: rest) = without name rest :=
        List.filter_cons_of_neg (by simp [hp])
      rw [hgone, ih, mergeDuplicates.go, hkept]
      split_ifs
      · rfl
      · exact (List.filter_cons_of_neg (by simp [hp])).symm
    · have hstays : ∀ (value : Value) (qs : List Parameter),
          without name (⟨p.name, value⟩ :: qs) = ⟨p.name, value⟩ :: without name qs :=
        fun value qs => List.filter_cons_of_pos (decide_eq_true hp)
      rw [show without name (p :: rest) = p :: without name rest from hstays p.value rest,
        mergeDuplicates.go, mergeDuplicates.go, mergedValue?_without_of_ne hp]
      split_ifs
      · exact ih seen
      · cases mergedValue? asHull ps p.name with
        | none => exact (congrArg (p :: ·) (ih seen)).trans (hstays p.value _).symm
        | some value =>
          exact (congrArg (⟨p.name, value⟩ :: ·) (ih (p.name :: seen))).trans (hstays value _).symm

/-- A name whose repetition has a meaning may be taken away before merging or behind it. -/
theorem mergeDuplicates_without {asHull : Bool} (h : mergeRule name = .keepAll) :
    mergeDuplicates asHull (without name ps) = without name (mergeDuplicates asHull ps) :=
  go_without h [] ps

end Parameter

namespace Selector

variable {name : Text} {s : Selector} {asHull : Bool}

/-! ## Stages that are blind to a name -/

/-- A stage is blind to a name if the parameters with this name may be taken away before it or
    behind it, and it says the same. -/
def Blind (name : Text) (stage : Selector → Noted Selector) : Prop :=
  ∀ s, stage (s.erase name) = (·.erase name) <$> stage s

namespace Blind

variable {f g : Selector → Noted Selector}

theorem value (h : Blind name f) (s : Selector) :
    (f (s.erase name)).value = (f s).value.erase name := by
  rw [h s, Noted.value_map]

theorem notes (h : Blind name f) (s : Selector) : (f (s.erase name)).notes = (f s).notes := by
  rw [h s, Noted.notes_map]

/-- Two stages in a row are blind to what both of them are blind to. -/
theorem bind (hf : Blind name f) (hg : Blind name g) : Blind name fun s => f s >>= g := by
  intro s
  refine Noted.ext ?_ ?_
  · rw [Noted.value_bind, hf.value, hg.value]
    rfl
  · rw [Noted.notes_bind, hf.value, hf.notes, hg.notes, Noted.notes_map, Noted.notes_bind]

/-- A stage that takes parameters away by a test and puts others behind the rest is blind to a
    name that these do not have and that they do not depend on. -/
theorem of_filter_append (kept : Parameter → Bool) (made : Selector → List Parameter)
    (hvalue : ∀ s, (f s).value = ⟨(f s).value.head, s.parameters.filter kept ++ made s⟩)
    (hhead : ∀ s, (f (s.erase name)).value.head = (f s).value.head)
    (hmade : ∀ s, ∀ p ∈ made s, p.name ≠ name) (herase : ∀ s, made (s.erase name) = made s)
    (hnotes : ∀ s, (f (s.erase name)).notes = (f s).notes) : Blind name f := by
  intro s
  refine Noted.ext ?_ (by rw [hnotes, Noted.notes_map])
  rw [Noted.value_map, hvalue, hvalue s, hhead, herase, erase, erase]
  simp only [Parameter.without, List.filter_append, List.filter_filter, Bool.and_comm]
  rw [List.filter_eq_self.2 fun p hp => decide_eq_true (hmade s p hp)]

end Blind

/-! ## Single stages -/

theorem blind_mergeDuplicates (h : mergeRule name = .keepAll) :
    Blind name fun s => pure (s.mergeDuplicates asHull) := fun s =>
  Noted.ext (congrArg (Selector.mk s.head) (Parameter.mergeDuplicates_without h)) rfl

theorem blind_replaceVariable : Blind name replaceVariable := by
  intro s
  unfold replaceVariable
  by_cases h : s.head.isBedrockOnly = true
  · rw [if_pos h, if_pos (show (s.erase name).head.isBedrockOnly = true from h)]
    rfl
  · rw [if_neg h, if_neg (show ¬(s.erase name).head.isBedrockOnly = true from h)]
    rfl

/-- A stage that replaces parameters is blind to a name that it neither replaces nor makes. -/
theorem blind_displace {f : Rule} (hkeep : ∀ p, p.name = name → f p = pure none)
    (hmade : ∀ p made, (f p).value = some made → ∀ q ∈ made, q.name ≠ name) :
    Blind name (displace f) := by
  refine .of_filter_append (fun p => (f p).value.isNone)
    (fun s => s.parameters.flatMap fun p => (f p).value.getD []) (fun s => rfl) (fun s => rfl)
    (fun s q hq => ?_) (fun s => ?_) (fun s => ?_)
  · obtain ⟨p, -, hp⟩ := List.mem_flatMap.1 hq
    cases hv : (f p).value with
    | none => simp [hv] at hp
    | some made => exact hmade p made hv q (by simpa [hv] using hp)
  · exact flatMap_filter fun p _ hp => by
      rw [hkeep p (of_not_not (of_decide_eq_false hp))]
      rfl
  · exact flatMap_filter fun p _ hp => by
      rw [hkeep p (of_not_not (of_decide_eq_false hp))]
      rfl

theorem blind_dropExclusive {target : Dialect} (h : Dialect.dropReason? name target = none) :
    Blind name (dropExclusive target) := by
  refine blind_displace (fun p hp => ?_) fun p made hm q hq => ?_
  · rw [hp, h]
  · cases hr : Dialect.dropReason? p.name target with
    | none => simp [hr] at hm
    | some reason =>
      simp only [hr, Option.some.injEq] at hm
      simp [← hm] at hq

theorem blind_joinRange (h : name ∉ quantityNames) : Blind name fun s =>
    pure (rangePairs.foldl (fun s pair => s.joinRange pair) s) := by
  refine .of_filter_append (fun p => rangePairs.all fun pair => !isBound pair p)
    (fun s => rangePairs.flatMap fun pair => joined pair s) (fun s => ?_) (fun s => ?_)
    (fun s p hp => ?_) (fun s => ?_) (fun s => rfl)
  · rw [Noted.value_pure, foldl_joinRange apart_rangePairs]
  · simp only [Noted.value_pure, foldl_joinRange apart_rangePairs]
    rfl
  · obtain ⟨pair, hpair, hj⟩ := List.mem_flatMap.1 hp
    rw [mem_joined hj]
    rintro rfl
    exact h (mem_quantityNames hpair pair.java_mem_names)
  · refine List.flatMap_congr fun pair hpair => ?_
    have hne : ∀ other ∈ pair.names, other ≠ name := by
      rintro other ho rfl
      exact h (mem_quantityNames hpair ho)
    have hbounds : boundsOf pair (s.erase name) = boundsOf pair s := by
      simp only [boundsOf, numerals, values_erase_of_ne (hne _ pair.min_mem_names),
        values_erase_of_ne (hne _ pair.max_mem_names)]
    rw [joined, joined, hbounds]

theorem blind_splitCount (hc : "c" ≠ name) (hl : "limit" ≠ name) (hs : "sort" ≠ name) :
    Blind name splitCount := by
  refine .of_filter_append (fun p => decide (p.name ≠ "c")) picksOf (fun s => ?_) (fun s => ?_)
    (fun s p hp => ?_) (fun s => ?_) (fun s => ?_)
  · rw [splitCount_eq]
    rfl
  · simp only [head_splitCount]
    rfl
  · rcases isPick_of_mem_picksOf hp with ⟨n, rfl⟩ | rfl | rfl
    · exact hl
    · exact hs
    · exact hs
  · rw [picksOf, picksOf, numerals, numerals, values_erase_of_ne hc]
    rfl
  · have hhead : (s.erase name).head = s.head := rfl
    unfold splitCount
    simp only [values_erase_of_ne hc, hhead]
    by_cases hnone : s.values "c" = []
    · rw [if_pos hnone, if_pos hnone]
      rfl
    · rw [if_neg hnone, if_neg hnone]
      cases (Numeral.greatest? ((s.values "c").filterMap Value.numeral?)).bind Numeral.value? with
      | none => rfl
      | some n =>
        simp only
        split_ifs <;> rfl

theorem blind_gamemode (hm : "m" ≠ name) (hg : "gamemode" ≠ name) :
    Blind name (displace gamemodeOfMode) := by
  refine blind_displace (fun p hp => gamemodeOfMode_of_ne (hp ▸ Ne.symm hm)) fun p made hv q hq => ?_
  by_cases hp : p.name = "m"
  · obtain ⟨t, ht, -⟩ := gamemodeOfMode_value hp
    rw [ht, Option.some.injEq] at hv
    rw [← hv, List.mem_singleton] at hq
    rw [hq]
    exact hg
  · simp [gamemodeOfMode_of_ne hp] at hv

theorem blind_positiveScores (h : "scores" ≠ name) : Blind name (displace positiveScores) := by
  refine blind_displace (fun p hp => ?_) fun p made hv q hq => ?_
  · exact positiveScores_of_none (positiveScores_value.2 fun hs => h (hs.1 ▸ hp))
  · rw [name_of_mem_positiveScores hv hq]
    exact h

/-! ## The stage for items -/

/-- The stages in front of the one for items. -/
def beforeItems (asHull : Bool) (s : Selector) : Noted Selector := do
  let s ← pure (s.mergeDuplicates asHull)
  let s ← s.replaceVariable
  let s ← s.dropExclusive .java
  let s ← pure (rangePairs.foldl (fun s pair => s.joinRange pair) s)
  let s ← s.displace gamemodeOfMode
  s.splitCount

/-- The stages behind the one for items. -/
def behindItems (asHull : Bool) (s : Selector) : Noted Selector := do
  let s ← s.displace positiveScores
  pure (s.mergeDuplicates asHull)

theorem adapt_java_eq (asHull : Bool) (s : Selector) :
    s.adapt .java asHull =
      beforeItems asHull s >>= fun r => r.itemsToNbt >>= behindItems asHull := by
  unfold adapt toJava beforeItems behindItems
  simp only [Noted.bind_assoc, Noted.pure_bind]

theorem blind_beforeItems : Blind "hasitem" (beforeItems asHull) :=
  (blind_mergeDuplicates (by decide)).bind <| blind_replaceVariable.bind <|
    (blind_dropExclusive (by decide)).bind <| (blind_joinRange (by decide)).bind <|
    (blind_gamemode (by decide) (by decide)).bind <|
    blind_splitCount (by decide) (by decide) (by decide)

theorem blind_behindItems : Blind "nbt" (behindItems asHull) :=
  (blind_positiveScores (by decide)).bind (blind_mergeDuplicates (by decide))

theorem values_beforeItems (asHull : Bool) (s : Selector) :
    (beforeItems asHull s).value.values "hasitem" = s.values "hasitem" := by
  simp only [beforeItems, Noted.value_bind, Noted.value_pure]
  rw [touchesOnly_splitCount.values (by decide), touchesOnly_gamemode.values (by decide),
    touchesOnly_joinRange.values_pure (by decide),
    (touchesOnly_dropExclusive .java).values (by decide),
    touchesOnly_replaceVariable.values (by decide),
    (touchesOnly_mergeDuplicates asHull).values_pure (by decide)]

theorem values_behindItems (hname : name = "hasitem" ∨ name = "nbt") (asHull : Bool)
    (s : Selector) : (behindItems asHull s).value.values name = s.values name := by
  have hs : name ∉ (["scores"] : List Text) ∧ name ∉ mergedNames := by
    rcases hname with rfl | rfl <;> decide
  rw [behindItems, Noted.value_bind, Noted.value_pure,
    (touchesOnly_mergeDuplicates asHull).values_pure hs.2, touchesOnly_positiveScores.values hs.1]

/-- The parameters that look for items. -/
def lookups (found : List Text) : List Parameter :=
  found.map (Parameter.ofTexts "nbt")

theorem name_of_mem_lookups {found : List Text} {p : Parameter} (h : p ∈ lookups found) :
    p.name = "nbt" := by
  obtain ⟨t, -, rfl⟩ := List.mem_map.1 h
  rfl

theorem valuesOf_lookups (found : List Text) :
    Parameter.valuesOf "nbt" (lookups found) = found.map Value.read := by
  rw [← Parameter.valuesOf_map_mk "nbt" (found.map Value.read), List.map_map]
  rfl

theorem erase_append_lookups (s : Selector) (found : List Text) :
    (s.append (lookups found)).erase "nbt" = s.erase "nbt" := by
  have hnone : Parameter.without "nbt" (lookups found) = [] :=
    List.filter_eq_nil_iff.2 fun p hp => by simp [name_of_mem_lookups hp]
  have happend : Parameter.without "nbt" (s.parameters ++ lookups found) =
      Parameter.without "nbt" s.parameters ++ Parameter.without "nbt" (lookups found) :=
    List.filter_append ..
  rw [hnone, List.append_nil] at happend
  exact congrArg (Selector.mk s.head) happend

/-- All `hasitem` parameters go, and those that look for their items come behind the others. -/
theorem itemsToNbt_eq (s : Selector) : itemsToNbt s =
    Item.toNbt ((s.values "hasitem").map Value.text) >>= fun found =>
      pure ((s.erase "hasitem").append (lookups found)) := by
  unfold itemsToNbt
  split_ifs with h
  · rfl
  · have hne : ∀ p ∈ s.parameters, p.name ≠ "hasitem" := fun p hp hn => h (has_iff.2 ⟨p, hp, hn⟩)
    have hvalues : s.values "hasitem" = [] := Parameter.valuesOf_eq_nil_iff.2 hne
    have hnone : Item.toNbt [] = pure [] := rfl
    rw [hvalues, erase_eq_self hne, List.map_nil, hnone, Noted.pure_bind, lookups, List.map_nil,
      append_nil]

/-! ## Both adaptations -/

/-- An adaptation to Java, around the conversion of items. -/
theorem adapt_java_with (asHull : Bool) (s : Selector) : s.adapt .java asHull =
    beforeItems asHull s >>= fun r =>
      Item.toNbt ((s.values "hasitem").map Value.text) >>= fun found =>
        behindItems asHull ((r.erase "hasitem").append (lookups found)) := by
  rw [adapt_java_eq]
  refine Noted.bind_congr ?_
  simp only [itemsToNbt_eq, values_beforeItems, Noted.bind_assoc, Noted.pure_bind]

/-- The same without `hasitem`. -/
theorem adapt_java_without (asHull : Bool) (s : Selector) :
    (s.erase "hasitem").adapt .java asHull =
      beforeItems asHull s >>= fun r => behindItems asHull (r.erase "hasitem") := by
  -- the conversion is given no values, so it makes nothing and says nothing
  have hnone : Item.toNbt [] = pure [] := rfl
  rw [adapt_java_with, values_erase, List.map_nil, hnone, blind_beforeItems s]
  simp only [Noted.pure_bind, lookups, List.map_nil, append_nil]
  refine Noted.ext ?_ ?_
  · rw [Noted.value_bind, Noted.value_map, erase_erase, Noted.value_bind]
  · rw [Noted.notes_bind, Noted.value_map, Noted.notes_map, erase_erase, Noted.notes_bind]

/-- The stages behind the conversion of items say the same whatever it made. -/
theorem reminders_behindItems_append (asHull : Bool) (r : Selector) (found : List Text) :
    (behindItems asHull (r.append (lookups found))).reminders =
      (behindItems asHull r).reminders := by
  rw [Noted.reminders, ← blind_behindItems.notes, erase_append_lookups, blind_behindItems.notes,
    Noted.reminders]

/-- The conversion of items puts what it said between what was said before and behind it. -/
theorem exists_reminders_adapt_java (asHull : Bool) (s : Selector) : ∃ before after,
    ((s.erase "hasitem").adapt .java asHull).reminders = before ++ after ∧
      (s.adapt .java asHull).reminders =
        before ++ (Item.toNbt ((s.values "hasitem").map Value.text)).reminders ++ after := by
  refine ⟨(beforeItems asHull s).reminders,
    (behindItems asHull ((beforeItems asHull s).value.erase "hasitem")).reminders, ?_, ?_⟩
  · rw [adapt_java_without, Noted.reminders_bind]
  · rw [adapt_java_with, Noted.reminders_bind, Noted.reminders_bind, reminders_behindItems_append,
      List.append_assoc]

/-- What both adaptations have apart from `hasitem` and `nbt` is the same. -/
theorem value_adapt_java (asHull : Bool) (s : Selector) :
    let found := (Item.toNbt ((s.values "hasitem").map Value.text)).value
    let java := (s.adapt .java asHull).value
    let rest := ((s.erase "hasitem").adapt .java asHull).value
    java.values "hasitem" = [] ∧
      java.values "nbt" = rest.values "nbt" ++ found.map Value.read ∧
      java.erase "nbt" = rest.erase "nbt" ∧ (found = [] → java = rest) := by
  intro found java rest
  obtain ⟨r, hnone, hjava, hrest⟩ : ∃ r : Selector, r.values "hasitem" = [] ∧
      java = (behindItems asHull (r.append (lookups found))).value ∧
      rest = (behindItems asHull r).value := by
    refine ⟨(beforeItems asHull s).value.erase "hasitem", values_erase .., ?_, ?_⟩
    · show (s.adapt .java asHull).value = _
      rw [adapt_java_with, Noted.value_bind, Noted.value_bind]
    · show ((s.erase "hasitem").adapt .java asHull).value = _
      rw [adapt_java_without, Noted.value_bind]
  have hlookups : Parameter.valuesOf "hasitem" (lookups found) = [] :=
    Parameter.valuesOf_eq_nil_iff.2 fun p hp => by
      rw [name_of_mem_lookups hp]
      decide
  refine ⟨?_, ?_, ?_, fun hfound => ?_⟩
  · rw [hjava, values_behindItems (.inl rfl), values_append, hnone, hlookups, List.append_nil]
  · rw [hjava, hrest, values_behindItems (.inr rfl), values_behindItems (.inr rfl), values_append,
      valuesOf_lookups]
  · rw [hjava, hrest, ← blind_behindItems.value, erase_append_lookups, blind_behindItems.value]
  · rw [hjava, hrest, hfound, lookups, List.map_nil, append_nil]

/-- What becomes of `hasitem` in Java: the `nbt` parameters that its values are converted to and
    the reminders about the values come to what becomes of the selector without it. Nothing
    comes to it exactly if every value can be read and spells no clause. -/
theorem adapt_java_items (asHull : Bool) (s : Selector) :
    let items := (s.values "hasitem").map Value.text
    let java := s.adapt .java asHull
    let rest := (s.erase "hasitem").adapt .java asHull
    (∀ value, (Item.toNbt [value]).value = [] ∧ (Item.toNbt [value]).reminders = [] ↔
      Item.Silent value) ∧
    java.value.values "hasitem" = [] ∧
    java.value.values "nbt" =
      rest.value.values "nbt" ++ (Item.toNbt items).value.map Value.read ∧
    java.value.erase "nbt" = rest.value.erase "nbt" ∧
    (∃ before after, rest.reminders = before ++ after ∧
      java.reminders = before ++ (Item.toNbt items).reminders ++ after) ∧
    (java.value = rest.value ∧ java.reminders = rest.reminders ↔
      ∀ item ∈ items, Item.Silent item) := by
  intro items java rest
  obtain ⟨hitems, hnbt, hothers, hsame⟩ := value_adapt_java asHull s
  obtain ⟨before, after, hrest, hjava⟩ := exists_reminders_adapt_java asHull s
  have hsilent : java.reminders = rest.reminders ↔ ∀ item ∈ items, Item.Silent item := by
    rw [hjava, hrest, List.append_assoc, List.append_cancel_left_eq, List.append_left_eq_self]
    exact Item.reminders_toNbt_eq_nil_iff items
  refine ⟨fun value => ?_, hitems, hnbt, hothers, ⟨before, after, hrest, hjava⟩, ?_⟩
  · rw [Item.reminders_toNbt_eq_nil_iff, List.forall_mem_singleton]
    exact and_iff_right_of_imp fun h =>
      Item.toNbt_value_of_silent (List.forall_mem_singleton.2 h)
  · rw [hsilent]
    exact and_iff_right_of_imp fun h => hsame (Item.toNbt_value_of_silent h)

/-- An item that is not in braces drops out without a reminder. -/
theorem filter_drops_scalar_item :
    ¬(∀ value, (Item.toNbt [value]).value = [] → (Item.toNbt [value]).reminders ≠ []) ∧
      (filter .java .standard "@a[hasitem=apple]").value = "@a" ∧
      (filter .java .standard "@a[hasitem=apple]").reminders = [] :=
  ⟨fun h => h "apple" (by decide +kernel) (by decide +kernel), by decide +kernel,
    by decide +kernel⟩

end Selector

end CrossEdition
