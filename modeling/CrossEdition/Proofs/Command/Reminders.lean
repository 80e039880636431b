import CrossEdition.Command
import CrossEdition.Proofs.Adaptation.Notes
import CrossEdition.Proofs.Chat.Entries
import CrossEdition.Proofs.Chat.ShownMessage

/-!
# The reminders of a command

Both messages of a command convert the selectors of all components anew, and each keeps the
reminders for its own edition, every one of them once. The command joins them with those of its
target and keeps every one once again. The reminder that Bedrock ignores separators comes last,
since no conversion gives it.

Results:
* `eraseDups_append_congr`: what is left of lists in a row if every element is kept once.
* `eq_separatorsIgnored`: only one note says that separators are ignored.
* `filterMap_conversion?_ofComponents`: the conversions in a message.
* `reminders_generate`: the reminders of a command.
-/

namespace CrossEdition

/-! ## First occurrences -/

section FirstOccurrences

variable {α : Type} [BEq α] [LawfulBEq α] {a a' b b' l : List α}

/-- One more element is kept if it is new. -/
theorem eraseDups_concat (l : List α) (x : α) :
    (l ++ [x]).eraseDups = if x ∈ l then l.eraseDups else l.eraseDups ++ [x] := by
  rw [List.eraseDups_append, List.removeAll]
  by_cases hx : x ∈ l <;> simp [hx, List.eraseDups_cons]

theorem eraseDups_filter (p : α → Bool) (l : List α) :
    (l.filter p).eraseDups = l.eraseDups.filter p := by
  induction l using List.reverseRecOn with
  | nil => rfl
  | append_singleton l x ih =>
    rw [List.filter_append, eraseDups_concat]
    by_cases hp : p x = true
    · rw [List.filter_cons_of_pos hp, List.filter_nil, eraseDups_concat, ih]
      simp only [List.mem_filter, hp, and_true]
      split_ifs
      · rfl
      · rw [List.filter_append, List.filter_cons_of_pos hp, List.filter_nil]
    · rw [List.filter_cons_of_neg hp, List.filter_nil, List.append_nil, ih]
      split_ifs
      · rfl
      · rw [List.filter_append, List.filter_cons_of_neg hp, List.filter_nil, List.append_nil]

theorem nodup_eraseDups (l : List α) : l.eraseDups.Nodup := by
  induction l using List.reverseRecOn with
  | nil => exact List.nodup_nil
  | append_singleton l x ih =>
    rw [eraseDups_concat]
    split_ifs with hx
    · exact ih
    · rw [← List.concat_eq_append]
      exact ih.concat (by rwa [List.mem_eraseDups])

theorem eraseDups_of_nodup (h : l.Nodup) : l.eraseDups = l := by
  induction l using List.reverseRecOn with
  | nil => rfl
  | append_singleton l x ih =>
    rw [List.nodup_append] at h
    rw [eraseDups_concat, if_neg fun hx => h.2.2 x hx x (List.mem_singleton_self x) rfl, ih h.1]

theorem eraseDups_eraseDups (l : List α) : l.eraseDups.eraseDups = l.eraseDups :=
  eraseDups_of_nodup (nodup_eraseDups l)

/-- What is left of lists in a row depends only on what is left of each of them. -/
theorem eraseDups_append_congr (ha : a.eraseDups = a'.eraseDups)
    (hb : b.eraseDups = b'.eraseDups) : (a ++ b).eraseDups = (a' ++ b').eraseDups := by
  have hmem (x : α) : a.elem x = a'.elem x := by
    rw [Bool.eq_iff_iff, List.elem_iff, List.elem_iff, ← List.mem_eraseDups, ha,
      List.mem_eraseDups]
  simp only [List.eraseDups_append, List.removeAll, eraseDups_filter, ha, hb, hmem]

/-- An element that is new behind a list is left behind it. -/
theorem eraseDups_append_of_disjoint (h : ∀ x ∈ b, x ∉ a) :
    (a ++ b).eraseDups = a.eraseDups ++ b.eraseDups := by
  rw [List.eraseDups_append, List.removeAll]
  congr 2
  refine List.filter_eq_self.2 fun x hx => ?_
  simpa using h x hx

/-- Elements that were kept once before are not lost when all of them are kept once again. -/
theorem eraseDups_two_levels {c s : List α} (hs : s.Nodup) (hnew : ∀ x ∈ s, x ∉ a ++ b ++ c) :
    (a ++ b.eraseDups ++ (c.eraseDups ++ s).eraseDups).eraseDups =
      (a ++ b ++ c).eraseDups ++ s := by
  have hfront : (a ++ b.eraseDups).eraseDups = (a ++ b).eraseDups :=
    eraseDups_append_congr rfl (eraseDups_eraseDups b)
  have hback : (c.eraseDups ++ s).eraseDups.eraseDups = (c ++ s).eraseDups := by
    rw [eraseDups_eraseDups]
    exact eraseDups_append_congr (eraseDups_eraseDups c) rfl
  rw [eraseDups_append_congr hfront hback, ← List.append_assoc, eraseDups_append_of_disjoint hnew,
    eraseDups_of_nodup hs]

end FirstOccurrences

/-! ## The reminder of separators -/

/-- What is said if a list asks for separators. -/
def separatorsText : Text :=
  "Bedrock does not support selector separators; sep: entries were ignored"

theorem Note.reminder?_separatorsIgnored : separatorsIgnored.reminder? = some separatorsText := rfl

/-- What tells the reminder of separators from those with other texts in them. -/
theorem separatorsText_head_notMem :
    separatorsText.head? = some 'B' ∧ 'm' ∉ separatorsText ∧ 'J' ∉ separatorsText := by
  decide +kernel

/-- Only one note says that separators are ignored. -/
theorem Note.eq_separatorsIgnored {n : Note} (h : n.reminder? = some separatorsText) :
    n = separatorsIgnored := by
  obtain ⟨hB, hm, hJ⟩ := separatorsText_head_notMem
  have hhead : n.reminder?.bind List.head? = some 'B' := by
    rw [h]
    exact hB
  cases n with
  | separatorsIgnored => rfl
  | exclusive p target reason =>
    have hmem : 'm' ∈ p.text ++ " was removed: " ++ reason :=
      List.mem_append_left _ (List.mem_append_right _ (by decide))
    rw [Option.some.inj h] at hmem
    exact absurd hmem hm
  | bedrockVariable target =>
    have hmem : 'J' ∈ target ++ " has no Java equivalent and became @a" :=
      List.mem_append_right _ (by decide)
    rw [Option.some.inj h] at hmem
    exact absurd hmem hJ
  | spectatorBecameSurvival | furthestWithoutLimit | randomBecameVariable | randomUnsupported
  | arbitraryRemoved | limitPicksNearest | invalidCount | zeroCount | clauseWithoutItem
  | quantityNegated | slotNegated | hasitemConverted | slotNotNumeric | mixedMode =>
    -- as strings, since their lists of characters are long
    exact absurd (String.toList_inj.1 (Option.some.inj h)) (by decide)
  | _ => cases hhead

theorem Conversion.AboutSelector.notMem {c : Conversion} (h : c.AboutSelector) :
    separatorsText ∉ c.javaReminders ++ c.bedrockReminders := by
  intro hm
  obtain ⟨n, hn, hreminder⟩ := h _ hm
  rw [Note.eq_separatorsIgnored hreminder] at hn
  exact Bool.noConfusion hn

/-! ## The selectors of a message -/

namespace Entry

/-- Whether an entry of a list of selectors is a separator. -/
def IsSeparator (e : Text) : Prop :=
  ("sep:" : Text) <+: e

/-- The first characters of an entry decide whether it is a separator. -/
instance decidableIsSeparator : DecidablePred IsSeparator :=
  fun e => inferInstanceAs (Decidable (("sep:" : Text) <+: e))

theorem item?_of_isSeparator {e : Text} (h : IsSeparator (Text.trim e)) :
    ∃ s, item? e = some (.separator s) := by
  have hafter : Text.after? "sep:" (Text.trim e) = some ((Text.trim e).drop 4) := by
    rw [Text.after?, if_pos (List.isPrefixOf_iff_prefix.2 h)]
    rfl
  rw [item?, hafter]
  cases (Text.trim e).drop 4 <;> exact ⟨_, rfl⟩

theorem item?_of_not_isSeparator {e : Text} (h : ¬ IsSeparator (Text.trim e)) :
    item? e = if Text.trim e = [] then none else some (.selector (Text.trim e)) := by
  have hafter : Text.after? "sep:" (Text.trim e) = none := by
    rw [Text.after?, if_neg (mt List.isPrefixOf_iff_prefix.1 h)]
  rw [item?, hafter]

end Entry

open Entry (IsSeparator)

namespace Component

/-- The entries that a component lists if it lists selectors. -/
def entries (c : Component) : List Text :=
  if c.kind = .selector then (Entry.split true c.content).map Text.trim else []

/-- The selectors that a component lists. -/
def selectors (c : Component) : List Text :=
  c.entries.filter fun e => e ≠ [] ∧ ¬ IsSeparator e

/-- Whether a component lists a separator. -/
def ListsSeparator (c : Component) : Prop :=
  ∃ e ∈ c.entries, IsSeparator e

/-- Looking through the entries decides whether a component lists a separator. -/
instance decidableListsSeparator : DecidablePred ListsSeparator :=
  fun c => inferInstanceAs (Decidable (∃ e ∈ c.entries, IsSeparator e))

end Component

namespace Part

theorem map_selectors_filterMap (es : List Text) :
    (selectors (es.filterMap Entry.item?)).map (·.1) =
      (es.map Text.trim).filter fun e => e ≠ [] ∧ ¬ IsSeparator e := by
  induction es with
  | nil => rfl
  | cons e es ih =>
    rw [List.filterMap_cons, List.map_cons, List.filter_cons, ← ih]
    by_cases hsep : IsSeparator (Text.trim e)
    · obtain ⟨s, hs⟩ := Entry.item?_of_isSeparator hsep
      simp [hs, selectors, hsep]
    · rw [Entry.item?_of_not_isSeparator hsep]
      by_cases hnil : Text.trim e = [] <;> simp [hnil, hsep, selectors]

theorem any_isSeparator_filterMap (es : List Text) :
    (es.filterMap Entry.item?).any isSeparator = true ↔ ∃ e ∈ es.map Text.trim, IsSeparator e := by
  induction es with
  | nil => simp
  | cons e es ih =>
    rw [List.filterMap_cons, List.map_cons, List.exists_mem_cons_iff, ← ih]
    by_cases hsep : IsSeparator (Text.trim e)
    · obtain ⟨s, hs⟩ := Entry.item?_of_isSeparator hsep
      simp [hs, hsep, isSeparator]
    · simp only [Entry.item?_of_not_isSeparator hsep, hsep, false_or]
      split_ifs <;> rfl

theorem hasSeparator_iff (c : Component) : hasSeparator c = true ↔ c.ListsSeparator := by
  rw [hasSeparator, Bool.and_eq_true, decide_eq_true_eq, Entry.items_eq,
    any_isSeparator_filterMap, Component.ListsSeparator, Component.entries]
  split_ifs with hkind <;> simp [hkind]

/-- The conversions in a component. -/
theorem filterMap_conversion?_ofComponent (settings : Settings) (c : Component) :
    (ofComponent settings c).value.filterMap conversion? =
      c.selectors.map fun t => (Selector.convertDetected settings t).value := by
  rw [Component.selectors, Component.entries, ofComponent]
  cases hkind : c.kind with
  | text => rfl
  | translate => rfl
  | score =>
    simp only
    cases Entry.scores c.content with
    | nil => rfl
    | cons e es => exact List.filterMap_eq_nil_iff.2 (List.forall_mem_map.2 fun _ _ => rfl)
  | selector =>
    rw [if_pos rfl, ← map_selectors_filterMap, ← Entry.items_eq]
    simp only [Noted.value_bind]
    cases selectors (Entry.items c.content) with
    | nil => rfl
    | cons e es => simp [Function.comp_def, conversion?]

/-- The conversions in a message are those of its selectors. -/
theorem filterMap_conversion?_ofComponents (settings : Settings) (cs : List Component) :
    (ofComponents settings cs).value.filterMap conversion? =
      (cs.flatMap Component.selectors).map
        fun t => (Selector.convertDetected settings t).value := by
  induction cs with
  | nil => rfl
  | cons c cs ih =>
    rw [ofComponents_cons, List.filterMap_append, ih, filterMap_conversion?_ofComponent,
      List.flatMap_cons, List.map_append]

end Part

/-! ## Commands -/

/-- The conversions of the selectors that a message lists. -/
def conversions (settings : Settings) (cs : List Component) : List Conversion :=
  (cs.flatMap Component.selectors).map fun t => (Selector.convertDetected settings t).value

theorem JavaMessage.reminders_encode (settings : Settings) (cs : List Component) :
    (JavaMessage.encode settings cs).value.2 =
      ((conversions settings cs).flatMap (·.javaReminders)).eraseDups := by
  rw [conversions, ← Part.filterMap_conversion?_ofComponents]
  rfl

theorem BedrockMessage.reminders_encode (settings : Settings) (cs : List Component) :
    (BedrockMessage.encode settings cs).value.2 =
      (((conversions settings cs).flatMap (·.bedrockReminders)).eraseDups ++
        if ∃ c ∈ cs, c.ListsSeparator then [separatorsText] else []).eraseDups := by
  have hsep : cs.any Part.hasSeparator = true ↔ ∃ c ∈ cs, c.ListsSeparator := by
    simp only [List.any_eq_true, Part.hasSeparator_iff]
  rw [conversions, ← Part.filterMap_conversion?_ofComponents]
  simp only [encode, Noted.value_bind, hsep, Note.reminder?_separatorsIgnored, Option.toList_some,
    Part.bedrockReminders]
  split_ifs <;> rfl

namespace Command

/-- The selector of a command without the blanks around it, or all players. -/
def targetText (selector : Text) : Text :=
  if Text.trim selector = [] then "@a" else Text.trim selector

/-- The reminders of a command, as it puts them together. -/
theorem reminders_eq (settings : Settings) (selector buffer : Text) :
    (generate settings selector buffer).value.reminders =
      ((Selector.convertDetected settings (targetText selector)).value.javaReminders ++
        (Selector.convertDetected settings (targetText selector)).value.bedrockReminders ++
        (JavaMessage.encode settings (Buffer.read buffer).value).value.2 ++
        (BedrockMessage.encode settings (Buffer.read buffer).value).value.2).eraseDups := by
  simp only [generate, Noted.value_bind, Noted.value_pure, targetText]

/-- No reminder about a selector speaks of separators. -/
theorem separatorsText_notMem (settings : Settings) (t : Text) (cs : List Component) :
    separatorsText ∉ (Selector.convertDetected settings t).value.javaReminders ++
      (Selector.convertDetected settings t).value.bedrockReminders ++
      (conversions settings cs).flatMap (·.javaReminders) ++
      (conversions settings cs).flatMap (·.bedrockReminders) := by
  have hone (t : Text) := (Selector.convertDetected_aboutSelector settings t).notMem
  simp only [List.mem_append, not_or] at hone ⊢
  have hlisted (c : Conversion) (hc : c ∈ conversions settings cs) :
      separatorsText ∉ c.javaReminders ∧ separatorsText ∉ c.bedrockReminders := by
    obtain ⟨t, -, rfl⟩ := List.mem_map.1 hc
    exact hone t
  refine ⟨⟨hone t, fun h => ?_⟩, fun h => ?_⟩
  · obtain ⟨c, hc, hr⟩ := List.mem_flatMap.1 h
    exact (hlisted c hc).1 hr
  · obtain ⟨c, hc, hr⟩ := List.mem_flatMap.1 h
    exact (hlisted c hc).2 hr

/-- A command gives every reminder once, in the order in which they first come up: those for Java
    and for Bedrock about its target, those for Java about the selectors in its message, and those
    for Bedrock about them. The last one says that Bedrock ignores separators, and is given exactly
    if a component lists one. -/
theorem reminders_generate (settings : Settings) (selector buffer : Text) :
    let target := (Selector.convertDetected settings (targetText selector)).value
    let cs := (Buffer.read buffer).value
    let listed := conversions settings cs
    let reminders := (generate settings selector buffer).value.reminders
    reminders.Nodup ∧
      reminders =
        (target.javaReminders ++ target.bedrockReminders ++
          listed.flatMap (·.javaReminders) ++ listed.flatMap (·.bedrockReminders)).eraseDups ++
        (if ∃ c ∈ cs, c.ListsSeparator then [separatorsText] else []) ∧
      (separatorsText ∈ reminders ↔ ∃ c ∈ cs, c.ListsSeparator) := by
  intro target cs listed reminders
  have hold := separatorsText_notMem settings (targetText selector) cs
  have hlast : (if ∃ c ∈ cs, c.ListsSeparator then [separatorsText] else []).Nodup := by
    split_ifs
    · exact List.nodup_singleton _
    · exact List.nodup_nil
  have hnew : ∀ r ∈ (if ∃ c ∈ cs, c.ListsSeparator then [separatorsText] else []),
      r ∉ target.javaReminders ++ target.bedrockReminders ++
        listed.flatMap (·.javaReminders) ++ listed.flatMap (·.bedrockReminders) := by
    split_ifs
    · exact List.forall_mem_singleton.2 hold
    · exact List.forall_mem_nil _
  have hnodup : reminders.Nodup := by
    rw [show reminders = _ from reminders_eq settings selector buffer]
    exact nodup_eraseDups _
  have hreminders := reminders_eq settings selector buffer
  rw [JavaMessage.reminders_encode, BedrockMessage.reminders_encode,
    eraseDups_two_levels hlast hnew] at hreminders
  refine ⟨hnodup, hreminders, ?_⟩
  rw [show reminders = _ from hreminders, List.mem_append, List.mem_eraseDups, or_iff_right hold]
  split_ifs with hsep
  · exact iff_of_true (List.mem_singleton_self _) hsep
  · exact iff_of_false List.not_mem_nil hsep

end Command

end CrossEdition
