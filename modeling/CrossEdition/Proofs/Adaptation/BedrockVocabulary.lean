import CrossEdition.Proofs.Adaptation.Translations
import CrossEdition.Proofs.Item.Sites

/-!
# Bedrock's vocabulary

What is left of Java's vocabulary in a selector that was adapted to Bedrock: ranges without
numbers, game modes that are not known, `nbt` that is about no items, and attributes. What
Bedrock cannot express has a reminder each, and everything else is there in Bedrock's terms.

Results:
* `isUntranslated_iff`: the parameters that only Java knows and that no stage replaces.
* `reminders_dropExclusive`: each parameter that is dropped has a reminder of its own.
* `fate_of_mem`: what becomes of a parameter that only Java knows.
* `adapt_bedrock_vocabulary`: all of this together.
-/

namespace CrossEdition

namespace Parameter

/-- Whether a parameter belongs to Java and Bedrock gets it all the same: a range without
    numbers, a game mode that is not known, `nbt` that is about no items, or attributes. -/
def isUntranslated (p : Parameter) : Bool :=
  if p.name ∈ rangeNames then p.value.bounds?.isNone
  else if p.name = "gamemode" then (splitNegation p.value.text).2 ∉
    (["survival", "creative", "adventure", "spectator"] : List Text)
  else if p.name = "nbt" then !Item.isMarkedValue p.value
  else p.name = "attributes"

/-- The reminder that a parameter was dropped, if the target dialect cannot express it. -/
def dropReminder? (target : Dialect) (p : Parameter) : Option Text :=
  (Dialect.dropReason? p.name target).map fun reason => p.text ++ " was removed: " ++ reason

end Parameter

namespace Selector

variable {asHull : Bool} {s : Selector} {p : Parameter}

/-! ## What no stage replaces -/

theorem modeOfGamemode_eq_none_iff (h : p.name = "gamemode") :
    (modeOfGamemode p).value = none ↔ (splitNegation p.value.text).2 ∉
      (["survival", "creative", "adventure", "spectator"] : List Text) := by
  have hmode : ∀ mode : Text,
      mode ∈ (["survival", "creative", "adventure", "spectator"] : List Text) ↔
        (mode = "survival" ∨ mode = "creative" ∨ mode = "adventure") ∨ mode = "spectator" := by
    simp only [List.mem_cons, List.not_mem_nil, or_false, or_assoc, implies_true]
  rw [hmode]
  simp only [modeOfGamemode, if_pos h]
  split_ifs with hm hs
  · exact iff_of_false not_false (not_not_intro (.inl hm))
  · exact iff_of_false not_false (not_not_intro (.inr hs))
  · exact iff_of_true rfl (not_or.2 ⟨hm, hs⟩)

theorem findingsOf_isSome (h : p.name = "nbt") :
    (findingsOf p).value.isSome = Item.isMarkedValue p.value := by
  obtain ⟨name, value⟩ := p
  obtain rfl : name = "nbt" := h
  cases value with
  | compound nbt => rw [findingsOf_compound, Item.findings?_isSome, Item.isMarkedValue]
  | scalar | range | literal => rfl

/-- Bedrock can have a parameter as it is that belongs to Java and is not dropped, if no stage
    knows its value. -/
theorem bedrockReady_of_unknown
    (hname : p.name ∈ rangeNames ∨ p.name ∈ (["gamemode", "nbt", "attributes"] : List Text))
    (hr : p.name ∈ rangeNames → p.value.bounds? = none)
    (hm : p.name = "gamemode" → (modeOfGamemode p).value = none)
    (hi : p.name = "nbt" → (findingsOf p).value = none) : BedrockReady p := by
  have hplain : ∀ name : Text,
      name ∈ rangeNames ∨ name ∈ (["gamemode", "nbt", "attributes"] : List Text) →
        Dialect.dropReason? name .bedrock = none ∧ name ≠ "sort" ∧ name ≠ "limit" := by
    intro name
    rw [← List.mem_append]
    revert name
    decide
  have hpairs : ∀ pair ∈ rangePairs, pair.java ∈ rangeNames := by
    decide
  obtain ⟨he, hs, hl⟩ := hplain p.name hname
  refine ⟨he, fun pair hpair => ?_, ?_, hs, hl, ?_⟩
  · rw [splitRule_value]
    split_ifs with hn
    · exact (boundsOfRange?_eq_none pair).2 (hr (hn ▸ hpairs pair hpair))
    · rfl
  · by_cases hn : p.name = "gamemode"
    · exact hm hn
    · rw [modeOfGamemode_of_ne hn]
      rfl
  · by_cases hn : p.name = "nbt"
    · exact hi hn
    · rw [findingsOf_of_ne hn]
      rfl

/-- The parameters that only Java knows and that no stage replaces. -/
theorem isUntranslated_iff :
    p.isUntranslated = true ↔ p.name ∈ Dialect.javaNames ∧ BedrockReady p := by
  have hrange : ∀ name ∈ rangeNames, name ∈ Dialect.javaNames ∧ name ≠ "gamemode" ∧ name ≠ "nbt" ∧
      ∃ pair ∈ rangePairs, name = pair.java := by
    decide
  have hleft : ∀ name ∈ Dialect.javaNames, Dialect.dropReason? name .bedrock = none →
      name ≠ "sort" → name ≠ "limit" → name ∈ rangeNames ∨ name = "gamemode" ∨ name = "nbt" ∨
        name = "attributes" := by
    decide
  unfold Parameter.isUntranslated
  split_ifs with h₁ h₂ h₃
  · obtain ⟨hj, hg, hn, pair, hpair, hp⟩ := hrange p.name h₁
    rw [Option.isNone_iff_eq_none]
    refine ⟨fun hv => ⟨hj, bedrockReady_of_unknown (.inl h₁) (fun _ => hv) (fun h => absurd h hg)
      fun h => absurd h hn⟩, fun ⟨_, hr⟩ => ?_⟩
    have hv := hr.range pair hpair
    rwa [splitRule_value, if_pos hp, boundsOfRange?_eq_none] at hv
  · have hj : p.name ∈ Dialect.javaNames ∧ p.name ≠ "nbt" := by
      rw [h₂]
      decide
    rw [decide_eq_true_eq, ← modeOfGamemode_eq_none_iff h₂]
    exact ⟨fun hv => ⟨hj.1, bedrockReady_of_unknown (.inr (by simp [h₂])) (fun h => absurd h h₁)
      (fun _ => hv) fun h => absurd h hj.2⟩, fun ⟨_, hr⟩ => hr.mode⟩
  · have hj : p.name ∈ Dialect.javaNames := by
      rw [h₃]
      decide
    rw [Bool.not_eq_true', ← findingsOf_isSome h₃, Option.isSome_eq_false_iff,
      Option.isNone_iff_eq_none]
    exact ⟨fun hv => ⟨hj, bedrockReady_of_unknown (.inr (by simp [h₃])) (fun h => absurd h h₁)
      (fun h => absurd h h₂) fun _ => hv⟩, fun ⟨_, hr⟩ => hr.items⟩
  · rw [decide_eq_true_eq]
    constructor
    · intro hn
      refine ⟨?_, bedrockReady_of_unknown (.inr (by simp [hn])) (fun h => absurd h h₁)
        (fun h => absurd h h₂) fun h => absurd h h₃⟩
      rw [hn]
      decide
    · rintro ⟨hj, hr⟩
      have hn := hleft p.name hj hr.exclusive hr.sort hr.limit
      exact ((hn.resolve_left h₁).resolve_left h₂).resolve_left h₃

/-- Such parameters never merge. -/
theorem not_fits_of_isUntranslated (h : p.isUntranslated = true) :
    (mergeRule p.name).fits p.value = false := by
  have hrange : ∀ name ∈ rangeNames, mergeRule name = .range := by
    decide
  have hothers : ∀ name ∈ Dialect.javaNames, name ∉ rangeNames → name ≠ "limit" →
      mergeRule name = .keepAll := by
    decide
  obtain ⟨hjava, hready⟩ := isUntranslated_iff.1 h
  by_cases hn : p.name ∈ rangeNames
  · rw [Parameter.isUntranslated, if_pos hn, Option.isNone_iff_eq_none] at h
    rw [hrange p.name hn, MergeRule.fits, h]
    rfl
  · rw [hothers p.name hjava hn hready.limit]
    rfl

theorem filter_isUntranslated_mergeDuplicates (s : Selector) :
    (s.mergeDuplicates asHull).parameters.filter Parameter.isUntranslated =
      s.parameters.filter Parameter.isUntranslated :=
  Parameter.filter_mergeDuplicates fun _ => not_fits_of_isUntranslated

/-! ## What is left -/

theorem name_notMem_javaNames_of_translation (h : p ∈ s.translations) :
    p.name ∉ Dialect.javaNames := by
  have hmade : ∀ name ∈ bedrockMade, name ∉ Dialect.javaNames := by
    decide
  have hitems : ∀ name ∈ (["hasitem", "tag", "type"] : List Text), name ∉ Dialect.javaNames := by
    decide
  rcases name_mem_translations h with hn | hn
  · exact hmade p.name hn
  · exact hitems p.name hn

/-- The stages leave no other parameters of Java's. -/
theorem isUntranslated_of_mem_toBedrock (h : p ∈ (toBedrock s).value.parameters)
    (hname : p.name ∈ Dialect.javaNames) : p.isUntranslated = true := by
  rw [parameters_toBedrock, List.mem_append, List.mem_filter, decide_eq_true_eq] at h
  rcases h with ⟨-, hr⟩ | h
  · exact isUntranslated_iff.2 ⟨hname, hr⟩
  · exact absurd hname (name_notMem_javaNames_of_translation h)

theorem filter_isUntranslated_toBedrock (s : Selector) :
    (toBedrock s).value.parameters.filter Parameter.isUntranslated =
      s.parameters.filter Parameter.isUntranslated := by
  have hnone : s.translations.filter Parameter.isUntranslated = [] :=
    List.filter_eq_nil_iff.2 fun p hp hu =>
      name_notMem_javaNames_of_translation hp (isUntranslated_iff.1 hu).1
  rw [parameters_toBedrock, List.filter_append, hnone, List.append_nil, List.filter_filter]
  refine List.filter_congr fun p _ => ?_
  rw [Bool.and_eq_left_iff_imp]
  exact fun hu => decide_eq_true (isUntranslated_iff.1 hu).2

/-- Nor does the last merge. -/
theorem isUntranslated_of_mem_adapt (h : p ∈ (adapt .bedrock asHull s).value.parameters)
    (hname : p.name ∈ Dialect.javaNames) : p.isUntranslated = true := by
  rw [adapt_value, inTerms] at h
  generalize hr : (toBedrock (s.mergeDuplicates asHull)).value = r at h
  have hstages : ∀ q ∈ r.parameters, q.name ∈ Dialect.javaNames → q.isUntranslated = true :=
    fun q hq hn => isUntranslated_of_mem_toBedrock (hr ▸ hq) hn
  rcases Parameter.mem_or_merged h with hp | hm
  · exact hstages p hp hname
  · obtain ⟨v, hv⟩ := List.exists_mem_of_ne_nil _ (Parameter.mergedValue?_eq_some hm).1
    have hu := hstages _ (Parameter.mem_valuesOf.1 hv) hname
    have hfits := (Parameter.fits_of_mergedValue? hm).1 v hv
    rw [not_fits_of_isUntranslated hu] at hfits
    exact absurd hfits Bool.false_ne_true

/-- Of Java's parameters exactly those are left that no stage replaces. -/
theorem filter_javaNames_adapt (asHull : Bool) (s : Selector) :
    (adapt .bedrock asHull s).value.parameters.filter (fun p => p.name ∈ Dialect.javaNames) =
      s.parameters.filter Parameter.isUntranslated := by
  have hsame : (adapt .bedrock asHull s).value.parameters.filter
      (fun p => p.name ∈ Dialect.javaNames) =
        (adapt .bedrock asHull s).value.parameters.filter Parameter.isUntranslated := by
    refine List.filter_congr fun p hp => ?_
    rw [Bool.eq_iff_iff, decide_eq_true_iff]
    exact ⟨isUntranslated_of_mem_adapt hp, fun hu => (isUntranslated_iff.1 hu).1⟩
  rw [hsame, adapt_value, filter_isUntranslated_mergeDuplicates,
    inTerms, filter_isUntranslated_toBedrock, filter_isUntranslated_mergeDuplicates]

/-! ## What is dropped -/

/-- Each parameter that is dropped has a reminder of its own, in their order. -/
theorem reminders_dropExclusive (target : Dialect) (s : Selector) :
    (dropExclusive target s).reminders =
      s.parameters.filterMap (Parameter.dropReminder? target) := by
  rw [dropExclusive, reminders_displace, List.filterMap_eq_flatMap_toList]
  refine List.flatMap_congr fun p _ => ?_
  rw [Parameter.dropReminder?]
  cases Dialect.dropReason? p.name target <;> rfl

/-- Merging before does not matter to them. -/
theorem filterMap_dropReminder?_mergeDuplicates (target : Dialect) (s : Selector) :
    (s.mergeDuplicates asHull).parameters.filterMap (Parameter.dropReminder? target) =
      s.parameters.filterMap (Parameter.dropReminder? target) := by
  have hrule : ∀ name ∈ target.exclusiveNames, mergeRule name = .keepAll := by
    cases target <;> decide
  have hpick : ∀ ps : List Parameter, ps.filterMap (Parameter.dropReminder? target) =
      (ps.filter fun p => (Parameter.dropReminder? target p).isSome).filterMap
        (Parameter.dropReminder? target) := by
    intro ps
    rw [List.filterMap_filter]
    refine List.filterMap_congr fun p _ => ?_
    cases Parameter.dropReminder? target p <;> rfl
  rw [hpick, hpick s.parameters]
  congr 1
  refine Parameter.filter_mergeDuplicates fun p hp => ?_
  rw [Parameter.dropReminder?, Option.isSome_map] at hp
  obtain ⟨reason, hr⟩ := Option.isSome_iff_exists.1 hp
  rw [hrule p.name (Dialect.mem_exclusiveNames hr)]
  rfl

/-! ## What becomes of each parameter -/

/-- What becomes of a parameter of `s` that only Java knows, when `r` is `s` in Bedrock's
    terms. -/
inductive Fate (s r : Selector) (p : Parameter) : Prop
  /-- No stage replaces it. -/
  | left (hu : p.isUntranslated = true) (hr : p ∈ r.parameters)
  /-- Bedrock cannot express it. -/
  | dropped {reminder : Text} (hd : p.dropReminder? .bedrock = some reminder)
  /-- A range has become bounds. -/
  | bounds {pair : RangePair} {made : List Parameter} (hpair : pair ∈ rangePairs)
      (hn : p.name = pair.java) (hm : boundsOfRange? pair p.value = some made)
      (hr : ∀ q ∈ made, q ∈ r.parameters)
  /-- A game mode has become a mode. -/
  | mode {made : List Parameter} (hm : (modeOfGamemode p).value = some made)
      (hr : ∀ q ∈ made, q ∈ r.parameters)
  /-- All limits and orders have become a count, if they say anything to Bedrock. -/
  | count (hn : p.name = "limit" ∨ p.name = "sort") (hr : ∀ q ∈ countOf s, q ∈ r.parameters)
  /-- Items have become clauses of one parameter, tags and types parameters of their own. -/
  | items (clauses : List ItemClause) {found : Item.Findings}
      (hf : (findingsOf p).value = some found)
      (hi : ∀ c ∈ found.items, c ∈ clauses)
      (hc : ∀ q ∈ ItemClause.parameter? clauses, q ∈ r.parameters)
      (hx : ∀ q ∈ found.extras, q ∈ r.parameters)

theorem mem_toBedrock_of_translation (h : p ∈ s.translations) :
    p ∈ (toBedrock s).value.parameters := by
  rw [parameters_toBedrock]
  exact List.mem_append_right _ h

/-- Each parameter that only Java knows has a fate: what no stage takes up is left. -/
theorem fate_of_mem (hp : p ∈ s.parameters) (hname : p.name ∈ Dialect.javaNames) :
    Fate s (toBedrock s).value p := by
  have hplain : ∀ q ∈ s.plainTranslations, q ∈ (toBedrock s).value.parameters := fun q hq =>
    mem_toBedrock_of_translation (List.mem_append_left _ hq)
  by_cases hd : ∃ reason, Dialect.dropReason? p.name .bedrock = some reason
  · obtain ⟨reason, hd⟩ := hd
    exact .dropped (congrArg (Option.map _) hd)
  by_cases hr : ∃ pair ∈ rangePairs, ∃ made, (splitRule pair p).value = some made
  · obtain ⟨pair, hpair, made, hm⟩ := hr
    rw [splitRule_value] at hm
    split_ifs at hm with hn
    refine .bounds hpair hn hm fun q hq => hplain q ?_
    refine List.mem_append_left _ (List.mem_append_left _ (List.mem_flatMap.2 ⟨pair, hpair, ?_⟩))
    exact List.mem_flatMap.2 ⟨p.value, Parameter.mem_valuesOf.2 (hn ▸ hp), by rwa [hm]⟩
  by_cases hg : ∃ made, (modeOfGamemode p).value = some made
  · obtain ⟨made, hm⟩ := hg
    refine .mode hm fun q hq => hplain q (List.mem_append_left _ (List.mem_append_right _ ?_))
    rw [← flatMap_modeOfGamemode]
    exact List.mem_flatMap.2 ⟨p, hp, by rwa [hm]⟩
  by_cases hn : p.name = "limit" ∨ p.name = "sort"
  · exact .count hn fun q hq => hplain q (List.mem_append_right _ hq)
  by_cases hi : ∃ found, (findingsOf p).value = some found
  · obtain ⟨found, hf⟩ := hi
    have hfound : found ∈ s.findings := by
      rw [← filterMap_findingsOf]
      exact List.mem_filterMap.2 ⟨p, hp, hf⟩
    refine .items (s.findings.flatMap (·.items)) hf
      (fun c hc => List.mem_flatMap.2 ⟨found, hfound, hc⟩) (fun q hq => ?_) fun q hq => ?_
    · exact mem_toBedrock_of_translation (List.mem_append_right _
        (List.mem_append_left _ (Option.mem_toList.2 hq)))
    · exact mem_toBedrock_of_translation (List.mem_append_right _
        (List.mem_append_right _ (List.mem_flatMap.2 ⟨found, hfound, hq⟩)))
  have hready : BedrockReady p := by
    refine ⟨?_, fun pair hpair => ?_, ?_, fun h => hn (.inr h), fun h => hn (.inl h), ?_⟩
    all_goals refine Option.eq_none_iff_forall_ne_some.2 fun x hx => ?_
    · exact hd ⟨x, hx⟩
    · exact hr ⟨pair, hpair, x, hx⟩
    · exact hg ⟨x, hx⟩
    · exact hi ⟨x, hx⟩
  refine .left (isUntranslated_iff.2 ⟨hname, hready⟩) ?_
  rw [parameters_toBedrock]
  exact List.mem_append_left _ (List.mem_filter.2 ⟨hp, decide_eq_true hready⟩)

/-! ## All of it -/

/-- Of the parameters that only Java knows a selector in Bedrock's terms has exactly those
    that have no translation, as they were and in their order. The reminders begin with one for
    each parameter that was dropped because Bedrock cannot express it. Between the two merges of
    repeated parameters, all others have become parameters of Bedrock's. -/
theorem adapt_bedrock_vocabulary (settings : Settings) (s : Selector) :
    let bedrock := s.adapt .bedrock settings.mergeToHull
    bedrock.value.parameters.filter (fun p => p.name ∈ Dialect.javaNames) =
        s.parameters.filter Parameter.isUntranslated ∧
      (∃ more, bedrock.reminders =
        s.parameters.filterMap (Parameter.dropReminder? .bedrock) ++ more) ∧
      ∃ merged r : Selector, merged = s.mergeDuplicates settings.mergeToHull ∧
        bedrock.value = r.mergeDuplicates settings.mergeToHull ∧
        ∀ p ∈ merged.parameters, p.name ∈ Dialect.javaNames → Fate merged r p := by
  intro bedrock
  refine ⟨filter_javaNames_adapt _ s, ?_, _,
    (toBedrock (s.mergeDuplicates settings.mergeToHull)).value, rfl, adapt_value .., fun p hp hn =>
      fate_of_mem hp hn⟩
  rw [show bedrock = _ from adapt_eq .., inTerms, Noted.reminders_bind, toBedrock,
    Noted.reminders_bind, reminders_dropExclusive, filterMap_dropReminder?_mergeDuplicates,
    List.append_assoc]
  exact ⟨_, rfl⟩

/-- Attributes belong to Java, but they are neither translated nor listed among the
    parameters that Bedrock cannot express: they reach Bedrock without a reminder. -/
theorem adapt_bedrock_vocabulary_attributes :
    let bedrock := filter .bedrock .standard "@a[attributes=x]"
    ("attributes" : Text) ∈ Dialect.javaNames ∧
      ("attributes" : Text) ∉ rangeNames ++ (["gamemode", "nbt"] : List Text) ∧
      bedrock.value = "@a[attributes=x]" ∧ bedrock.reminders = [] := by
  decide +kernel

end Selector

end CrossEdition
