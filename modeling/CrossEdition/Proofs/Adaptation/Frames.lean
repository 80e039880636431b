import CrossEdition.Conversion
import CrossEdition.Proofs.Adaptation.ToBedrock
import CrossEdition.Proofs.Item.Clauses

/-!
# What an adaptation leaves alone

A stage of an adaptation touches a few names. The parameters of all others stay as they
are and in their order, however often a name is repeated and whatever is taken away or
added around them.

Results:
* `TouchesOnly.bind`: two stages in a row touch what one of them touches.
* `TouchesOnly.values`: the values of a name that a stage does not touch.
* `touchesOnly_mergeDuplicates`: merging touches the names that have a rule.
* `values_limitsJoined`: what the last stage to Bedrock finds as it was, and the stages before it.
* `touchesOnly_adapt`: a whole adaptation touches only the rewritten names.
* `foreign_adapt`: the other parameters are the same behind it, in a selector with
  parameters of both editions as well.
-/

namespace CrossEdition

/-- The names that drop out in a dialect. -/
def Dialect.exclusiveNames : Dialect → List Text
  | .bedrock => javaExclusive.map (·.1)
  | .java => bedrockExclusive.map (·.1)
  | .universal => []

theorem Dialect.mem_exclusiveNames {name reason : Text} {target : Dialect}
    (h : dropReason? name target = some reason) : name ∈ exclusiveNames target := by
  have hfst : ∀ {l : List (Text × Text)}, l.lookup name = some reason → name ∈ l.map (·.1) := by
    intro l hl
    obtain ⟨front, back, rfl, -⟩ := List.lookup_eq_some_iff.1 hl
    simp
  cases target with
  | bedrock => exact hfst h
  | java => exact hfst h
  | universal => simp [dropReason?] at h

/-- The three names of a quantity. -/
def RangePair.names (pair : RangePair) : List Text :=
  [pair.java, pair.min, pair.max]

@[simp] theorem RangePair.java_mem_names (pair : RangePair) : pair.java ∈ pair.names := by
  simp [names]

@[simp] theorem RangePair.min_mem_names (pair : RangePair) : pair.min ∈ pair.names := by
  simp [names]

@[simp] theorem RangePair.max_mem_names (pair : RangePair) : pair.max ∈ pair.names := by
  simp [names]

/-- The names of all quantities. -/
def quantityNames : List Text :=
  rangePairs.flatMap RangePair.names

theorem mem_quantityNames {pair : RangePair} {name : Text} (hpair : pair ∈ rangePairs)
    (hn : name ∈ pair.names) : name ∈ quantityNames :=
  List.mem_flatMap.2 ⟨pair, hpair, hn⟩

/-- The names that have a rule for merging. -/
def mergedNames : List Text :=
  maxNames ++ minNames ++ rangeNames

theorem mergeRule_of_notMem {name : Text} (h : name ∉ mergedNames) :
    mergeRule name = .keepAll := by
  rw [mergedNames, List.mem_append, List.mem_append, not_or, not_or] at h
  rw [mergeRule, if_neg h.1.1, if_neg h.1.2, if_neg h.2]

namespace Selector

variable {names : List Text} {name : Text} {s : Selector}

/-- The parameters whose names pass a test, in their order. -/
def picked (keep : Text → Bool) (s : Selector) : List Parameter :=
  s.parameters.filter fun p => keep p.name

/-- A stage touches only some names if it leaves every choice of parameters alone that
    avoids these names. -/
def TouchesOnly (names : List Text) (stage : Selector → Noted Selector) : Prop :=
  ∀ keep : Text → Bool, (∀ name ∈ names, keep name = false) →
    ∀ s, (stage s).value.picked keep = s.picked keep

namespace TouchesOnly

variable {f g : Selector → Noted Selector}

theorem mono {more : List Text} (h : TouchesOnly names f) (hsub : names ⊆ more) :
    TouchesOnly more f :=
  fun keep hkeep => h keep fun name hn => hkeep name (hsub hn)

/-- Two stages in a row touch what one of them touches. -/
theorem bind {more : List Text} (hf : TouchesOnly names f) (hg : TouchesOnly more g) :
    TouchesOnly (names ++ more) fun s => f s >>= g := by
  intro keep hkeep s
  have hleft : ∀ name ∈ names, keep name = false := fun name hn =>
    hkeep name (List.mem_append_left more hn)
  have hright : ∀ name ∈ more, keep name = false := fun name hn =>
    hkeep name (List.mem_append_right names hn)
  rw [Noted.value_bind, hg keep hright, hf keep hleft]

/-- A stage that says nothing, in front of another. -/
theorem comp {more : List Text} {step : Selector → Selector}
    (hf : TouchesOnly names fun s => pure (step s)) (hg : TouchesOnly more g) :
    TouchesOnly (names ++ more) fun s => g (step s) :=
  hf.bind hg

/-- The values of a name that a stage does not touch. -/
theorem values (h : TouchesOnly names f) (hn : name ∉ names) :
    (f s).value.values name = s.values name := by
  have hpick : ∀ s : Selector, s.values name = (s.picked (· = name)).map (·.value) := by
    intro s
    rw [Selector.values, picked]
    induction s.parameters with
    | nil => rfl
    | cons p ps ih =>
      rw [Parameter.valuesOf_cons, List.filter_cons, ih]
      by_cases hp : p.name = name <;> simp [hp]
  rw [hpick, hpick, h]
  intro other ho
  refine decide_eq_false ?_
  rintro rfl
  exact hn ho

theorem values_pure {step : Selector → Selector} (h : TouchesOnly names fun s => pure (step s))
    (hn : name ∉ names) : (step s).values name = s.values name :=
  h.values hn

/-- A stage that takes parameters of some names away and puts such behind the rest touches
    only these names. -/
theorem of_filter_append (h : ∀ s, ∃ kept made,
      (f s).value.parameters = s.parameters.filter kept ++ made ∧
        (∀ p : Parameter, p.name ∉ names → kept p = true) ∧ ∀ p ∈ made, p.name ∈ names) :
    TouchesOnly names f := by
  intro keep hkeep s
  obtain ⟨kept, made, hv, hkept, hmade⟩ := h s
  have hnone : made.filter (fun p => keep p.name) = [] := by
    rw [List.filter_eq_nil_iff]
    intro p hp
    rw [hkeep p.name (hmade p hp)]
    exact Bool.false_ne_true
  rw [picked, hv, List.filter_append, hnone, List.append_nil, List.filter_filter, picked]
  refine List.filter_congr fun p _ => ?_
  by_cases hp : p.name ∈ names
  · rw [hkeep p.name hp, Bool.false_and]
  · rw [hkept p hp, Bool.and_true]

end TouchesOnly

/-! ## Single stages -/

/-- A stage that replaces parameters touches the names that it replaces and makes. -/
theorem touchesOnly_displace {f : Rule} (hkeep : ∀ p, p.name ∉ names → (f p).value = none)
    (hmade : ∀ p made, (f p).value = some made → ∀ q ∈ made, q.name ∈ names) :
    TouchesOnly names (displace f) := by
  refine .of_filter_append fun s => ⟨_, _, rfl, fun p hp => by rw [hkeep p hp]; rfl, ?_⟩
  intro q hq
  obtain ⟨p, -, hp⟩ := List.mem_flatMap.1 hq
  cases hv : (f p).value with
  | none => simp [hv] at hp
  | some made => exact hmade p made hv q (by simpa [hv] using hp)

theorem touchesOnly_replaceVariable : TouchesOnly [] replaceVariable := by
  intro keep _ s
  rw [picked, parameters_replaceVariable, picked]

theorem touchesOnly_dropExclusive (target : Dialect) :
    TouchesOnly target.exclusiveNames (dropExclusive target) := by
  refine touchesOnly_displace (fun p hp => ?_) fun p made hm q hq => ?_
  · cases hr : Dialect.dropReason? p.name target with
    | none => rfl
    | some reason => exact absurd (Dialect.mem_exclusiveNames hr) hp
  · cases hr : Dialect.dropReason? p.name target with
    | none => simp [hr] at hm
    | some reason =>
      simp only [hr, Option.some.injEq] at hm
      simp [← hm] at hq

theorem touchesOnly_joinRange : TouchesOnly quantityNames fun s =>
    pure (rangePairs.foldl (fun s pair => s.joinRange pair) s) := by
  refine .of_filter_append fun s => ?_
  rw [Noted.value_pure, foldl_joinRange apart_rangePairs]
  refine ⟨_, _, rfl, fun p hp => List.all_eq_true.2 fun pair hpair => ?_, fun p hp => ?_⟩
  · have hne : ∀ name ∈ pair.names, p.name ≠ name := by
      rintro name hn rfl
      exact hp (mem_quantityNames hpair hn)
    simp [isBound, hne]
  · obtain ⟨pair, hpair, hj⟩ := List.mem_flatMap.1 hp
    rw [mem_joined hj]
    exact mem_quantityNames hpair pair.java_mem_names

theorem touchesOnly_splitRange : TouchesOnly quantityNames fun s =>
    rangePairs.foldlM (fun s pair => s.splitRange pair) s := by
  refine .of_filter_append fun s => ?_
  rw [foldlM_splitRange]
  refine ⟨_, _, rfl, fun p hp => List.all_eq_true.2 fun pair hpair => ?_, fun p hp => ?_⟩
  · have hjava : p.name ≠ pair.java := by
      intro hn
      exact hp (hn ▸ mem_quantityNames hpair pair.java_mem_names)
    rw [splitRule_value, if_neg hjava]
    rfl
  · obtain ⟨pair, hpair, hj⟩ := List.mem_flatMap.1 hp
    rcases name_of_mem_splitOff hj with hn | hn
    · exact hn ▸ mem_quantityNames hpair pair.min_mem_names
    · exact hn ▸ mem_quantityNames hpair pair.max_mem_names

theorem touchesOnly_gamemode : TouchesOnly ["m", "gamemode"] (displace gamemodeOfMode) := by
  refine touchesOnly_displace (fun p hp => ?_) fun p made hm q hq => ?_
  · rw [gamemodeOfMode_of_ne fun hn => hp (by simp [hn])]
    rfl
  · by_cases hp : p.name = "m"
    · obtain ⟨t, ht, -⟩ := gamemodeOfMode_value hp
      rw [ht, Option.some.injEq] at hm
      rw [← hm, List.mem_singleton] at hq
      simp [hq]
    · simp [gamemodeOfMode_of_ne hp] at hm

theorem touchesOnly_mode : TouchesOnly ["m", "gamemode"] (displace modeOfGamemode) := by
  refine touchesOnly_displace (fun p hp => ?_) fun p made hm q hq => ?_
  · rw [modeOfGamemode_of_ne fun hn => hp (by simp [hn])]
    rfl
  · obtain ⟨-, t, rfl, -⟩ := modeOfGamemode_value hm
    simp [List.mem_singleton.1 hq]

theorem touchesOnly_splitCount : TouchesOnly ["c", "limit", "sort"] splitCount := by
  refine .of_filter_append fun s => ?_
  rw [splitCount_eq]
  refine ⟨_, _, rfl, fun p hp => decide_eq_true fun hn => hp (by simp [hn]), fun p hp => ?_⟩
  rcases isPick_of_mem_picksOf hp with ⟨n, rfl⟩ | rfl | rfl <;> simp

theorem touchesOnly_joinLimit : TouchesOnly ["c", "limit", "sort"] joinLimit := by
  refine .of_filter_append fun s => ?_
  rw [joinLimit_eq]
  refine ⟨_, _, rfl, fun p hp => decide_eq_true ?_, fun p hp => ?_⟩
  · exact ⟨fun hn => hp (by simp [hn]), fun hn => hp (by simp [hn])⟩
  · obtain ⟨n, t, -, -, rfl⟩ := isCount_of_mem_countOf hp
    simp

theorem touchesOnly_itemsToNbt : TouchesOnly ["hasitem", "nbt"] itemsToNbt := by
  refine .of_filter_append fun s => ?_
  unfold itemsToNbt
  split_ifs
  · rw [Noted.value_bind, Noted.value_pure]
    refine ⟨_, _, rfl, fun p hp => decide_eq_true fun hn => hp (by simp [hn]), fun p hp => ?_⟩
    obtain ⟨t, -, rfl⟩ := List.mem_map.1 hp
    simp
  · exact ⟨fun _ => true, [], by simp, fun _ _ => rfl, by simp⟩

theorem touchesOnly_positiveScores : TouchesOnly ["scores"] (displace positiveScores) := by
  refine touchesOnly_displace (fun p hp => ?_) fun p made hm q hq => ?_
  · exact positiveScores_value.2 fun hs => hp (by simp [hs.1])
  · simp [name_of_mem_positiveScores hm hq]

/-- Items become a parameter for items, and entity markers become tags and types. -/
theorem exists_ofTexts_of_mem_itemParameters {found : List Item.Findings} {ps : List Parameter}
    {p : Parameter} (hf : ∀ f ∈ found, ∃ q ∈ ps, (findingsOf q).value = some f)
    (hp : p ∈ itemParameters found) :
    ∃ name ∈ (["hasitem", "tag", "type"] : List Text), ∃ t, p = .ofTexts name t := by
  rw [itemParameters, List.mem_append, Option.mem_toList, List.mem_flatMap] at hp
  rcases hp with hp | ⟨f, hm, hp⟩
  · unfold ItemClause.parameter? at hp
    split at hp
    · simp at hp
    all_goals exact ⟨"hasitem", by simp, _, (Option.some.inj hp).symm⟩
  · obtain ⟨q, -, hq⟩ := hf f hm
    unfold findingsOf at hq
    split_ifs at hq
    · split at hq
      · next nbt _ =>
        have hv : (Item.findings? nbt).value = some f := by
          cases he : (Item.findings? nbt).value with
          | none =>
            simp only [Noted.value_bind, he] at hq
            split_ifs at hq
          | some g => simpa [Noted.value_bind, he] using hq
        obtain ⟨name, hname, ht⟩ := Item.exists_ofTexts_of_mem_extras hv hp
        exact ⟨name, List.mem_cons_of_mem _ hname, ht⟩
      · simp at hq

theorem name_mem_itemParameters {found : List Item.Findings} {ps : List Parameter} {p : Parameter}
    (hf : ∀ f ∈ found, ∃ q ∈ ps, (findingsOf q).value = some f) (hp : p ∈ itemParameters found) :
    p.name ∈ (["hasitem", "tag", "type"] : List Text) := by
  obtain ⟨name, hname, t, rfl⟩ := exists_ofTexts_of_mem_itemParameters hf hp
  exact hname

theorem touchesOnly_gatherItems : TouchesOnly ["nbt", "hasitem", "tag", "type"] gatherItems := by
  refine .of_filter_append fun s => ⟨_, _, gatherItems_eq s, fun p hp => ?_, fun p hp => ?_⟩
  · rw [findingsOf_of_ne fun hn => hp (by simp [hn])]
    rfl
  · exact List.mem_cons_of_mem _ (name_mem_itemParameters (fun f hf => List.mem_filterMap.1 hf) hp)

/-- Merging touches only names that have a rule. -/
theorem touchesOnly_mergeDuplicates (asHull : Bool) :
    TouchesOnly mergedNames fun s => pure (s.mergeDuplicates asHull) := by
  intro keep hkeep s
  refine Parameter.filter_mergeDuplicates fun p hp => ?_
  have hn : p.name ∉ mergedNames := by
    intro hn
    rw [hkeep p.name hn] at hp
    exact Bool.false_ne_true hp
  rw [mergeRule_of_notMem hn]
  rfl

/-! ## Behind each stage to Bedrock -/

/-- The selector behind the split of its ranges. -/
def rangesSplit (s : Selector) : Selector :=
  (rangePairs.foldlM (fun (s : Selector) pair => s.splitRange pair)
    (dropExclusive .bedrock s).value).value

/-- The selector behind the change of its game modes. -/
def modesChanged (s : Selector) : Selector :=
  (displace modeOfGamemode s.rangesSplit).value

/-- The selector whose limits and orders are joined. -/
def limitsJoined (s : Selector) : Selector :=
  (joinLimit s.modesChanged).value

/-- The items are all that is left to do then. -/
theorem toBedrock_value_eq_gatherItems (s : Selector) :
    (toBedrock s).value = (gatherItems s.limitsJoined).value := by
  simp only [toBedrock, Noted.value_bind, limitsJoined, modesChanged, rangesSplit]

section Bedrock

variable (hmode : name ∉ (["m", "gamemode"] : List Text))
  (hcount : name ∉ (["c", "limit", "sort"] : List Text))
  (hexclusive : name ∉ Dialect.exclusiveNames .bedrock) (hquantity : name ∉ quantityNames)

include hexclusive hquantity in
theorem values_rangesSplit : s.rangesSplit.values name = s.values name := by
  rw [rangesSplit, touchesOnly_splitRange.values hquantity,
    (touchesOnly_dropExclusive .bedrock).values hexclusive]

include hmode hexclusive hquantity in
theorem values_modesChanged : s.modesChanged.values name = s.values name := by
  rw [modesChanged, touchesOnly_mode.values hmode, values_rangesSplit hexclusive hquantity]

include hmode hcount hexclusive hquantity in
theorem values_limitsJoined : s.limitsJoined.values name = s.values name := by
  rw [limitsJoined, touchesOnly_joinLimit.values hcount,
    values_modesChanged hmode hexclusive hquantity]

include hmode hcount in
/-- Behind the split of the ranges no stage touches the names of quantities. -/
theorem values_toBedrock_eq_rangesSplit
    (hitems : name ∉ (["nbt", "hasitem", "tag", "type"] : List Text)) :
    (toBedrock s).value.values name = s.rangesSplit.values name := by
  rw [toBedrock_value_eq_gatherItems, touchesOnly_gatherItems.values hitems, limitsJoined,
    touchesOnly_joinLimit.values hcount, modesChanged, touchesOnly_mode.values hmode]

end Bedrock

/-! ## All stages -/

/-- The names that a rewrite of a selector may be about. -/
def rewrittenNames : List Text :=
  Dialect.javaExclusive.map (·.1) ++ Dialect.bedrockExclusive.map (·.1) ++ quantityNames
    ++ (["gamemode", "m", "sort", "limit", "c", "nbt", "hasitem", "scores", "attributes", "tag",
      "type", "x", "y", "z", "dx", "dy", "dz"] : List Text)

theorem touchesOnly_toJava : TouchesOnly rewrittenNames toJava := by
  have h := touchesOnly_replaceVariable.bind <| (touchesOnly_dropExclusive .java).bind <|
    touchesOnly_joinRange.comp <| touchesOnly_gamemode.bind <| touchesOnly_splitCount.bind <|
    touchesOnly_itemsToNbt.bind touchesOnly_positiveScores
  exact h.mono (by decide)

theorem touchesOnly_toBedrock : TouchesOnly rewrittenNames toBedrock := by
  have h := (touchesOnly_dropExclusive .bedrock).bind <| touchesOnly_splitRange.bind <|
    touchesOnly_mode.bind <| touchesOnly_joinLimit.bind touchesOnly_gatherItems
  exact h.mono (by decide)

/-- A whole adaptation touches only the rewritten names. -/
theorem touchesOnly_adapt (target : Dialect) (asHull : Bool) :
    TouchesOnly rewrittenNames (adapt target asHull) := by
  have hmerge : TouchesOnly rewrittenNames fun s => pure (s.mergeDuplicates asHull) :=
    (touchesOnly_mergeDuplicates asHull).mono (by decide)
  intro keep hkeep s
  have hlast : ∀ r : Selector, (r.mergeDuplicates asHull).picked keep = r.picked keep :=
    hmerge keep hkeep
  cases target with
  | java =>
    show ((toJava (s.mergeDuplicates asHull)).value.mergeDuplicates asHull).picked keep = _
    rw [hlast, touchesOnly_toJava keep hkeep, hlast]
  | bedrock =>
    show ((toBedrock (s.mergeDuplicates asHull)).value.mergeDuplicates asHull).picked keep = _
    rw [hlast, touchesOnly_toBedrock keep hkeep, hlast]
  | universal =>
    show ((s.mergeDuplicates asHull).mergeDuplicates asHull).picked keep = _
    rw [hlast, hlast]

/-- The parameters that no rewrite is about, in their order. -/
def foreign (s : Selector) : List Parameter :=
  s.parameters.filter fun p => p.name ∉ rewrittenNames

theorem foreign_of_touchesOnly {stage : Selector → Noted Selector}
    (h : TouchesOnly rewrittenNames stage) : (stage s).value.foreign = s.foreign := by
  refine h (fun name => decide (name ∉ rewrittenNames)) ?_ s
  intro name hn
  exact decide_eq_false (not_not_intro hn)

/-- The texts of a selector with parameters of both editions are those of two adaptations. -/
theorem text_convertMixed (s : Selector) (given : Text) :
    (s.convertMixed given).value.java = (s.adapt .java true).value.text ∧
      (s.convertMixed given).value.bedrock = (s.adapt .bedrock true).value.text := by
  simp only [convertMixed, Noted.value_bind, Noted.value_pure, and_self]

/-- Parameters that no rewrite is about are the same behind it, with their values, in
    their order and as often as before. A selector with parameters of both editions is
    written out as two such rewrites. -/
theorem foreign_adapt (s : Selector) :
    (∀ (target : Dialect) (settings : Settings),
        (s.adapt target settings.mergeToHull).value.foreign = s.foreign) ∧
      ∀ given : Text,
        (s.convertMixed given).value.java = (s.adapt .java true).value.text ∧
        (s.adapt .java true).value.foreign = s.foreign ∧
        (s.convertMixed given).value.bedrock = (s.adapt .bedrock true).value.text ∧
        (s.adapt .bedrock true).value.foreign = s.foreign := by
  have hframe : ∀ (target : Dialect) (asHull : Bool),
      (s.adapt target asHull).value.foreign = s.foreign := fun target asHull =>
    foreign_of_touchesOnly (touchesOnly_adapt target asHull)
  refine ⟨fun target settings => hframe target settings.mergeToHull, fun given => ?_⟩
  obtain ⟨hjava, hbedrock⟩ := text_convertMixed s given
  exact ⟨hjava, hframe .java true, hbedrock, hframe .bedrock true⟩

end Selector

end CrossEdition
