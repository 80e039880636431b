import CrossEdition.Proofs.Adaptation.ValuesByName

/-!
# Translations to Bedrock

What a selector in Bedrock's terms consists of: first the parameters that Bedrock can have as
they are, in their order, then what the others are translated to, stage by stage. No stage
changes what an earlier one made, so each of them may be read off the selector at the start.

Results:
* `Replaces.trans`: two stages in a row keep what both of them keep.
* `parameters_toBedrock`: the parameters in Bedrock's terms.
* `head_toBedrock_eq`: the variable in Bedrock's terms.
* `values_c_toBedrock`: the counts in Bedrock's terms.
-/

namespace CrossEdition

namespace Selector

variable {s r : Selector} {p : Parameter}

instance : DecidablePred BedrockReady := fun p =>
  decidable_of_iff (Dialect.dropReason? p.name .bedrock = none ∧
      (∀ pair ∈ rangePairs, (splitRule pair p).value = none) ∧ (modeOfGamemode p).value = none ∧
      p.name ≠ "sort" ∧ p.name ≠ "limit" ∧ (findingsOf p).value = none)
    ⟨fun ⟨he, hr, hm, hs, hl, hi⟩ => ⟨he, hr, hm, hs, hl, hi⟩,
      fun h => ⟨h.exclusive, h.range, h.mode, h.sort, h.limit, h.items⟩⟩

/-! ## What is made -/

/-- The modes that the game modes of a selector become. -/
def modesOf (s : Selector) : List Parameter :=
  (s.values "gamemode").flatMap fun v => (modeOfGamemode ⟨"gamemode", v⟩).value.getD []

/-- What the `nbt` parameters of a selector say about items. -/
def findings (s : Selector) : List Item.Findings :=
  (s.values "nbt").filterMap fun v => (findingsOf ⟨"nbt", v⟩).value

/-- What the parameters of a selector are translated to, items aside. -/
def plainTranslations (s : Selector) : List Parameter :=
  (rangePairs.flatMap fun pair => splitOff pair s) ++ modesOf s ++ countOf s

/-- What the parameters of a selector are translated to. -/
def translations (s : Selector) : List Parameter :=
  s.plainTranslations ++ itemParameters s.findings

/-- What a rule for one name gives depends on the values of that name. -/
theorem flatMap_eq_values {α : Type} {g : Parameter → List α} {name : Text}
    (h : ∀ p, p.name ≠ name → g p = []) (s : Selector) :
    s.parameters.flatMap g = (s.values name).flatMap fun v => g ⟨name, v⟩ := by
  rw [values]
  induction s.parameters with
  | nil => rfl
  | cons p ps ih =>
    rw [List.flatMap_cons, ih, Parameter.valuesOf_cons]
    by_cases hn : p.name = name
    · rw [if_pos hn, List.flatMap_cons, ← hn]
    · rw [if_neg hn, h p hn, List.nil_append]

theorem flatMap_modeOfGamemode (s : Selector) :
    (s.parameters.flatMap fun p => (modeOfGamemode p).value.getD []) = modesOf s :=
  flatMap_eq_values (fun p hp => by rw [modeOfGamemode_of_ne hp]; rfl) s

theorem filterMap_findingsOf (s : Selector) :
    (s.parameters.filterMap fun p => (findingsOf p).value) = findings s := by
  rw [findings, List.filterMap_eq_flatMap_toList, List.filterMap_eq_flatMap_toList]
  exact flatMap_eq_values (fun p hp => by rw [findingsOf_of_ne hp]; rfl) s

theorem mem_modesOf (h : p ∈ modesOf s) : p.name = "m" := by
  obtain ⟨v, -, hv⟩ := List.mem_flatMap.1 h
  cases hm : (modeOfGamemode ⟨"gamemode", v⟩).value with
  | none =>
    rw [hm] at hv
    exact absurd hv (List.not_mem_nil)
  | some made =>
    obtain ⟨-, t, rfl, -⟩ := modeOfGamemode_value hm
    rw [hm, Option.getD_some, List.mem_singleton] at hv
    rw [hv, Parameter.name_ofTexts]

theorem mem_countOf (h : p ∈ countOf s) : p.name = "c" := by
  obtain ⟨n, t, -, -, rfl⟩ := isCount_of_mem_countOf h
  rfl

/-- Bounds, modes and counts have Bedrock's names. -/
theorem name_mem_plainTranslations (h : p ∈ s.plainTranslations) : p.name ∈ bedrockMade := by
  have hnames : ∀ pair ∈ rangePairs, pair.min ∈ bedrockMade ∧ pair.max ∈ bedrockMade := by
    decide
  rw [plainTranslations, List.mem_append, List.mem_append] at h
  rcases h with (h | h) | h
  · obtain ⟨pair, hpair, hp⟩ := List.mem_flatMap.1 h
    rcases name_of_mem_splitOff hp with hn | hn
    · exact hn ▸ (hnames pair hpair).1
    · exact hn ▸ (hnames pair hpair).2
  · rw [mem_modesOf h]
    decide
  · rw [mem_countOf h]
    decide

theorem name_mem_itemParameters_findings (h : p ∈ itemParameters s.findings) :
    p.name ∈ (["hasitem", "tag", "type"] : List Text) := by
  refine @name_mem_itemParameters _ s.parameters _ (fun f hf => ?_) h
  rw [← filterMap_findingsOf] at hf
  exact List.mem_filterMap.1 hf

theorem name_mem_translations (h : p ∈ s.translations) :
    p.name ∈ bedrockMade ∨ p.name ∈ (["hasitem", "tag", "type"] : List Text) :=
  (List.mem_append.1 h).imp name_mem_plainTranslations name_mem_itemParameters_findings

/-- Nothing that an earlier stage made is taken away by a later one. -/
theorem bedrockReady_of_mem_plainTranslations (h : p ∈ s.plainTranslations) : BedrockReady p :=
  bedrockReady_of_made (name_mem_plainTranslations h)

/-! ## What a translation looks at -/

theorem splitOff_congr {pair : RangePair} (h : r.values pair.java = s.values pair.java) :
    splitOff pair r = splitOff pair s := by
  rw [splitOff, h, splitOff]

theorem modesOf_congr (h : r.values "gamemode" = s.values "gamemode") : modesOf r = modesOf s := by
  rw [modesOf, h, modesOf]

/-- A count stands for the variable, the orders and the limits. -/
theorem pickOf_congr (hhead : r.head = s.head) (hsort : r.values "sort" = s.values "sort")
    (hlimit : r.values "limit" = s.values "limit") : pickOf r = pickOf s := by
  rw [pickOf, hhead, hsort, hlimit, pickOf]

theorem findings_congr (h : r.values "nbt" = s.values "nbt") : findings r = findings s := by
  rw [findings, h, findings]

/-! ## Stage by stage -/

/-! ### What a stage finds as it was -/

theorem head_modesChanged (s : Selector) : s.modesChanged.head = s.head := by
  rw [modesChanged, head_displace, rangesSplit, head_foldlM_splitRange]
  rfl

theorem splitOff_dropExclusive {pair : RangePair} (hpair : pair ∈ rangePairs) (s : Selector) :
    splitOff pair (dropExclusive .bedrock s).value = splitOff pair s :=
  splitOff_congr ((touchesOnly_dropExclusive .bedrock).values
    (rangeNames_notMem pair hpair _ pair.java_mem_names).2.1)

theorem modesOf_rangesSplit (s : Selector) : modesOf s.rangesSplit = modesOf s :=
  modesOf_congr (values_rangesSplit (by decide) (by decide))

theorem pickOf_modesChanged (s : Selector) : pickOf s.modesChanged = pickOf s :=
  pickOf_congr (head_modesChanged s)
    (values_modesChanged (by decide) (by decide) (by decide))
    (values_modesChanged (by decide) (by decide) (by decide))

theorem findings_limitsJoined (s : Selector) : findings s.limitsJoined = findings s :=
  findings_congr (values_limitsJoined (by decide) (by decide) (by decide) (by decide))

/-! ### What a stage keeps and makes -/

/-- Whether a stage keeps the parameters that pass a test, in their order, and puts those that
    it makes behind them. -/
def Replaces (keep : Parameter → Bool) (made : List Parameter) (s r : Selector) : Prop :=
  r.parameters = s.parameters.filter keep ++ made

/-- Two stages in a row, of which the second takes away nothing that the first one made. -/
theorem Replaces.trans {keep keep' : Parameter → Bool} {made made' : List Parameter}
    {t : Selector} (h : Replaces keep made s r) (h' : Replaces keep' made' r t)
    (hmade : ∀ p ∈ made, keep' p = true) :
    Replaces (fun p => keep p && keep' p) (made ++ made') s t := by
  rw [Replaces, h', h, List.filter_append, List.filter_eq_self.2 hmade, List.filter_filter,
    List.append_assoc]
  simp only [Bool.and_comm]

theorem replaces_dropExclusive (target : Dialect) (s : Selector) :
    Replaces (fun p => (Dialect.dropReason? p.name target).isNone) [] s
      (dropExclusive target s).value := by
  refine congrArg₂ (· ++ ·) (List.filter_congr fun p _ => ?_) (List.flatMap_eq_nil_iff.2 ?_)
  · beta_reduce
    cases Dialect.dropReason? p.name target <;> rfl
  · intro p _
    beta_reduce
    cases Dialect.dropReason? p.name target <;> rfl

theorem replaces_rangesSplit (s : Selector) :
    Replaces (fun p => rangePairs.all fun pair => (splitRule pair p).value.isNone)
      (rangePairs.flatMap fun pair => splitOff pair s) (dropExclusive .bedrock s).value
      s.rangesSplit := by
  have hbounds : (rangePairs.flatMap fun pair => splitOff pair (dropExclusive .bedrock s).value) =
      rangePairs.flatMap fun pair => splitOff pair s :=
    List.flatMap_congr fun pair hpair => splitOff_dropExclusive hpair s
  rw [Replaces, rangesSplit, foldlM_splitRange, hbounds]

theorem replaces_modesChanged (s : Selector) :
    Replaces (fun p => (modeOfGamemode p).value.isNone) (modesOf s) s.rangesSplit
      s.modesChanged := by
  rw [Replaces, modesChanged, ← modesOf_rangesSplit, ← flatMap_modeOfGamemode, displace]

theorem replaces_limitsJoined (s : Selector) :
    Replaces (fun p => p.name ≠ "sort" ∧ p.name ≠ "limit") (countOf s) s.modesChanged
      s.limitsJoined := by
  rw [Replaces, limitsJoined, joinLimit_eq, countOf, pickOf_modesChanged, countOf]

theorem replaces_toBedrock (s : Selector) :
    Replaces (fun p => (findingsOf p).value.isNone) (itemParameters s.findings) s.limitsJoined
      (toBedrock s).value := by
  rw [Replaces, toBedrock_value_eq_gatherItems, gatherItems_eq, filterMap_findingsOf,
    findings_limitsJoined]

/-- All stages keep what Bedrock can have as it is. -/
theorem bedrockReady_iff : BedrockReady p ↔
    ((((Dialect.dropReason? p.name .bedrock).isNone &&
      rangePairs.all fun pair => (splitRule pair p).value.isNone) &&
      (modeOfGamemode p).value.isNone) && decide (p.name ≠ "sort" ∧ p.name ≠ "limit") &&
      (findingsOf p).value.isNone) = true := by
  simp only [Bool.and_eq_true, List.all_eq_true, Option.isNone_iff_eq_none, decide_eq_true_eq]
  constructor
  · exact fun h => ⟨⟨⟨⟨h.exclusive, h.range⟩, h.mode⟩, h.sort, h.limit⟩, h.items⟩
  · rintro ⟨⟨⟨⟨he, hr⟩, hm⟩, hs, hl⟩, hi⟩
    exact ⟨he, hr, hm, hs, hl, hi⟩

/-- The parameters in Bedrock's terms: those that it can have as they are, then the
    translations of the others. -/
theorem parameters_toBedrock (s : Selector) : (toBedrock s).value.parameters =
    s.parameters.filter (fun p => BedrockReady p) ++ s.translations := by
  have hranges := (replaces_dropExclusive .bedrock s).trans (replaces_rangesSplit s) (by simp)
  have hmodes := hranges.trans (replaces_modesChanged s) fun q hq => by
    have hready : BedrockReady q := bedrockReady_of_mem_plainTranslations
      (List.mem_append_left _ (List.mem_append_left _ hq))
    rw [hready.mode]
    rfl
  have hcount := hmodes.trans (replaces_limitsJoined s) fun q hq => by
    have hready : BedrockReady q :=
      bedrockReady_of_mem_plainTranslations (List.mem_append_left _ hq)
    exact decide_eq_true ⟨hready.sort, hready.limit⟩
  have hitems := hcount.trans (replaces_toBedrock s) fun q hq => by
    rw [(bedrockReady_of_mem_plainTranslations hq).items]
    rfl
  rw [hitems, translations, plainTranslations]
  refine congrArg₂ (· ++ ·) (List.filter_congr fun p _ => ?_) (by simp)
  rw [Bool.eq_iff_iff, decide_eq_true_iff]
  exact bedrockReady_iff.symm

/-- The variable in Bedrock's terms depends on limits and orders only. -/
theorem head_toBedrock_eq (s : Selector) : (toBedrock s).value.head = (pickOf s).1 := by
  rw [toBedrock_value_eq_gatherItems, head_gatherItems, limitsJoined, joinLimit_eq,
    pickOf_modesChanged]

/-! ## Counts -/

theorem valuesOf_plainTranslations_c (s : Selector) :
    Parameter.valuesOf "c" s.plainTranslations = ((pickOf s).2.map Value.read).toList := by
  have hbounds : Parameter.valuesOf "c" (rangePairs.flatMap fun pair => splitOff pair s) = [] := by
    have hne : ∀ pair ∈ rangePairs, pair.min ≠ "c" ∧ pair.max ≠ "c" := by
      decide
    refine Parameter.valuesOf_eq_nil_iff.2 fun p hp => ?_
    obtain ⟨pair, hpair, hp⟩ := List.mem_flatMap.1 hp
    rcases name_of_mem_splitOff hp with hn | hn
    · exact hn ▸ (hne pair hpair).1
    · exact hn ▸ (hne pair hpair).2
  have hmodes : Parameter.valuesOf "c" (modesOf s) = [] := by
    refine Parameter.valuesOf_eq_nil_iff.2 fun p hp => ?_
    rw [mem_modesOf hp]
    decide
  rw [plainTranslations, Parameter.valuesOf_append, Parameter.valuesOf_append, hbounds, hmodes,
    countOf]
  cases (pickOf s).2 <;> rfl

/-- In Bedrock's terms the count for limits and orders stands behind the counts. -/
theorem values_c_toBedrock (s : Selector) : (toBedrock s).value.values "c" =
    s.values "c" ++ ((pickOf s).2.map Value.read).toList := by
  have hitems : Parameter.valuesOf "c" (itemParameters s.findings) = [] := by
    refine Parameter.valuesOf_eq_nil_iff.2 fun p hp hn => ?_
    have hnames := name_mem_itemParameters_findings hp
    rw [hn] at hnames
    exact absurd hnames (by decide)
  rw [values, parameters_toBedrock, Parameter.valuesOf_append, translations,
    Parameter.valuesOf_append, valuesOf_plainTranslations_c, hitems, List.append_nil, values]
  congr 1
  refine Parameter.valuesOf_filter fun p _ hn => decide_eq_true (bedrockReady_of_made ?_)
  rw [hn]
  decide

/-- In Bedrock's terms there are no limits and orders. -/
theorem values_pick_toBedrock {name : Text} (hname : name = "sort" ∨ name = "limit")
    (s : Selector) : (toBedrock s).value.values name = [] := by
  rw [values, Parameter.valuesOf_eq_nil_iff, parameters_toBedrock]
  rintro p hp rfl
  rcases List.mem_append.1 hp with hp | hp
  · have hready : BedrockReady p := of_decide_eq_true (List.mem_filter.1 hp).2
    exact hname.elim hready.sort hready.limit
  · have hnames := name_mem_translations hp
    rcases hname with hn | hn <;> (rw [hn] at hnames; revert hnames; decide)

end Selector

end CrossEdition
