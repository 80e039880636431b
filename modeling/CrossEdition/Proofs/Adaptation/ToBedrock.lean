import CrossEdition.Adaptation.ToBedrock
import CrossEdition.Proofs.Adaptation.ToJava

/-!
# Where Bedrock's parameters come from

Each parameter of a selector in Bedrock's terms was kept, because Bedrock can have it as
it is or nothing better is known, or one of the stages made it.

Results:
* `foldlM_splitRange`: the bounds that the ranges of a selector are split into.
* `originsInBedrock`: where a parameter in Bedrock's terms comes from.
* `toBedrock_value_eq_split`: of a selector that Bedrock can have but for its ranges, only
  those change.
* `toBedrock_value`: a selector that Bedrock can have is not changed.
-/

namespace CrossEdition

namespace Selector

variable {s : Selector} {p : Parameter} {pair : RangePair}

/-! ## Splitting ranges -/

/-- The rule that splits the ranges of one quantity. -/
def splitRule (pair : RangePair) : Rule := fun p =>
  if p.name = pair.java then
    match boundsOfRange? pair p.value with
    | some bounds => pure (some bounds)
    | none => ⟨none, [.unconvertedRange pair.java p.value]⟩
  else pure none

theorem splitRange_eq (pair : RangePair) (s : Selector) :
    splitRange pair s = displace (splitRule pair) s := rfl

theorem splitRule_value (pair : RangePair) (p : Parameter) :
    (splitRule pair p).value = if p.name = pair.java then boundsOfRange? pair p.value else none := by
  unfold splitRule
  split_ifs
  · cases boundsOfRange? pair p.value <;> rfl
  · rfl

/-- The bounds of a range are numerals. -/
theorem mem_boundsOfRange? {v : Value} {made : List Parameter} {q : Parameter}
    (h : boundsOfRange? pair v = some made) (hq : q ∈ made) :
    ∃ name t, q = .ofTexts name t ∧ (name = pair.min ∨ name = pair.max) ∧
      (v.Faithful → Numeral.isNumeral t = true) := by
  cases v with
  | scalar t =>
    simp only [boundsOfRange?, Option.some.injEq] at h
    rw [← h, List.mem_append] at hq
    rcases hq with hq | hq
    · split_ifs at hq
      · exact ⟨_, t, List.mem_singleton.1 hq, .inl rfl, Value.Faithful.isNumeral⟩
      · simp at hq
    · exact ⟨_, t, List.mem_singleton.1 hq, .inr rfl, Value.Faithful.isNumeral⟩
  | range b =>
    simp only [boundsOfRange?, Option.some.injEq] at h
    rw [← h, List.mem_append, Option.mem_toList, Option.mem_toList] at hq
    rcases hq with hq | hq
    · obtain ⟨t, ht, rfl⟩ := Option.map_eq_some_iff.1 hq
      exact ⟨_, _, rfl, .inl rfl, fun hf => Numeral.normalize_isNumeral (hf t (.inl ht))⟩
    · obtain ⟨t, ht, rfl⟩ := Option.map_eq_some_iff.1 hq
      exact ⟨_, _, rfl, .inr rfl, fun hf => Numeral.normalize_isNumeral (hf t (.inr ht))⟩
  | compound | literal => simp [boundsOfRange?] at h

theorem boundsOfRange?_eq_none (pair : RangePair) {v : Value} :
    boundsOfRange? pair v = none ↔ v.bounds? = none := by
  cases v <;> simp [boundsOfRange?, Value.bounds?]

theorem before_splitRule : (rangePairs.map splitRule).Pairwise Rule.Before := by
  have hpairs : rangePairs.Pairwise fun a b =>
      a.java ≠ b.java ∧ a.min ≠ b.java ∧ a.max ≠ b.java := by
    decide
  rw [List.pairwise_map]
  refine hpairs.imp fun {a b} hab p made hm => ?_
  rw [splitRule_value] at hm
  split_ifs at hm with hn
  refine ⟨by rw [splitRule_value, if_neg fun he => hab.1 (hn.symm.trans he)], fun q hq => ?_⟩
  obtain ⟨name, t, rfl, hname, -⟩ := mem_boundsOfRange? hm hq
  rw [splitRule_value, if_neg]
  rcases hname with rfl | rfl
  · exact hab.2.1
  · exact hab.2.2

/-- The bounds that the ranges of one quantity become. -/
def splitOff (pair : RangePair) (s : Selector) : List Parameter :=
  (s.values pair.java).flatMap fun v => (boundsOfRange? pair v).getD []

theorem splitOff_eq (pair : RangePair) (s : Selector) :
    (s.parameters.flatMap fun p => (splitRule pair p).value.getD []) = splitOff pair s := by
  rw [splitOff, values]
  induction s.parameters with
  | nil => rfl
  | cons p ps ih =>
    rw [List.flatMap_cons, ih, Parameter.valuesOf_cons, splitRule_value]
    split_ifs <;> rfl

theorem name_of_mem_splitOff {q : Parameter} (h : q ∈ splitOff pair s) :
    q.name = pair.min ∨ q.name = pair.max := by
  obtain ⟨v, -, hv⟩ := List.mem_flatMap.1 h
  cases hb : boundsOfRange? pair v with
  | none => simp [hb] at hv
  | some made =>
    rw [hb, Option.getD_some] at hv
    obtain ⟨name, t, rfl, hname, -⟩ := mem_boundsOfRange? hb hv
    exact hname

/-- Splitting all ranges of a selector. -/
theorem foldlM_splitRange (s : Selector) :
    (rangePairs.foldlM (fun (s : Selector) pair => s.splitRange pair) s).value = { s with
      parameters := s.parameters.filter
          (fun p => rangePairs.all fun pair => (splitRule pair p).value.isNone)
        ++ rangePairs.flatMap fun pair => splitOff pair s } := by
  have h := foldlM_displace before_splitRule s
  simp only [List.foldlM_map, List.all_map, List.flatMap_map, Function.comp_def, splitOff_eq] at h
  exact h

/-! ## Game modes -/

theorem modeOfGamemode_of_ne (h : p.name ≠ "gamemode") : modeOfGamemode p = pure none := by
  rw [modeOfGamemode, if_neg h]

/-- A mode that is left has no note. -/
theorem modeOfGamemode_of_none (h : (modeOfGamemode p).value = none) :
    modeOfGamemode p = pure none := by
  simp only [modeOfGamemode] at h ⊢
  split_ifs at h ⊢ <;> rfl

theorem modeOfGamemode_value {made : List Parameter} (h : (modeOfGamemode p).value = some made) :
    p.name = "gamemode" ∧ ∃ t, made = [.ofTexts "m" t] ∧ IsMode t := by
  obtain ⟨-, hneg⟩ := splitNegation_append p.value.text
  simp only [modeOfGamemode] at h
  split_ifs at h with hn hm hs
  · refine ⟨hn, _, (Option.some.inj h).symm, isMode_of_negation hneg ?_⟩
    simpa using hm
  · exact ⟨hn, _, (Option.some.inj h).symm, isMode_of_negation hneg (by decide)⟩

/-! ## Limit and order -/

/-- The parameters that a limit becomes: a count with or without a minus sign. -/
def IsCount (p : Parameter) : Prop :=
  ∃ n t, Numeral.isNumeral n = true ∧ (t = n ∨ t = '-' :: n) ∧ p = .ofTexts "c" t

theorem isPositiveCount_iff {t : Text} : isPositiveCount t = true ↔
    ∃ x, Numeral.value? t = some x ∧ (Double.ofInt 1).le x = true ∧ x.isWhole = true := by
  unfold isPositiveCount
  cases Numeral.value? t <;> simp

theorem isNumeral_normalize_of_isPositiveCount {t : Text} (h : isPositiveCount t = true) :
    Numeral.isNumeral (Numeral.normalize t) = true := by
  obtain ⟨x, hx, -⟩ := isPositiveCount_iff.1 h
  exact Numeral.isNumeral_normalize (Numeral.isNumeral_trim hx)

theorem isNumeral_limit? {limits : List Value} {n : Text} (h : limit? limits = some n) :
    Numeral.isNumeral n = true := by
  obtain ⟨t, ht, rfl⟩ := Option.map_eq_some_iff.1 h
  exact isNumeral_normalize_of_isPositiveCount (List.mem_filter.1 (Numeral.best?_mem ht)).2

theorem countFor_value (head : Variable) (sort limit : Option Text)
    (hl : ∀ n ∈ limit, Numeral.isNumeral n = true) :
    ((countFor head sort limit).value.1 = head ∨
        (countFor head sort limit).value.1 = .randomPlayer) ∧
      ∀ t ∈ (countFor head sort limit).value.2, IsCount (.ofTexts "c" t) := by
  have hlimit : ∀ t ∈ limit, IsCount (.ofTexts "c" t) := fun t ht =>
    ⟨t, t, hl t ht, .inl rfl, rfl⟩
  have hall : IsCount (.ofTexts "c" "9999") := ⟨"9999", "9999", by decide, .inl rfl, rfl⟩
  unfold countFor
  split
  · simp only
    split_ifs
    · exact ⟨.inl rfl, hlimit⟩
    · exact ⟨.inl rfl, hlimit⟩
  · split_ifs
    · exact ⟨.inl rfl, hlimit⟩
    · split
      · next n =>
        refine ⟨.inl rfl, fun t ht => ?_⟩
        rw [← Option.some.inj ht]
        exact ⟨n, '-' :: n, hl n rfl, .inr rfl, rfl⟩
      · refine ⟨.inl rfl, fun t ht => ?_⟩
        rw [← Option.some.inj ht]
        exact ⟨"9999", "-9999", by decide, .inr rfl, rfl⟩
    · refine ⟨.inr rfl, fun t ht => ?_⟩
      rw [← Option.some.inj ht]
      cases limit with
      | none => exact hall
      | some n => exact hlimit n rfl
    · exact ⟨.inl rfl, hlimit⟩
    · exact ⟨.inl rfl, hlimit⟩
    · exact ⟨.inl rfl, hlimit⟩
    · exact ⟨.inl rfl, hlimit⟩

theorem joinLimit_of_nil (hs : s.values "sort" = []) (hl : s.values "limit" = []) :
    joinLimit s = pure s := by
  simp only [joinLimit]
  rw [if_pos ⟨hs, hl⟩]

/-- The variable and the count that the limits and orders of a selector stand for. -/
def pickOf (s : Selector) : Variable × Option Text :=
  (countFor s.head ((s.values "sort").getLast?.map Value.text) (limit? (s.values "limit"))).value

/-- The parameter for that count. -/
def countOf (s : Selector) : List Parameter :=
  ((pickOf s).2.map (Parameter.ofTexts "c")).toList

/-- Limits and orders go, and the count that they stand for comes in their place. -/
theorem joinLimit_eq (s : Selector) : (joinLimit s).value =
    ⟨(pickOf s).1, s.parameters.filter (fun p : Parameter => p.name ≠ "sort" ∧ p.name ≠ "limit")
      ++ countOf s⟩ := by
  by_cases h : s.values "sort" = [] ∧ s.values "limit" = []
  · have hpick : pickOf s = (s.head, none) := by
      rw [pickOf, h.1, h.2]
      rfl
    have hf : s.parameters.filter (fun p : Parameter => p.name ≠ "sort" ∧ p.name ≠ "limit") =
        s.parameters := by
      refine List.filter_eq_self.2 fun p hp => decide_eq_true ⟨?_, ?_⟩
      · exact Parameter.valuesOf_eq_nil_iff.1 h.1 p hp
      · exact Parameter.valuesOf_eq_nil_iff.1 h.2 p hp
    rw [joinLimit_of_nil h.1 h.2, countOf, hpick, hf]
    exact congrArg (Selector.mk s.head) (List.append_nil _).symm
  · have hv : (joinLimit s).value =
        { (s.erase "sort").erase "limit" with head := (pickOf s).1 }.append (countOf s) := by
      simp only [joinLimit]
      rw [if_neg h, countOf, pickOf]
      split_ifs <;> rfl
    rw [hv]
    simp only [append, erase, Parameter.without, List.filter_filter, Bool.decide_and,
      Bool.and_comm]

theorem pickOf_spec (s : Selector) : ((pickOf s).1 = s.head ∨ (pickOf s).1 = .randomPlayer) ∧
    ∀ t ∈ (pickOf s).2, IsCount (.ofTexts "c" t) :=
  countFor_value s.head _ _ fun _ hn => isNumeral_limit? hn

theorem isCount_of_mem_countOf {q : Parameter} (h : q ∈ countOf s) : IsCount q := by
  obtain ⟨t, ht, rfl⟩ := Option.map_eq_some_iff.1 (Option.mem_toList.1 h)
  exact (pickOf_spec s).2 t ht

/-! ## Items -/

/-- The parameters that findings become. -/
def itemParameters (found : List Item.Findings) : List Parameter :=
  (ItemClause.parameter? (found.flatMap (·.items))).toList ++ found.flatMap (·.extras)

theorem findingsOf_of_ne (h : p.name ≠ "nbt") : findingsOf p = pure none := by
  rw [findingsOf, if_neg h]

/-- What an `nbt` parameter that holds a compound says. -/
theorem findingsOf_compound (nbt : Text) :
    (findingsOf ⟨"nbt", .compound nbt⟩).value = (Item.findings? nbt).value := by
  unfold findingsOf
  rw [if_pos rfl]
  simp only [Noted.value_bind]
  cases (Item.findings? nbt).value with
  | some found => rfl
  | none => split_ifs <;> rfl

theorem gatherItems_eq (s : Selector) : (gatherItems s).value.parameters =
    s.parameters.filter (fun p => (findingsOf p).value.isNone)
      ++ itemParameters (s.parameters.filterMap fun p => (findingsOf p).value) :=
  List.append_assoc _ _ _

/-! ## All stages -/

/-- A parameter that Bedrock can have as it is. -/
structure BedrockReady (p : Parameter) : Prop where
  exclusive : Dialect.dropReason? p.name .bedrock = none
  range : ∀ pair ∈ rangePairs, (splitRule pair p).value = none
  mode : (modeOfGamemode p).value = none
  sort : p.name ≠ "sort"
  limit : p.name ≠ "limit"
  items : (findingsOf p).value = none

/-- Where a parameter comes from when a selector is put in Bedrock's terms. -/
inductive BedrockOrigin (s : Selector) : Parameter → Prop
  | kept {p : Parameter} (hp : p ∈ s.parameters) (hr : BedrockReady p) : BedrockOrigin s p
  | bound {pair : RangePair} {p q : Parameter} {made : List Parameter} (hpair : pair ∈ rangePairs)
      (hp : p ∈ s.parameters) (hm : (splitRule pair p).value = some made) (hq : q ∈ made) :
      BedrockOrigin s q
  | mode {p : Parameter} {t : Text} (hp : p ∈ s.parameters) (hn : p.name = "gamemode")
      (ht : IsMode t) : BedrockOrigin s (.ofTexts "m" t)
  | count {p : Parameter} (hp : IsCount p) : BedrockOrigin s p
  | items {found : List Item.Findings} {q : Parameter}
      (hf : ∀ f ∈ found, ∃ p ∈ s.parameters, (findingsOf p).value = some f)
      (hq : q ∈ itemParameters found) : BedrockOrigin s q

/-- The names of the parameters that the stages make, items aside. -/
def bedrockMade : List Text :=
  ["rm", "r", "rxm", "rx", "rym", "ry", "lm", "l", "m", "c"]

section Stages

variable {r : Selector} {keep : Parameter → Prop}

theorem origin_splitRange (hr : ∀ q ∈ r.parameters, q ∈ s.parameters ∧ keep q)
    (h : p ∈ (rangePairs.foldlM (fun (s : Selector) pair => s.splitRange pair) r).value.parameters) :
    SoFar s (BedrockOrigin s) bedrockMade
      (fun q => keep q ∧ ∀ pair ∈ rangePairs, (splitRule pair q).value = none) p := by
  have hnames : ∀ pair ∈ rangePairs, pair.min ∈ bedrockMade ∧ pair.max ∈ bedrockMade := by
    decide
  refine SoFar.step (fun q hq => .inl (hr q hq)) ?_
  rw [foldlM_splitRange, List.mem_append, List.mem_filter, List.mem_flatMap] at h
  rcases h with ⟨hp, hb⟩ | ⟨pair, hpair, hj⟩
  · exact .inl ⟨hp, by simpa using hb⟩
  · rw [← splitOff_eq] at hj
    obtain ⟨q, hq, hj⟩ := List.mem_flatMap.1 hj
    cases hv : (splitRule pair q).value with
    | none => simp [hv] at hj
    | some made =>
      rw [hv, Option.getD_some] at hj
      have hm := hv
      rw [splitRule_value] at hm
      split_ifs at hm
      obtain ⟨name, t, rfl, hname, -⟩ := mem_boundsOfRange? hm hj
      refine .inr ⟨.bound hpair (hr q hq).1 hv hj, ?_⟩
      rw [Parameter.name_ofTexts]
      rcases hname with rfl | rfl
      · exact (hnames pair hpair).1
      · exact (hnames pair hpair).2

theorem origin_mode (hr : ∀ q ∈ r.parameters, SoFar s (BedrockOrigin s) bedrockMade keep q)
    (h : p ∈ (displace modeOfGamemode r).value.parameters) :
    SoFar s (BedrockOrigin s) bedrockMade
      (fun q => keep q ∧ (modeOfGamemode q).value = none) p := by
  refine SoFar.step hr ?_
  rcases mem_displace.1 h with h | ⟨q, hq, made, hm, hp⟩
  · exact .inl h
  · obtain ⟨hn, t, rfl, ht⟩ := modeOfGamemode_value hm
    have hs := (hr q hq).of_notMem (by rw [hn]; decide)
    rw [List.mem_singleton.1 hp]
    exact .inr ⟨.mode hs.1 hn ht, by rw [Parameter.name_ofTexts]; decide⟩

theorem origin_joinLimit (hr : ∀ q ∈ r.parameters, SoFar s (BedrockOrigin s) bedrockMade keep q)
    (h : p ∈ (joinLimit r).value.parameters) :
    SoFar s (BedrockOrigin s) bedrockMade
      (fun q => keep q ∧ q.name ≠ "sort" ∧ q.name ≠ "limit") p := by
  refine SoFar.step hr ?_
  rw [joinLimit_eq, List.mem_append, List.mem_filter] at h
  rcases h with ⟨hp, hn⟩ | h
  · exact .inl ⟨hp, of_decide_eq_true hn⟩
  · refine .inr ⟨.count (isCount_of_mem_countOf h), ?_⟩
    obtain ⟨n, t, -, -, rfl⟩ := isCount_of_mem_countOf h
    rw [Parameter.name_ofTexts]
    decide

end Stages

/-- Where a parameter in Bedrock's terms comes from. -/
theorem originsInBedrock (h : p ∈ (toBedrock s).value.parameters) : BedrockOrigin s p := by
  simp only [toBedrock, Noted.value_bind] at h
  generalize h₁ : (dropExclusive .bedrock s).value = s₁ at h
  generalize h₂ : (rangePairs.foldlM (fun (s : Selector) pair => s.splitRange pair) s₁).value =
    s₂ at h
  generalize h₃ : (displace modeOfGamemode s₂).value = s₃ at h
  generalize h₄ : (joinLimit s₃).value = s₄ at h
  have k₁ : ∀ q ∈ s₁.parameters,
      q ∈ s.parameters ∧ Dialect.dropReason? q.name .bedrock = none := by
    intro q hq
    rwa [← h₁, dropExclusive_mem] at hq
  have k₂ := fun q (hq : q ∈ s₂.parameters) => origin_splitRange k₁ (h₂ ▸ hq)
  have k₃ := fun q (hq : q ∈ s₃.parameters) => origin_mode k₂ (h₃ ▸ hq)
  have k₄ := fun q (hq : q ∈ s₄.parameters) => origin_joinLimit k₃ (h₄ ▸ hq)
  rw [gatherItems_eq, List.mem_append, List.mem_filter, Option.isNone_iff_eq_none] at h
  rcases h with ⟨hp, hv⟩ | h
  · rcases k₄ p hp with ⟨hs, ⟨⟨he, hb⟩, hm⟩, hsort, hlimit⟩ | ⟨ho, -⟩
    · exact .kept hs ⟨he, hb, hm, hsort, hlimit, hv⟩
    · exact ho
  · refine .items (fun f hf => ?_) h
    obtain ⟨q, hq, hv⟩ := List.mem_filterMap.1 hf
    have hn : q.name = "nbt" := by
      by_contra hn
      simp [findingsOf_of_ne hn] at hv
    exact ⟨q, ((k₄ q hq).of_notMem (by rw [hn]; decide)).1, hv⟩

@[simp] theorem head_gatherItems (s : Selector) : (gatherItems s).value.head = s.head := rfl

theorem head_foldlM_splitRange (s : Selector) :
    (rangePairs.foldlM (fun (s : Selector) pair => s.splitRange pair) s).value.head = s.head := by
  rw [foldlM_splitRange]

theorem head_toBedrock (s : Selector) :
    (toBedrock s).value.head = s.head ∨ (toBedrock s).value.head = .randomPlayer := by
  simp only [toBedrock, Noted.value_bind, head_gatherItems]
  generalize h₂ : (rangePairs.foldlM (fun (s : Selector) pair => s.splitRange pair)
    (dropExclusive .bedrock s).value).value = s₂
  have hh : s₂.head = s.head := by
    rw [← h₂, head_foldlM_splitRange]
    rfl
  have hl := (pickOf_spec (displace modeOfGamemode s₂).value).1
  rwa [← hh, joinLimit_eq]

/-! ## Nothing to do -/

theorem foldlM_splitRange_eq_self
    (h : ∀ p ∈ s.parameters, ∀ pair ∈ rangePairs, (splitRule pair p).value = none) :
    (rangePairs.foldlM (fun (s : Selector) pair => s.splitRange pair) s).value = s := by
  have hf : s.parameters.filter
      (fun p => rangePairs.all fun pair => (splitRule pair p).value.isNone) = s.parameters :=
    List.filter_eq_self.2 fun p hp => List.all_eq_true.2 fun pair hpair => by
      rw [h p hp pair hpair]
      rfl
  have hm : rangePairs.flatMap (fun pair => splitOff pair s) = [] := by
    apply List.flatMap_eq_nil_iff.2
    intro pair hpair
    rw [← splitOff_eq, List.flatMap_eq_nil_iff]
    intro p hp
    rw [h p hp pair hpair]
    rfl
  rw [foldlM_splitRange, hf, hm, List.append_nil]

theorem gatherItems_eq_self (h : ∀ p ∈ s.parameters, (findingsOf p).value = none) :
    (gatherItems s).value = s := by
  have hp : (gatherItems s).value.parameters = s.parameters := by
    have hf : s.parameters.filter (fun p => (findingsOf p).value.isNone) = s.parameters :=
      List.filter_eq_self.2 fun p hp => by simp [h p hp]
    have hn : s.parameters.filterMap (fun p => (findingsOf p).value) = [] :=
      List.filterMap_eq_nil_iff.2 h
    rw [gatherItems_eq, hf, hn]
    exact List.append_nil _
  exact congrArg (Selector.mk s.head) hp

/-- Behind the splitting of ranges only the items are looked at, if Bedrock can have all
    parameters. -/
theorem toBedrock_eq_split {r : Selector}
    (hd : ∀ p ∈ s.parameters, Dialect.dropReason? p.name .bedrock = none)
    (hr : (rangePairs.foldlM (fun (s : Selector) pair => s.splitRange pair) s).value = r)
    (h : ∀ p ∈ r.parameters, BedrockReady p) : toBedrock s =
      rangePairs.foldlM (fun (s : Selector) pair => s.splitRange pair) s >>= fun _ =>
        gatherItems r := by
  have h₁ : dropExclusive .bedrock s = pure s := dropExclusive_of_none hd
  have h₂ : displace modeOfGamemode r = pure r :=
    displace_eq_pure fun p hp => modeOfGamemode_of_none (h p hp).mode
  have h₃ : joinLimit r = pure r :=
    joinLimit_of_nil (Parameter.valuesOf_eq_nil_iff.2 fun p hp => (h p hp).sort)
      (Parameter.valuesOf_eq_nil_iff.2 fun p hp => (h p hp).limit)
  rw [toBedrock, h₁, Noted.pure_bind]
  refine Noted.bind_congr ?_
  rw [hr, h₂, Noted.pure_bind, h₃, Noted.pure_bind]

theorem toBedrock_value_eq_split {r : Selector}
    (hd : ∀ p ∈ s.parameters, Dialect.dropReason? p.name .bedrock = none)
    (hr : (rangePairs.foldlM (fun (s : Selector) pair => s.splitRange pair) s).value = r)
    (h : ∀ p ∈ r.parameters, BedrockReady p) : (toBedrock s).value = r := by
  rw [toBedrock_eq_split hd hr h, Noted.value_bind]
  exact gatherItems_eq_self fun p hp => (h p hp).items

/-- A selector that Bedrock can have as it is stays as it is. -/
theorem toBedrock_value (h : ∀ p ∈ s.parameters, BedrockReady p) : (toBedrock s).value = s :=
  toBedrock_value_eq_split (fun p hp => (h p hp).exclusive)
    (foldlM_splitRange_eq_self fun p hp => (h p hp).range) h

/-- Ranges that are left are no matter for a reminder. -/
theorem reminders_splitRange (pair : RangePair) (s : Selector) :
    (splitRange pair s).reminders = [] := by
  rw [splitRange_eq, Noted.reminders, List.filterMap_eq_nil_iff]
  intro note hn
  obtain ⟨p, -, hp⟩ := List.mem_flatMap.1 hn
  unfold splitRule at hp
  split_ifs at hp
  · cases hb : boundsOfRange? pair p.value with
    | none =>
      rw [hb] at hp
      rw [List.mem_singleton.1 hp]
      rfl
    | some made => simp [hb] at hp
  · simp at hp

theorem reminders_foldlM_splitRange (pairs : List RangePair) (s : Selector) :
    (pairs.foldlM (fun (s : Selector) pair => s.splitRange pair) s).reminders = [] := by
  induction pairs generalizing s with
  | nil => rfl
  | cons pair pairs ih =>
    rw [List.foldlM_cons, Noted.reminders_bind, reminders_splitRange, ih, List.append_nil]

/-- Nor does such a selector give a reminder, unless there is `nbt` in it. -/
theorem reminders_toBedrock (h : ∀ p ∈ s.parameters, BedrockReady p)
    (hn : ∀ p ∈ s.parameters, p.name ≠ "nbt") : (toBedrock s).reminders = [] := by
  have hnotes : (gatherItems s).notes = [] :=
    List.flatMap_eq_nil_iff.2 fun p hp => by rw [findingsOf_of_ne (hn p hp)]; rfl
  have hg : (gatherItems s).reminders = [] := by
    rw [Noted.reminders, hnotes, List.filterMap_nil]
  rw [toBedrock_eq_split (fun p hp => (h p hp).exclusive)
    (foldlM_splitRange_eq_self fun p hp => (h p hp).range) h, Noted.reminders_bind,
    reminders_foldlM_splitRange, hg, List.append_nil]

/-! ## What the stages preserve -/

variable {q : Char → Bool}

/-- No parameter that the stages make needs another stage. -/
theorem bedrockReady_of_made (h : p.name ∈ bedrockMade) : BedrockReady p := by
  have hn : ∀ name ∈ bedrockMade, Dialect.dropReason? name .bedrock = none ∧
      (∀ pair ∈ rangePairs, name ≠ pair.java) ∧ name ≠ "gamemode" ∧ name ≠ "sort" ∧
      name ≠ "limit" ∧ name ≠ "nbt" := by
    decide
  obtain ⟨h1, h2, h3, h4, h5, h6⟩ := hn p.name h
  refine ⟨h1, fun pair hp => ?_, ?_, h4, h5, ?_⟩
  · rw [splitRule_value, if_neg (h2 pair hp)]
  · rw [modeOfGamemode_of_ne h3]
    rfl
  · rw [findingsOf_of_ne h6]
    rfl

theorem IsCount.spec (hq : Separates q) (h : IsCount p) :
    p.WellFormed q ∧ p.PointFree ∧ p.name ∈ bedrockMade := by
  obtain ⟨n, t, hn, ht, rfl⟩ := h
  have hc : ∀ c ∈ t, Numeral.isNumeralChar c = true := by
    rcases ht with rfl | rfl
    · exact Numeral.isNumeralChar_of_isNumeral hn
    · exact List.forall_mem_cons.2 ⟨by decide, Numeral.isNumeralChar_of_isNumeral hn⟩
  refine ⟨Parameter.wellFormed_of_isKeyword hq (by decide)
    (Parameter.closed_trim_of_inert hq fun c hm => isInert_of_isNumeralChar (hc c hm)),
    .inr ?_, by rw [Parameter.name_ofTexts]; decide⟩
  rcases ht with rfl | rfl
  · rw [Parameter.value_ofTexts, Value.read_of_isNumeral hn]
    rfl
  · refine Value.isPoint_read_of_cutDots ?_
    rw [Numeral.trim_of_isNumeralChar hc, Text.cutDots, Numeral.cutDots_of_isNumeral hn]
    · rfl
    · rintro rest h
      exact absurd h (by decide)

/-- What the stages make of well-formed parameters without `nbt`. -/
theorem BedrockOrigin.made (hq : Separates q) (hw : ∀ p ∈ s.parameters, p.WellFormed q)
    (hn : ∀ p ∈ s.parameters, p.name ≠ "nbt") (h : BedrockOrigin s p) :
    (p ∈ s.parameters ∧ BedrockReady p) ∨
      (p.WellFormed q ∧ p.PointFree ∧ p.name ∈ bedrockMade) := by
  have hnames : ∀ pair ∈ rangePairs, pair.min ∈ bedrockMade ∧ pair.max ∈ bedrockMade := by
    decide
  cases h with
  | kept hp hr => exact .inl ⟨hp, hr⟩
  | @bound pair p made q hpair hp hm hmade =>
    rw [splitRule_value] at hm
    split_ifs at hm
    obtain ⟨name, t, rfl, hname, ht⟩ := mem_boundsOfRange? hm hmade
    have hnum := ht (hw p hp).faithful
    obtain ⟨-, hmin, hmax⟩ := isKeyword_rangePairs pair hpair
    obtain ⟨kmin, kmax⟩ := hnames pair hpair
    have hkey : Parameter.IsKeyword name ∧ name ∈ bedrockMade := by
      rcases hname with rfl | rfl
      · exact ⟨hmin, kmin⟩
      · exact ⟨hmax, kmax⟩
    refine .inr ⟨Parameter.wellFormed_of_isKeyword hq hkey.1
      (Parameter.closed_trim_of_inert hq fun c hc =>
        isInert_of_isNumeralChar (Numeral.isNumeralChar_of_isNumeral hnum c hc)), .inr ?_, hkey.2⟩
    rw [Parameter.value_ofTexts, Value.read_of_isNumeral hnum]
    rfl
  | @mode p t hp hm ht =>
    exact .inr ⟨Parameter.wellFormed_of_isKeyword hq (by decide)
      (Parameter.closed_trim_of_inert hq ht.inert), .inr ht.isPoint_read,
      by rw [Parameter.name_ofTexts]; decide⟩
  | count hc => exact .inr (hc.spec hq)
  | @items found q hf hq' =>
    have hnil : found = [] := by
      by_contra hne
      obtain ⟨f, hm⟩ := List.exists_mem_of_ne_nil found hne
      obtain ⟨p, hp, hv⟩ := hf f hm
      simp [findingsOf_of_ne (hn p hp)] at hv
    rw [hnil] at hq'
    simp [itemParameters, ItemClause.parameter?] at hq'

/-- Reading the value of a parameter again does not make it one that Bedrock cannot
    have. -/
theorem BedrockReady.reread (hf : p.value.Faithful) (hn : p.name ≠ "nbt") (h : BedrockReady p) :
    BedrockReady p.reread where
  exclusive := h.exclusive
  sort := h.sort
  limit := h.limit
  items := by
    rw [findingsOf_of_ne (by exact hn)]
    rfl
  mode := by
    have ht : (modeOfGamemode p.reread) = modeOfGamemode p := by
      simp only [modeOfGamemode, Parameter.name_reread, Parameter.value_reread, hf.text_reread]
    rw [ht]
    exact h.mode
  range := by
    intro pair hpair
    have hr := h.range pair hpair
    rw [splitRule_value] at hr ⊢
    by_cases hname : p.name = pair.java
    · rw [if_pos hname, boundsOfRange?_eq_none] at hr
      rw [Parameter.name_reread, if_pos hname, boundsOfRange?_eq_none]
      have hv : p.value.reread = p.value := by
        apply hf.reread_eq
        intro b hb
        rw [hb] at hr
        simp [Value.bounds?] at hr
      rwa [Parameter.value_reread, hv]
    · exact if_neg hname

end Selector

end CrossEdition
