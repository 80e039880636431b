import CrossEdition.Conversion
import CrossEdition.Proofs.Adaptation.ToBedrock

/-!
# Adapting twice

A selector that was adapted to a dialect and written out is adapted to the same dialect
without a change and without a reminder. Behind the first pass the selector is settled:
the target can have every parameter, and nothing is left to merge. Reading it back from
its text keeps that.

Results:
* `WellFormed.adapt`: an adapted selector can be read back from its text.
* `settled_adapt`: an adapted selector is settled.
* `Settled.reread`: a settled selector stays settled when its values are read again.
* `adapt_of_settled`: a settled selector is not changed.
* `filter_filter`: the second pass changes nothing and reports nothing.
-/

namespace CrossEdition

namespace Selector

variable {target : Dialect} {asHull : Bool} {q : Char → Bool} {s : Selector} {p : Parameter}

/-- The selector in the terms of a dialect, between the two merges. -/
def inTerms : Dialect → Selector → Noted Selector
  | .bedrock, s => s.toBedrock
  | .java, s => s.toJava
  | .universal, s => pure s

theorem adapt_eq (target : Dialect) (asHull : Bool) (s : Selector) :
    adapt target asHull s =
      inTerms target (s.mergeDuplicates asHull) >>= fun s => pure (s.mergeDuplicates asHull) := by
  cases target <;> rfl

theorem adapt_value (target : Dialect) (asHull : Bool) (s : Selector) :
    (adapt target asHull s).value =
      (inTerms target (s.mergeDuplicates asHull)).value.mergeDuplicates asHull := by
  rw [adapt_eq, Noted.value_bind, Noted.value_pure]

/-- Merging does not touch the variable. -/
theorem head_adapt_eq (target : Dialect) (asHull : Bool) (s : Selector) :
    (adapt target asHull s).value.head =
      (inTerms target (s.mergeDuplicates asHull)).value.head := by
  rw [adapt_value]
  generalize (inTerms target (s.mergeDuplicates asHull)).value = r
  rfl

/-- A parameter that a dialect can have as it is. -/
def Ready : Dialect → Parameter → Prop
  | .bedrock, p => BedrockReady p
  | .java, p => JavaReady p
  | .universal, _ => True

/-- The names whose parameters are converted as a whole. -/
def wholeNames : List Text :=
  ["nbt", "hasitem", "scores"]

/-- What the parameters of a selector keep through all stages, if none of them is converted
    as a whole. -/
structure Regular (q : Char → Bool) (p : Parameter) : Prop where
  wellFormed : p.WellFormed q
  pointFree : p.PointFree
  notMem : p.name ∉ wholeNames

/-- A selector on which nothing is left to do for a dialect. -/
structure Settled (target : Dialect) (asHull : Bool) (q : Char → Bool) (s : Selector) : Prop where
  wellFormed : s.WellFormed q
  regular : ∀ p ∈ s.parameters, Regular q p
  head : target = .java → s.head.isBedrockOnly = false
  ready : ∀ p ∈ s.parameters, Ready target p
  merged : ∀ name, Parameter.mergedValue? asHull s.parameters name = none

/-! ## Merging -/

theorem regular_mergeDuplicates (hq : Separates q) {ps : List Parameter}
    (h : ∀ p ∈ ps, Regular q p) : ∀ p ∈ Parameter.mergeDuplicates asHull ps, Regular q p := by
  intro p hp
  have hf : ∀ p ∈ ps, p.value.Faithful := fun p hp => (h p hp).wellFormed.faithful
  exact ⟨Parameter.wellFormed_mergeDuplicates hq (fun p hp => (h p hp).wellFormed) p hp,
    Parameter.pointFree_mergeDuplicates hf (fun p hp => (h p hp).pointFree) p hp,
    Parameter.name_notMem_mergeDuplicates (fun p hp => (h p hp).notMem) p hp⟩

theorem exists_pair_of_mergeRule {name : Text} (h : mergeRule name = .range) :
    ∃ pair ∈ rangePairs, name = pair.java := by
  have hall : ∀ name ∈ rangeNames, ∃ pair ∈ rangePairs, name = pair.java := by
    decide
  unfold mergeRule at h
  split_ifs at h with h₁ h₂ h₃
  exact hall name h₃

/-- A range that ranges were merged to is as ready as they were. -/
theorem ready_mergeDuplicates {ps : List Parameter} (hf : ∀ p ∈ ps, p.value.Faithful)
    (h : ∀ p ∈ ps, Ready target p) :
    ∀ p ∈ Parameter.mergeDuplicates asHull ps, Ready target p := by
  intro p hp
  rcases Parameter.mem_mergeDuplicates hf hp with hp | ⟨hr, ⟨p₀, hp₀, hn, hb⟩, b, hv, -⟩
  · exact h p hp
  · obtain ⟨pair, hpair, hjava⟩ := exists_pair_of_mergeRule hr
    cases target with
    | universal => trivial
    | java => exact javaReady_of_made (hjava ▸ mem_javaMade (java_mem_javaPlain pair hpair))
    | bedrock =>
      -- Bedrock leaves no numeric range to merge
      have hsplit := (h p₀ hp₀).range pair hpair
      rw [splitRule_value, if_pos (hn.trans hjava), boundsOfRange?_eq_none] at hsplit
      simp [hsplit] at hb

/-! ## One pass -/

/-- The names whose parameters a pass converts as a whole. -/
def convertedNames : Dialect → List Text
  | .java => ["hasitem", "scores"]
  | .bedrock => ["nbt"]
  | .universal => []

theorem convertedNames_subset (target : Dialect) : convertedNames target ⊆ wholeNames := by
  cases target <;> decide

/-- A parameter behind a pass was left by it, or it was made by it and needs nothing more. -/
theorem left_or_made_inTerms (hq : Separates q) (hw : ∀ p ∈ s.parameters, p.WellFormed q)
    (hn : ∀ p ∈ s.parameters, p.name ∉ convertedNames target)
    (hp : p ∈ (inTerms target s).value.parameters) :
    (p ∈ s.parameters ∧ Ready target p) ∨ (Regular q p ∧ Ready target p) := by
  have hne : ∀ name ∈ convertedNames target, ∀ p ∈ s.parameters, p.name ≠ name := by
    rintro name hm p hp rfl
    exact hn p hp hm
  cases target with
  | universal => exact .inl ⟨hp, trivial⟩
  | java =>
    have hmade : ∀ name ∈ javaPlain, name ∉ wholeNames := by
      decide
    rcases (originsInJava hp).made hq hw (hne _ (by decide)) (hne _ (by decide)) with
      h | ⟨hpw, hpf, hm⟩
    · exact .inl h
    · exact .inr ⟨⟨hpw, hpf, hmade _ hm⟩, javaReady_of_made (mem_javaMade hm)⟩
  | bedrock =>
    have hmade : ∀ name ∈ bedrockMade, name ∉ wholeNames := by
      decide
    rcases (originsInBedrock hp).made hq hw (hne _ (by decide)) with h | ⟨hpw, hpf, hm⟩
    · exact .inl h
    · exact .inr ⟨⟨hpw, hpf, hmade _ hm⟩, bedrockReady_of_made hm⟩

/-- What a pass makes of regular parameters is regular, and the target can have it. -/
theorem regular_inTerms (hq : Separates q) (h : ∀ p ∈ s.parameters, Regular q p)
    (hp : p ∈ (inTerms target s).value.parameters) : Regular q p ∧ Ready target p := by
  have hn : ∀ p ∈ s.parameters, p.name ∉ convertedNames target := fun p hp hm =>
    (h p hp).notMem (convertedNames_subset target hm)
  rcases left_or_made_inTerms hq (fun p hp => (h p hp).wellFormed) hn hp with ⟨hp, hr⟩ | hm
  · exact ⟨h p hp, hr⟩
  · exact hm

theorem head_inTerms (target : Dialect) (s : Selector) :
    ((inTerms target s).value.head = s.head ∨
      (inTerms target s).value.head ∈ [Variable.allPlayers, .randomPlayer]) ∧
      (target = .java → (inTerms target s).value.head.isBedrockOnly = false) := by
  cases target with
  | universal => exact ⟨.inl rfl, by simp⟩
  | java =>
    rw [inTerms, head_toJava]
    refine ⟨?_, fun _ => replaceVariable_java s⟩
    unfold replaceVariable
    split_ifs
    · exact .inr (by simp)
    · exact .inl rfl
  | bedrock =>
    refine ⟨?_, by simp⟩
    rcases head_toBedrock s with h | h
    · exact .inl h
    · exact .inr (by simp [inTerms, h])

theorem readable_of_head {v : Variable} (hw : s.WellFormed q)
    (h : v = s.head ∨ v ∈ [Variable.allPlayers, .randomPlayer]) : v.Readable := by
  rcases h with rfl | h
  · exact hw.head
  · refine Variable.readable_of_known ?_
    revert v
    decide

theorem wellFormed_inTerms (hq : Separates q) (hw : ∀ p ∈ s.parameters, p.WellFormed q)
    (hn : ∀ p ∈ s.parameters, p.name ∉ convertedNames target)
    (hp : p ∈ (inTerms target s).value.parameters) : p.WellFormed q := by
  rcases left_or_made_inTerms hq hw hn hp with ⟨hp, -⟩ | ⟨hr, -⟩
  · exact hw p hp
  · exact hr.wellFormed

/-- Adapting keeps parameters well formed, if none of them is converted as a whole. -/
theorem wellFormed_adapt (asHull : Bool) (hq : Separates q)
    (hw : ∀ p ∈ s.parameters, p.WellFormed q)
    (hn : ∀ p ∈ s.parameters, p.name ∉ convertedNames target) :
    ∀ p ∈ (adapt target asHull s).value.parameters, p.WellFormed q := by
  have hmerged : ∀ p ∈ (s.mergeDuplicates asHull).parameters, p.WellFormed q :=
    Parameter.wellFormed_mergeDuplicates hq hw
  have hname : ∀ p ∈ (s.mergeDuplicates asHull).parameters, p.name ∉ convertedNames target :=
    Parameter.name_notMem_mergeDuplicates hn
  have hterms : ∀ p ∈ (inTerms target (s.mergeDuplicates asHull)).value.parameters,
      p.WellFormed q := fun p hp => wellFormed_inTerms hq hmerged hname hp
  rw [adapt_value]
  exact Parameter.wellFormed_mergeDuplicates hq hterms

/-- Adapting keeps a selector well formed. -/
theorem WellFormed.adapt {q : Char → Bool} (target : Dialect) (asHull : Bool) (hq : Separates q)
    (hw : s.WellFormed q) (hn : ∀ p ∈ s.parameters, p.name ∉ wholeNames) :
    (Selector.adapt target asHull s).value.WellFormed q := by
  have hwell : ∀ p ∈ (Selector.adapt target asHull s).value.parameters, p.WellFormed q :=
    wellFormed_adapt asHull hq hw.parameters fun p hp hm => hn p hp (convertedNames_subset target hm)
  refine ⟨?_, hwell⟩
  rw [adapt_value]
  exact readable_of_head hw (head_inTerms target (s.mergeDuplicates asHull)).1

/-- Without parameters that are converted as a whole none come up. -/
theorem notMem_wholeNames_adapt (asHull : Bool) (hq : Separates q)
    (hw : ∀ p ∈ s.parameters, p.WellFormed q) (hn : ∀ p ∈ s.parameters, p.name ∉ wholeNames) :
    ∀ p ∈ (adapt target asHull s).value.parameters, p.name ∉ wholeNames := by
  have hmerged : ∀ p ∈ (s.mergeDuplicates asHull).parameters, p.WellFormed q :=
    Parameter.wellFormed_mergeDuplicates hq hw
  have hname : ∀ p ∈ (s.mergeDuplicates asHull).parameters, p.name ∉ wholeNames :=
    Parameter.name_notMem_mergeDuplicates hn
  rw [adapt_value]
  refine Parameter.name_notMem_mergeDuplicates fun p hp => ?_
  rcases left_or_made_inTerms hq hmerged
    (fun p hp hm => hname p hp (convertedNames_subset target hm)) hp with ⟨hp, -⟩ | ⟨hr, -⟩
  · exact hname p hp
  · exact hr.notMem

/-- An adapted selector is settled. -/
theorem settled_adapt (target : Dialect) (asHull : Bool) (hq : Separates q) (hw : s.WellFormed q)
    (h : ∀ p ∈ s.parameters, Regular q p) :
    Settled target asHull q (adapt target asHull s).value := by
  rw [adapt_value]
  generalize hr : (inTerms target (s.mergeDuplicates asHull)).value = r
  have hmem : ∀ p ∈ r.parameters, Regular q p ∧ Ready target p := fun p hp =>
    regular_inTerms hq (regular_mergeDuplicates hq h) (hr ▸ hp)
  have hreg : ∀ p ∈ Parameter.mergeDuplicates asHull r.parameters, Regular q p :=
    regular_mergeDuplicates hq fun p hp => (hmem p hp).1
  obtain ⟨hhead, hjava⟩ := head_inTerms target (s.mergeDuplicates asHull)
  rw [hr] at hhead hjava
  exact {
    wellFormed := ⟨readable_of_head hw hhead, fun p hp => (hreg p hp).wellFormed⟩
    regular := hreg
    head := hjava
    ready := ready_mergeDuplicates (fun p hp => (hmem p hp).1.wellFormed.faithful)
      fun p hp => (hmem p hp).2
    merged := Parameter.mergedValue?_mergeDuplicates asHull r.parameters }

/-! ## The second pass -/

theorem Regular.reread (h : Regular q p) : Regular q p.reread :=
  ⟨h.wellFormed.reread, .inr h.wellFormed.faithful.isPoint_reread, h.notMem⟩

theorem Ready.reread (hp : Regular q p) (h : Ready target p) : Ready target p.reread := by
  cases target with
  | universal => trivial
  | java => exact JavaReady.reread hp.wellFormed.faithful hp.pointFree h
  | bedrock =>
    refine BedrockReady.reread hp.wellFormed.faithful ?_ h
    rintro hn
    exact hp.notMem (by rw [hn]; decide)

/-- A settled selector stays settled when its values are read again. -/
theorem Settled.reread (h : Settled target asHull q s) : Settled target asHull q s.reread where
  wellFormed := h.wellFormed.reread
  head := h.head
  regular := by
    intro p hp
    obtain ⟨p', hp', rfl⟩ := List.mem_map.1 hp
    exact (h.regular p' hp').reread
  ready := by
    intro p hp
    obtain ⟨p', hp', rfl⟩ := List.mem_map.1 hp
    exact (h.ready p' hp').reread (h.regular p' hp')
  merged := fun name => Parameter.mergedValue?_reread
    (fun p hp => (h.regular p hp).wellFormed.faithful) (fun p hp => (h.regular p hp).pointFree)
    (h.merged name)

/-- A settled selector is not changed, and nothing is said about it. -/
theorem adapt_of_settled (h : Settled target asHull q s) :
    (adapt target asHull s).value = s ∧ (adapt target asHull s).reminders = [] := by
  have hm : s.mergeDuplicates asHull = s :=
    congrArg (Selector.mk s.head) (Parameter.mergeDuplicates_eq_self fun p _ => h.merged p.name)
  have ht : (inTerms target s).value = s ∧ (inTerms target s).reminders = [] := by
    cases target with
    | universal => exact ⟨rfl, rfl⟩
    | java =>
      rw [inTerms, toJava_eq_pure (h.head rfl) h.ready]
      exact ⟨rfl, rfl⟩
    | bedrock =>
      refine ⟨toBedrock_value h.ready, reminders_toBedrock h.ready fun p hp hn => ?_⟩
      exact (h.regular p hp).notMem (by rw [hn]; decide)
  rw [adapt_eq, hm]
  simp only [Noted.value_bind, Noted.value_pure, Noted.reminders_bind, ht, hm,
    Noted.reminders_pure, List.append_nil, and_self]

theorem filter_value (target : Dialect) (settings : Settings) (t : Text) :
    (filter target settings t).value =
      (adapt target settings.mergeToHull (read t).value).value.text := rfl

/-- The text of an adapted selector is read as that selector with its values read again,
    which has no parameters that are converted as a whole either. -/
theorem read_filter {q : Char → Bool} (target : Dialect) (settings : Settings) {t : Text}
    (hq : Separates q) (hc : q ',' = true) (hb : q ']' = true)
    (hw : (read t).value.WellFormed q) (hn : ∀ p ∈ (read t).value.parameters, p.name ∉ wholeNames) :
    let back := (read (filter target settings t).value).value
    back = (adapt target settings.mergeToHull (read t).value).value.reread ∧ back.WellFormed q ∧
      ∀ p ∈ back.parameters, p.name ∉ wholeNames := by
  intro back
  have hadapt := hw.adapt target settings.mergeToHull hq hn
  have hback : back = (adapt target settings.mergeToHull (read t).value).value.reread :=
    congrArg Noted.value (hadapt.read_text hc hb)
  refine ⟨hback, hback ▸ hadapt.reread, fun p hp => ?_⟩
  rw [hback] at hp
  obtain ⟨p', hp', rfl⟩ := List.mem_map.1 hp
  exact notMem_wholeNames_adapt settings.mergeToHull hq hw.parameters hn p' hp'

/-- Adapting the text of an adapted selector to the same dialect again changes nothing and
    reports nothing. The parameter list has to close its quotes and brackets, parameters
    that are converted as a whole are left aside, and so are ranges with equal ends, which
    are written as numbers. -/
theorem filter_filter (target : Dialect) (settings : Settings) {t : Text}
    (hbody : ∀ body ∈ body? (Text.trim t), (Nesting.outside.scan body).isTop = true)
    (hnames : ∀ p ∈ (read t).value.parameters, p.name ∉ wholeNames)
    (hpoint : ∀ p ∈ (read t).value.parameters, p.value.isPoint = false) :
    (filter target settings (filter target settings t).value).value =
        (filter target settings t).value ∧
      (filter target settings (filter target settings t).value).reminders = [] := by
  have hclosing : ∀ c, decide (c = ']') = true → Text.isClosing c = true :=
    fun c hc => Bool.or_eq_true_iff.2 (.inl hc)
  have hw := wellFormed_read hclosing (closed_body hbody)
  have hs := settled_adapt target settings.mergeToHull (separates_or_comma hclosing) hw
    fun p hp =>
      ⟨hw.parameters p hp, .inr (hpoint p hp), hnames p hp⟩
  generalize hr : (adapt target settings.mergeToHull (read t).value).value = r at hs
  have hfirst : (filter target settings t).value = r.text := by
    rw [filter_value, hr]
  have hread : read r.text = pure r.reread := hs.wellFormed.read_text (by decide) (by decide)
  obtain ⟨hv, hn⟩ := adapt_of_settled hs.reread
  rw [hfirst, filter, hread, Noted.pure_bind]
  constructor
  · rw [Noted.value_bind, Noted.value_pure, hv, hs.wellFormed.text_reread]
  · rw [Noted.reminders_bind, hn]
    rfl

/-- Bounds, counts, modes and repeated coordinates, with a quoted name among them. -/
theorem filter_filter_bounds_and_count :
    let t : Text := "@e[r=10,rm=2.50,c=-3,m=!c,x=1,x=2,name=\"a,b\"]"
    let once := (filter .java .standard t).value
    once = "@e[x=2,name=\"a,b\",distance=2.5..10,gamemode=!creative,limit=3,sort=furthest]" ∧
      (filter .java .standard once).value = once ∧ (filter .java .standard once).reminders = [] :=
  ⟨by decide +kernel, filter_filter .java .standard (by decide +kernel) (by decide +kernel)
    (by decide +kernel)⟩

end Selector

end CrossEdition
