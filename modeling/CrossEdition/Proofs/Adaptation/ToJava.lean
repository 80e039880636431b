import CrossEdition.Adaptation.ToJava
import CrossEdition.Proofs.Adaptation.Displacing
import CrossEdition.Proofs.Decimal.Printing

/-!
# Where Java's parameters come from

Each parameter of a selector in Java's terms was kept, because Java can have it as it
is, or one of the stages made it. A selector that Java can have as it is stays as it is.

Results:
* `foldl_joinRange`: the ranges that the bounds of a selector are joined to.
* `originsInJava`: where a parameter in Java's terms comes from.
* `toJava_eq_joined`: of a selector that Java can have but for its bounds, only those change.
* `toJava_eq_pure`: a selector that Java can have is not changed.
-/

namespace CrossEdition

namespace Parameter

variable {name : Text} {ps : List Parameter}

theorem valuesOf_filter {keep : Parameter → Bool} (h : ∀ p ∈ ps, p.name = name → keep p = true) :
    valuesOf name (ps.filter keep) = valuesOf name ps := by
  induction ps with
  | nil => rfl
  | cons p ps ih =>
    have hps := ih fun q hq => h q (List.mem_cons_of_mem p hq)
    rw [valuesOf_cons]
    split_ifs with hn
    · rw [List.filter_cons_of_pos (h p (by simp) hn), valuesOf_cons, if_pos hn, hps]
    · cases hk : keep p with
      | false => rw [List.filter_cons_of_neg (by simp [hk]), hps]
      | true => rw [List.filter_cons_of_pos hk, valuesOf_cons, if_neg hn, hps]

theorem valuesOf_without_of_ne {other : Text} (h : other ≠ name) :
    valuesOf other (without name ps) = valuesOf other ps :=
  valuesOf_filter fun _ _ hp => decide_eq_true (hp ▸ h)

end Parameter

/-- Whether the names of the first quantity are not bounds of the second one. -/
def RangePair.Apart (a b : RangePair) : Prop :=
  ∀ name ∈ [a.java, a.min, a.max], name ≠ b.min ∧ name ≠ b.max

theorem apart_rangePairs : rangePairs.Pairwise RangePair.Apart := by
  unfold RangePair.Apart
  decide

namespace Selector

variable {s : Selector} {p : Parameter} {pair : RangePair}

theorem values_erase_of_ne {name other : Text} (h : other ≠ name) :
    (s.erase name).values other = s.values other :=
  Parameter.valuesOf_without_of_ne h

/-! ## Joining bounds -/

/-- The range that the bounds of one quantity make. -/
def boundsOf (pair : RangePair) (s : Selector) : Bounds :=
  ⟨Numeral.least? (s.numerals pair.min), Numeral.greatest? (s.numerals pair.max)⟩

/-- The parameter for that range, if there are bounds. -/
def joined (pair : RangePair) (s : Selector) : List Parameter :=
  if (boundsOf pair s).hasBound then [.ofTexts pair.java (boundsOf pair s).text] else []

theorem joinRange_eq (pair : RangePair) (s : Selector) :
    joinRange pair s = { s with
      parameters := s.parameters.filter (fun p => !isBound pair p) ++ joined pair s } := by
  show (if (boundsOf pair s).hasBound then _ else _) = _
  unfold joined
  split_ifs
  · rfl
  · simp

theorem mem_joined (h : p ∈ joined pair s) : p.name = pair.java := by
  unfold joined at h
  split_ifs at h
  · rw [List.mem_singleton.1 h]
    rfl
  · simp at h

/-- Joining one quantity does not touch the bounds of another. -/
theorem numerals_joinRange {other : RangePair} (h : pair.Apart other) {name : Text}
    (hn : name = other.min ∨ name = other.max) :
    (joinRange pair s).numerals name = s.numerals name := by
  have hne : ∀ n ∈ [pair.java, pair.min, pair.max], n ≠ name := by
    intro n hm
    rcases hn with rfl | rfl
    · exact (h n hm).1
    · exact (h n hm).2
  have hj : Parameter.valuesOf name (joined pair s) = [] := by
    rw [Parameter.valuesOf_eq_nil_iff]
    intro p hp
    rw [mem_joined hp]
    exact hne _ (by simp)
  have hf : Parameter.valuesOf name (s.parameters.filter fun p => !isBound pair p) =
      Parameter.valuesOf name s.parameters := by
    apply Parameter.valuesOf_filter
    intro p _ hp
    have h1 : p.name ≠ pair.min := hp ▸ (hne _ (by simp)).symm
    have h2 : p.name ≠ pair.max := hp ▸ (hne _ (by simp)).symm
    simp [isBound, h1, h2]
  rw [numerals, values, joinRange_eq, Parameter.valuesOf_append, hj, hf, List.append_nil]
  rfl

theorem joined_joinRange {other : RangePair} (h : pair.Apart other) :
    joined other (joinRange pair s) = joined other s := by
  have hb : boundsOf other (joinRange pair s) = boundsOf other s := by
    rw [boundsOf, numerals_joinRange h (.inl rfl), numerals_joinRange h (.inr rfl)]
    rfl
  rw [joined, joined, hb]

/-- Joining several quantities, each apart from those after it. -/
theorem foldl_joinRange {pairs : List RangePair} (h : pairs.Pairwise RangePair.Apart)
    (s : Selector) :
    pairs.foldl (fun s pair => s.joinRange pair) s = { s with
      parameters := s.parameters.filter (fun p => pairs.all fun pair => !isBound pair p)
        ++ pairs.flatMap fun pair => joined pair s } := by
  induction pairs generalizing s with
  | nil => simp
  | cons pair pairs ih =>
    obtain ⟨hp, hps⟩ := List.pairwise_cons.1 h
    have hstay : (joined pair s).filter (fun p => pairs.all fun pair => !isBound pair p) =
        joined pair s := by
      apply List.filter_eq_self.2
      intro p hj
      apply List.all_eq_true.2
      intro other ho
      obtain ⟨h1, h2⟩ := hp other ho pair.java (by simp)
      rw [isBound, mem_joined hj]
      simp [h1, h2]
    have hmore : pairs.flatMap (fun other => joined other (joinRange pair s)) =
        pairs.flatMap fun other => joined other s :=
      List.flatMap_congr fun other ho => joined_joinRange (hp other ho)
    rw [List.foldl_cons, ih hps, hmore]
    simp only [joinRange_eq, List.filter_append, List.filter_filter, hstay, List.all_cons,
      List.flatMap_cons, List.append_assoc, Bool.and_comm]

theorem numerals_of_not_isBound {name : Text} (hn : name = pair.min ∨ name = pair.max)
    (h : ∀ p ∈ s.parameters, isBound pair p = false) : s.numerals name = [] := by
  apply List.filterMap_eq_nil_iff.2
  intro v hv
  have hb := h _ (Parameter.mem_valuesOf.1 hv)
  rcases hn with rfl | rfl
  · simpa [isBound] using hb
  · simpa [isBound] using hb

/-- Without bounds nothing is joined. -/
theorem foldl_joinRange_eq_self
    (h : ∀ p ∈ s.parameters, ∀ pair ∈ rangePairs, isBound pair p = false) :
    rangePairs.foldl (fun s pair => s.joinRange pair) s = s := by
  have hf : s.parameters.filter (fun p => rangePairs.all fun pair => !isBound pair p) =
      s.parameters :=
    List.filter_eq_self.2 fun p hp => List.all_eq_true.2 fun pair hpair => by
      rw [h p hp pair hpair]
      rfl
  have hj : rangePairs.flatMap (fun pair => joined pair s) = [] := by
    apply List.flatMap_eq_nil_iff.2
    intro pair hpair
    have hb : ∀ p ∈ s.parameters, isBound pair p = false := fun p hp => h p hp pair hpair
    have hn : boundsOf pair s = ⟨none, none⟩ := by
      rw [boundsOf, numerals_of_not_isBound (.inl rfl) hb, numerals_of_not_isBound (.inr rfl) hb]
      rfl
    rw [joined, hn]
    rfl
  rw [foldl_joinRange apart_rangePairs, hf, hj, List.append_nil]

/-! ## Game modes -/

/-- A game mode that both editions know, perhaps negated. -/
def IsMode (t : Text) : Prop :=
  ∃ mode ∈ (["survival", "creative", "adventure"] : List Text), t = mode ∨ t = '!' :: mode

theorem splitNegation_append (t : Text) :
    (splitNegation t).1 ++ (splitNegation t).2 = t ∧
      ((splitNegation t).1 = [] ∨ (splitNegation t).1 = ['!']) := by
  unfold splitNegation
  split
  · exact ⟨rfl, .inr rfl⟩
  · exact ⟨rfl, .inl rfl⟩

theorem isMode_of_negation {negation mode : Text} (hn : negation = [] ∨ negation = ['!'])
    (hm : mode ∈ (["survival", "creative", "adventure"] : List Text)) :
    IsMode (negation ++ mode) := by
  rcases hn with rfl | rfl
  · exact ⟨mode, hm, .inl rfl⟩
  · exact ⟨mode, hm, .inr rfl⟩

/-- An `m` parameter becomes a `gamemode` parameter, at worst of the same value. -/
theorem gamemodeOfMode_value (h : p.name = "m") : ∃ t,
    (gamemodeOfMode p).value = some [.ofTexts "gamemode" t] ∧ (t = p.value.text ∨ IsMode t) := by
  obtain ⟨happ, hneg⟩ := splitNegation_append p.value.text
  simp only [gamemodeOfMode, h, if_true]
  split_ifs
  · exact ⟨_, rfl, .inr (isMode_of_negation hneg (by decide))⟩
  · exact ⟨_, rfl, .inr (isMode_of_negation hneg (by decide))⟩
  · exact ⟨_, rfl, .inr (isMode_of_negation hneg (by decide))⟩
  · exact ⟨_, rfl, .inr (isMode_of_negation hneg (by decide))⟩
  · exact ⟨_, rfl, .inl happ⟩

theorem gamemodeOfMode_of_ne (h : p.name ≠ "m") : gamemodeOfMode p = pure none := by
  rw [gamemodeOfMode, if_neg h]

/-! ## Counts -/

theorem splitCount_of_nil (h : s.values "c" = []) : splitCount s = pure s := by
  rw [splitCount, if_pos h]

/-- The parameters that a count becomes. -/
def IsPick (p : Parameter) : Prop :=
  (∃ n : Double, p = .ofTexts "limit" n.text) ∨ p = .ofTexts "sort" "nearest" ∨
    p = .ofTexts "sort" "furthest"

/-- The limit and the order that the counts of a selector stand for. -/
def picksOf (s : Selector) : List Parameter :=
  match (Numeral.greatest? (s.numerals "c")).bind Numeral.value? with
  | none => []
  | some n =>
    if n.compare? (.zero false) = some .eq then []
    else .ofTexts "limit" n.abs.text ::
      if n.lt (.zero false) then [.ofTexts "sort" "furthest"]
      else if s.head = .randomPlayer then []
      else [.ofTexts "sort" "nearest"]

/-- Counts go, and the limit and the order that they stand for come in their place. -/
theorem splitCount_eq (s : Selector) :
    (splitCount s).value = (s.erase "c").append (picksOf s) := by
  by_cases h : s.values "c" = []
  · have hp : picksOf s = [] := by
      rw [picksOf, numerals, h]
      rfl
    rw [splitCount_of_nil h, hp, erase_eq_self (Parameter.valuesOf_eq_nil_iff.1 h), append_nil,
      Noted.value_pure]
  · simp only [splitCount, if_neg h, picksOf, numerals]
    cases (Numeral.greatest? ((s.values "c").filterMap Value.numeral?)).bind Numeral.value? with
    | none => simp [append]
    | some n =>
      simp only
      split_ifs <;> simp [append, push]

theorem isPick_of_mem_picksOf {q : Parameter} (h : q ∈ picksOf s) : IsPick q := by
  unfold picksOf at h
  split at h
  · simp at h
  · next n _ =>
    split_ifs at h
    · simp at h
    · rcases List.mem_cons.1 h with rfl | h
      · exact .inl ⟨n.abs, rfl⟩
      · exact .inr (.inr (List.mem_singleton.1 h))
    · exact .inl ⟨n.abs, List.mem_singleton.1 h⟩
    · rcases List.mem_cons.1 h with rfl | h
      · exact .inl ⟨n.abs, rfl⟩
      · exact .inr (.inl (List.mem_singleton.1 h))

theorem mem_splitCount (h : p ∈ (splitCount s).value.parameters) :
    (p ∈ s.parameters ∧ p.name ≠ "c") ∨ IsPick p := by
  rw [splitCount_eq, append, List.mem_append] at h
  exact h.imp mem_erase.1 isPick_of_mem_picksOf

@[simp] theorem head_splitCount (s : Selector) : (splitCount s).value.head = s.head := by
  rw [splitCount_eq]
  rfl

/-! ## Items -/

theorem has_iff {name : Text} : s.has name = true ↔ ∃ q ∈ s.parameters, q.name = name := by
  simp [has]

theorem mem_itemsToNbt (h : p ∈ (itemsToNbt s).value.parameters) :
    (p ∈ s.parameters ∧ p.name ≠ "hasitem") ∨
      (s.has "hasitem" = true ∧ ∃ t, p = .ofTexts "nbt" t) := by
  unfold itemsToNbt at h
  split_ifs at h with hi
  · simp only [Noted.value_bind, Noted.value_pure, append, List.mem_append, List.mem_map] at h
    rcases h with h | ⟨t, -, rfl⟩
    · exact .inl (mem_erase.1 h)
    · exact .inr ⟨hi, t, rfl⟩
  · refine .inl ⟨h, fun hn => hi (has_iff.2 ⟨p, h, hn⟩)⟩

@[simp] theorem head_itemsToNbt (s : Selector) : (itemsToNbt s).value.head = s.head := by
  unfold itemsToNbt
  split_ifs <;> rfl

theorem itemsToNbt_of_not_has (h : s.has "hasitem" = false) : itemsToNbt s = pure s := by
  rw [itemsToNbt, if_neg (by rw [h]; exact Bool.false_ne_true)]

/-! ## Scores -/

/-- Scores stay unless some of them are negated. -/
theorem positiveScores_value : (positiveScores p).value = none ↔
    ¬ (p.name = "scores" ∧ Score.negated p.value ≠ []) := by
  simp only [positiveScores]
  split_ifs with h
  · exact iff_of_false (by simp) (not_not_intro h)
  · exact iff_of_true rfl h

theorem positiveScores_of_none (h : (positiveScores p).value = none) :
    positiveScores p = pure none := by
  rw [positiveScores_value] at h
  simp only [positiveScores]
  rw [if_neg h]

theorem name_of_positiveScores {made : List Parameter} (h : (positiveScores p).value = some made) :
    p.name = "scores" := by
  by_contra hn
  rw [positiveScores_value.2 fun hs => hn hs.1] at h
  simp at h

theorem exists_ofTexts_of_mem_positiveScores {made : List Parameter} {q : Parameter}
    (h : (positiveScores p).value = some made) (hq : q ∈ made) : ∃ t, q = .ofTexts "scores" t := by
  simp only [positiveScores] at h
  split_ifs at h <;> simp only [Option.some.injEq] at h <;> subst h
  · simp at hq
  · exact ⟨_, List.mem_singleton.1 hq⟩

theorem name_of_mem_positiveScores {made : List Parameter} {q : Parameter}
    (h : (positiveScores p).value = some made) (hq : q ∈ made) : q.name = "scores" := by
  obtain ⟨t, rfl⟩ := exists_ofTexts_of_mem_positiveScores h hq
  rfl

/-- Only compounds have scores, and those are read again as they are. -/
theorem negated_reread {v : Value} (h : v.Faithful) : Score.negated v.reread = Score.negated v := by
  cases v with
  | range b =>
    cases hp : b.isPoint with
    | true =>
      obtain ⟨lo, hi, -, -, hr⟩ := h.reread_point hp
      rw [hr]
      rfl
    | false =>
      cases hb : b.hasBound with
      | true => rw [h.reread_range hp hb]; rfl
      | false => rw [Value.reread_unbounded hb]; rfl
  | scalar | compound | literal => rw [h.reread_eq (by simp)]

/-! ## All stages -/

/-- A parameter that Java can have as it is. -/
structure JavaReady (p : Parameter) : Prop where
  exclusive : Dialect.dropReason? p.name .java = none
  bound : ∀ pair ∈ rangePairs, isBound pair p = false
  mode : p.name ≠ "m"
  count : p.name ≠ "c"
  items : p.name ≠ "hasitem"
  scores : (positiveScores p).value = none

/-- Where a parameter comes from when a selector is put in Java's terms. -/
inductive JavaOrigin (s : Selector) : Parameter → Prop
  | kept {p : Parameter} (hp : p ∈ s.parameters) (hr : JavaReady p) : JavaOrigin s p
  | range {pair : RangePair} {b : Bounds} (hp : pair ∈ rangePairs)
      (hmin : ∀ t ∈ b.min, ⟨pair.min, .scalar t⟩ ∈ s.parameters)
      (hmax : ∀ t ∈ b.max, ⟨pair.max, .scalar t⟩ ∈ s.parameters) :
      JavaOrigin s (.ofTexts pair.java b.text)
  | gamemode {p : Parameter} {t : Text} (hp : p ∈ s.parameters) (hm : p.name = "m")
      (ht : t = p.value.text ∨ IsMode t) : JavaOrigin s (.ofTexts "gamemode" t)
  | pick {p : Parameter} (hp : IsPick p) : JavaOrigin s p
  | items {t : Text} (hs : s.has "hasitem" = true) : JavaOrigin s (.ofTexts "nbt" t)
  | scores {p q : Parameter} {made : List Parameter} (hp : p ∈ s.parameters)
      (hm : (positiveScores p).value = some made) (hq : q ∈ made) : JavaOrigin s q

theorem scalar_mem_of_numerals {name t : Text} (h : t ∈ s.numerals name) :
    ⟨name, .scalar t⟩ ∈ s.parameters := by
  obtain ⟨v, hv, hn⟩ := List.mem_filterMap.1 h
  cases v with
  | scalar u =>
    rw [← Option.some.inj hn]
    exact Parameter.mem_valuesOf.1 hv
  | _ => simp [Value.numeral?] at hn

/-- The names of the parameters that the stages make, items aside. -/
def javaPlain : List Text :=
  ["distance", "x_rotation", "y_rotation", "level", "gamemode", "limit", "sort"]

/-- The names of all parameters that the stages make. -/
def javaMade : List Text :=
  "nbt" :: javaPlain

theorem java_mem_javaPlain : ∀ pair ∈ rangePairs, pair.java ∈ javaPlain := by
  decide

theorem mem_javaMade {name : Text} (h : name ∈ javaPlain) : name ∈ javaMade :=
  List.mem_cons_of_mem _ h

section Stages

variable {r : Selector} {keep : Parameter → Prop}

theorem origin_joinRange (hr : ∀ q ∈ r.parameters, q ∈ s.parameters ∧ keep q)
    (h : p ∈ (rangePairs.foldl (fun s pair => s.joinRange pair) r).parameters) :
    SoFar s (JavaOrigin s) javaMade
      (fun q => keep q ∧ ∀ pair ∈ rangePairs, isBound pair q = false) p := by
  refine SoFar.step (fun q hq => .inl (hr q hq)) ?_
  rw [foldl_joinRange apart_rangePairs, List.mem_append, List.mem_filter, List.mem_flatMap] at h
  rcases h with ⟨hp, hb⟩ | ⟨pair, hpair, hj⟩
  · exact .inl ⟨hp, by simpa using hb⟩
  · unfold joined at hj
    split_ifs at hj
    · rw [List.mem_singleton.1 hj]
      refine .inr ⟨.range hpair (fun t ht => ?_) (fun t ht => ?_),
        mem_javaMade (java_mem_javaPlain pair hpair)⟩
      · exact (hr _ (scalar_mem_of_numerals (Numeral.best?_mem ht))).1
      · exact (hr _ (scalar_mem_of_numerals (Numeral.best?_mem ht))).1
    · simp at hj

theorem origin_gamemode (hr : ∀ q ∈ r.parameters, SoFar s (JavaOrigin s) javaMade keep q)
    (h : p ∈ (displace gamemodeOfMode r).value.parameters) :
    SoFar s (JavaOrigin s) javaMade (fun q => keep q ∧ q.name ≠ "m") p := by
  refine SoFar.step hr ?_
  rcases mem_displace.1 h with ⟨hp, hv⟩ | ⟨q, hq, made, hm, hp⟩
  · refine .inl ⟨hp, fun hn => ?_⟩
    obtain ⟨t, ht, -⟩ := gamemodeOfMode_value hn
    simp [ht] at hv
  · by_cases hn : q.name = "m"
    · obtain ⟨t, ht, hc⟩ := gamemodeOfMode_value hn
      rw [ht, Option.some.injEq] at hm
      rw [← hm, List.mem_singleton] at hp
      have hs := (hr q hq).of_notMem (by rw [hn]; decide)
      rw [hp]
      exact .inr ⟨.gamemode hs.1 hn hc, by rw [Parameter.name_ofTexts]; decide⟩
    · simp [gamemodeOfMode_of_ne hn] at hm

theorem origin_splitCount (hr : ∀ q ∈ r.parameters, SoFar s (JavaOrigin s) javaMade keep q)
    (h : p ∈ (splitCount r).value.parameters) :
    SoFar s (JavaOrigin s) javaMade (fun q => keep q ∧ q.name ≠ "c") p := by
  refine SoFar.step hr ?_
  rcases mem_splitCount h with h | h
  · exact .inl h
  · refine .inr ⟨.pick h, ?_⟩
    rcases h with ⟨n, rfl⟩ | rfl | rfl <;> (rw [Parameter.name_ofTexts]; decide)

theorem origin_itemsToNbt (hr : ∀ q ∈ r.parameters, SoFar s (JavaOrigin s) javaMade keep q)
    (h : p ∈ (itemsToNbt r).value.parameters) :
    SoFar s (JavaOrigin s) javaMade (fun q => keep q ∧ q.name ≠ "hasitem") p := by
  refine SoFar.step hr ?_
  rcases mem_itemsToNbt h with h | ⟨hi, t, rfl⟩
  · exact .inl h
  · obtain ⟨q, hq, hn⟩ := has_iff.1 hi
    have hs := (hr q hq).of_notMem (by rw [hn]; decide)
    exact .inr ⟨.items (has_iff.2 ⟨q, hs.1, hn⟩), by rw [Parameter.name_ofTexts]; decide⟩

end Stages

@[simp] theorem parameters_replaceVariable (s : Selector) :
    (replaceVariable s).value.parameters = s.parameters := by
  unfold replaceVariable
  split_ifs <;> rfl

/-- Where a parameter in Java's terms comes from. -/
theorem originsInJava (h : p ∈ (toJava s).value.parameters) : JavaOrigin s p := by
  simp only [toJava, Noted.value_bind] at h
  generalize h₁ : (replaceVariable s).value = s₁ at h
  generalize h₂ : (dropExclusive .java s₁).value = s₂ at h
  generalize h₃ : rangePairs.foldl (fun s pair => s.joinRange pair) s₂ = s₃ at h
  generalize h₄ : (displace gamemodeOfMode s₃).value = s₄ at h
  generalize h₅ : (splitCount s₄).value = s₅ at h
  generalize h₆ : (itemsToNbt s₅).value = s₆ at h
  have k₂ : ∀ q ∈ s₂.parameters,
      q ∈ s.parameters ∧ Dialect.dropReason? q.name .java = none := by
    intro q hq
    rw [← h₂, dropExclusive_mem, ← h₁, parameters_replaceVariable] at hq
    exact hq
  have k₃ := fun q (hq : q ∈ s₃.parameters) => origin_joinRange k₂ (h₃ ▸ hq)
  have k₄ := fun q (hq : q ∈ s₄.parameters) => origin_gamemode k₃ (h₄ ▸ hq)
  have k₅ := fun q (hq : q ∈ s₅.parameters) => origin_splitCount k₄ (h₅ ▸ hq)
  have k₆ := fun q (hq : q ∈ s₆.parameters) => origin_itemsToNbt k₅ (h₆ ▸ hq)
  rcases mem_displace.1 h with ⟨hp, hv⟩ | ⟨q, hq, made, hm, hp⟩
  · rcases k₆ p hp with ⟨hs, ⟨⟨⟨he, hb⟩, hm⟩, hc⟩, hi⟩ | ⟨ho, -⟩
    · exact .kept hs ⟨he, hb, hm, hc, hi, hv⟩
    · exact ho
  · have hs := (k₆ q hq).of_notMem (by rw [name_of_positiveScores hm]; decide)
    exact .scores hs.1 hm hp

theorem head_toJava (s : Selector) : (toJava s).value.head = (replaceVariable s).value.head := by
  simp only [toJava, Noted.value_bind, head_displace, head_itemsToNbt, head_splitCount,
    foldl_joinRange apart_rangePairs]
  rfl

/-- Behind the joining of bounds nothing is left to do on parameters that Java can have. -/
theorem toJava_eq_joined {r : Selector} (hh : s.head.isBedrockOnly = false)
    (hd : ∀ p ∈ s.parameters, Dialect.dropReason? p.name .java = none)
    (hr : rangePairs.foldl (fun s pair => s.joinRange pair) s = r)
    (h : ∀ p ∈ r.parameters, JavaReady p) : toJava s = pure r := by
  have h₁ : replaceVariable s = pure s := by
    rw [replaceVariable, if_neg (by rw [hh]; exact Bool.false_ne_true)]
  have h₂ : dropExclusive .java s = pure s := dropExclusive_of_none hd
  have h₄ : displace gamemodeOfMode r = pure r :=
    displace_eq_pure fun p hp => gamemodeOfMode_of_ne (h p hp).mode
  have h₅ : splitCount r = pure r :=
    splitCount_of_nil (Parameter.valuesOf_eq_nil_iff.2 fun p hp => (h p hp).count)
  have h₆ : itemsToNbt r = pure r := by
    refine itemsToNbt_of_not_has ?_
    rw [← Bool.not_eq_true, has_iff]
    rintro ⟨q, hq, hn⟩
    exact (h q hq).items hn
  have h₇ : displace positiveScores r = pure r :=
    displace_eq_pure fun p hp => positiveScores_of_none (h p hp).scores
  simp only [toJava, h₁, h₂, hr, h₄, h₅, h₆, h₇, Noted.pure_bind]

/-- A selector that Java can have as it is stays as it is. -/
theorem toJava_eq_pure (hh : s.head.isBedrockOnly = false) (h : ∀ p ∈ s.parameters, JavaReady p) :
    toJava s = pure s :=
  toJava_eq_joined hh (fun p hp => (h p hp).exclusive)
    (foldl_joinRange_eq_self fun p hp => (h p hp).bound) h

/-! ## What the stages preserve -/

variable {q : Char → Bool}

/-- A mode is spelled with letters and at most one exclamation mark. -/
theorem IsMode.inert {t : Text} (h : IsMode t) : ∀ c ∈ t, isInert c = true := by
  obtain ⟨mode, hm, rfl | rfl⟩ := h
  · revert t
    decide
  · revert mode
    decide

theorem IsMode.isPoint_read {t : Text} (h : IsMode t) : (Value.read t).isPoint = false := by
  obtain ⟨mode, hm, rfl | rfl⟩ := h
  · revert t
    decide
  · revert mode
    decide

/-- The text of a double is no range and has no separators. -/
theorem inert_doubleText (n : Double) : ∀ c ∈ n.text, isInert c = true := by
  rcases n.text_cases with h | h
  · intro c hc
    exact isInert_of_isNumeralChar (Numeral.isNumeralChar_of_isNumeral h c hc)
  · generalize n.text = t at h
    revert t
    decide

theorem isPoint_doubleText (n : Double) : (Value.read n.text).isPoint = false := by
  rcases n.text_cases with h | h
  · rw [Value.read_of_isNumeral h]
    rfl
  · generalize n.text = t at h
    revert t
    decide

theorem IsPick.pointFree (h : IsPick p) : p.PointFree := by
  rcases h with ⟨n, rfl⟩ | rfl | rfl
  · exact .inr (isPoint_doubleText n)
  · exact .inr (by decide)
  · exact .inr (by decide)

theorem IsPick.wellFormed (hq : Separates q) (h : IsPick p) : p.WellFormed q := by
  rcases h with ⟨n, rfl⟩ | rfl | rfl
  · exact Parameter.wellFormed_of_isKeyword hq (by decide)
      (Parameter.closed_trim_of_inert hq (inert_doubleText n))
  · exact Parameter.wellFormed_of_isKeyword hq (by decide) (hq.closed (by decide))
  · exact Parameter.wellFormed_of_isKeyword hq (by decide) (hq.closed (by decide))

theorem isKeyword_rangePairs : ∀ pair ∈ rangePairs,
    Parameter.IsKeyword pair.java ∧ Parameter.IsKeyword pair.min ∧ Parameter.IsKeyword pair.max := by
  decide

/-- No parameter that the stages make needs another stage. -/
theorem javaReady_of_made (h : p.name ∈ javaMade) : JavaReady p := by
  have hn : ∀ name ∈ javaMade, Dialect.dropReason? name .java = none ∧
      (∀ pair ∈ rangePairs, name ≠ pair.min ∧ name ≠ pair.max) ∧
      name ≠ "m" ∧ name ≠ "c" ∧ name ≠ "hasitem" ∧ name ≠ "scores" := by
    decide
  obtain ⟨h1, h2, h3, h4, h5, h6⟩ := hn p.name h
  refine ⟨h1, fun pair hp => ?_, h3, h4, h5, ?_⟩
  · simp [isBound, h2 pair hp]
  · exact positiveScores_value.2 fun hs => h6 hs.1

/-- What the stages make of well-formed parameters without items and scores. -/
theorem JavaOrigin.made (hq : Separates q) (hw : ∀ p ∈ s.parameters, p.WellFormed q)
    (hi : ∀ p ∈ s.parameters, p.name ≠ "hasitem") (hs : ∀ p ∈ s.parameters, p.name ≠ "scores")
    (h : JavaOrigin s p) : (p ∈ s.parameters ∧ JavaReady p) ∨
      (p.WellFormed q ∧ p.PointFree ∧ p.name ∈ javaPlain) := by
  cases h with
  | kept hp hr => exact .inl ⟨hp, hr⟩
  | @range pair b hp hmin hmax =>
    have hb : b.Numeric := by
      rintro t (ht | ht)
      · exact (hw _ (hmin t ht)).faithful.isNumeral
      · exact (hw _ (hmax t ht)).faithful.isNumeral
    refine .inr ⟨?_, .inl (mergeRule_rangePairs pair hp).1, java_mem_javaPlain pair hp⟩
    exact Parameter.wellFormed_of_isKeyword hq (isKeyword_rangePairs pair hp).1
      (Parameter.closed_trim_of_inert hq fun c hc =>
        isInert_of_isNumeralChar (Bounds.isNumeralChar_text hb c hc))
  | @gamemode p t hp hm ht =>
    have hwp := hw p hp
    rcases ht with rfl | ht
    · refine .inr ⟨Parameter.wellFormed_of_isKeyword hq (by decide) ?_,
        .inr hwp.faithful.isPoint_reread, by rw [Parameter.name_ofTexts]; decide⟩
      have hc := hwp.closed
      rw [Parameter.text, hm] at hc
      have h2 : Text.Closed q ("m=" : Text) := hq.closed (by decide)
      rw [hwp.faithful.trim_text]
      exact (Text.closed_append_iff h2).1 hc
    · exact .inr ⟨Parameter.wellFormed_of_isKeyword hq (by decide)
        (Parameter.closed_trim_of_inert hq ht.inert), .inr ht.isPoint_read,
        by rw [Parameter.name_ofTexts]; decide⟩
  | pick hp =>
    refine .inr ⟨hp.wellFormed hq, hp.pointFree, ?_⟩
    rcases hp with ⟨n, rfl⟩ | rfl | rfl <;> (rw [Parameter.name_ofTexts]; decide)
  | items h =>
    obtain ⟨p, hp, hn⟩ := has_iff.1 h
    exact absurd hn (hi p hp)
  | scores hp hm _ => exact absurd (name_of_positiveScores hm) (hs _ hp)

/-- Reading the value of a parameter again does not make it one that Java cannot have. -/
theorem JavaReady.reread (hf : p.value.Faithful) (hp : p.PointFree) (h : JavaReady p) :
    JavaReady p.reread where
  exclusive := h.exclusive
  mode := h.mode
  count := h.count
  items := h.items
  bound := by
    intro pair hpair
    by_contra hb
    rw [Bool.not_eq_false, isBound, Bool.and_eq_true] at hb
    obtain ⟨hn, hv⟩ := hb
    have hrule : mergeRule p.name ≠ .range := by
      obtain ⟨-, h1, h2⟩ := mergeRule_rangePairs pair hpair
      rcases Bool.or_eq_true_iff.1 hn with hn | hn
      · rw [show p.name = pair.min from of_decide_eq_true hn, h1]
        simp
      · rw [show p.name = pair.max from of_decide_eq_true hn, h2]
        simp
    have hv' : p.value.numeral?.isSome = true :=
      MergeRule.fits_reread .max hf (.inr (hp.resolve_left hrule)) hv
    have hbp := h.bound pair hpair
    rw [isBound, hv', Bool.and_true] at hbp
    exact Bool.false_ne_true (hbp.symm.trans hn)
  scores := by
    rw [positiveScores_value, Parameter.value_reread, negated_reread hf]
    exact positiveScores_value.1 h.scores

end Selector

end CrossEdition
