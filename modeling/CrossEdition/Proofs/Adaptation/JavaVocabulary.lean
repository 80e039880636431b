import CrossEdition.Proofs.Adaptation.ValuesByName
import CrossEdition.Proofs.Selector.Scores

/-!
# Java's vocabulary

What is left of Bedrock's vocabulary in a selector that was adapted to Java. The variable
is one that Java knows. Of the names that only Bedrock knows there are bounds only, namely
those that had no number to join to a range. Score maps keep the entries that are not
negated.

Results:
* `bound_of_mem_toJava`, `bound_of_mem_adapt`: which names of Bedrock's are left.
* `values_scores_adapt`: the score maps that are left.
* `adapt_java_vocabulary`: all of this together.
-/

namespace CrossEdition

namespace Selector

variable {asHull : Bool} {s : Selector} {p : Parameter}

/-! ## Names -/

theorem mergeRule_boundNames :
    ∀ name ∈ boundNames, mergeRule name = .max ∨ mergeRule name = .min := by
  decide

theorem numeral?_of_merged (hname : p.name ∈ boundNames)
    (h : Parameter.mergedValue? asHull s.parameters p.name = some p.value) :
    (∃ v, ⟨p.name, v⟩ ∈ s.parameters ∧ v.numeral?.isSome = true) ∧
      p.value.numeral?.isSome = true := by
  obtain ⟨hall, hv⟩ := Parameter.fits_of_mergedValue? h
  have hfits : (mergeRule p.name).fits = fun v => v.numeral?.isSome := by
    rcases mergeRule_boundNames _ hname with hr | hr <;> (rw [hr]; rfl)
  rw [hfits] at hall hv
  obtain ⟨v, hmem⟩ := List.exists_mem_of_ne_nil _ (Parameter.mergedValue?_eq_some h).1
  exact ⟨⟨v, Parameter.mem_valuesOf.1 hmem, hall v hmem⟩, hv⟩

/-- Of the names that only Bedrock knows the stages leave bounds that are no numbers. -/
theorem bound_of_mem_toJava (h : p ∈ (toJava s).value.parameters)
    (hname : p.name ∈ Dialect.bedrockNames) :
    p.name ∈ boundNames ∧ p ∈ s.parameters ∧ p.value.numeral? = none := by
  have hmade : ∀ name ∈ javaMade, name ∉ Dialect.bedrockNames := by
    decide
  cases originsInJava h with
  | kept hp hr =>
    have hbound : ∀ name ∈ Dialect.bedrockNames, Dialect.dropReason? name .java = none →
        name ≠ "m" → name ≠ "c" → name ≠ "hasitem" → name ∈ boundNames := by
      decide
    have hin := hbound p.name hname hr.exclusive hr.mode hr.count hr.items
    obtain ⟨pair, hpair, hn⟩ := exists_pair_of_boundName hin
    have hb := hr.bound pair hpair
    rw [isBound, Bool.and_eq_false_iff] at hb
    refine ⟨hin, hp, ?_⟩
    rcases hb with hb | hb
    · rw [Bool.or_eq_false_iff, decide_eq_false_iff_not, decide_eq_false_iff_not] at hb
      exact absurd hn (not_or.2 hb)
    · simpa using hb
  | range hpair _ _ => exact absurd hname (hmade _ (mem_javaMade (java_mem_javaPlain _ hpair)))
  | gamemode _ _ _ => exact absurd hname (hmade "gamemode" (by decide))
  | pick hp =>
    rcases hp with ⟨n, rfl⟩ | rfl | rfl
    · exact absurd hname (hmade "limit" (by decide))
    · exact absurd hname (hmade "sort" (by decide))
    · exact absurd hname (hmade "sort" (by decide))
  | items _ => exact absurd hname (hmade "nbt" (by decide))
  | scores hp hm hq =>
    rw [name_of_mem_positiveScores hm hq] at hname
    exact absurd hname (by decide)

/-- The merges do not add to them. -/
theorem bound_of_mem_adapt (h : p ∈ (adapt .java asHull s).value.parameters)
    (hname : p.name ∈ Dialect.bedrockNames) :
    p.name ∈ boundNames ∧ p ∈ s.parameters ∧ p.value.numeral? = none := by
  rw [adapt_value, inTerms] at h
  generalize hr : (toJava (s.mergeDuplicates asHull)).value = r at h
  have hstages : ∀ q ∈ r.parameters, q.name ∈ Dialect.bedrockNames → q.name ∈ boundNames ∧
      q ∈ Parameter.mergeDuplicates asHull s.parameters ∧ q.value.numeral? = none :=
    fun q hq hn => bound_of_mem_toJava (hr ▸ hq) hn
  have hlast : p ∈ r.parameters := by
    rcases Parameter.mem_or_merged h with hp | hm
    · exact hp
    · obtain ⟨v, hv⟩ := List.exists_mem_of_ne_nil _ (Parameter.mergedValue?_eq_some hm).1
      have hin := (hstages _ (Parameter.mem_valuesOf.1 hv) hname).1
      obtain ⟨⟨w, hw, hnum⟩, -⟩ := numeral?_of_merged (p := p) hin hm
      rw [(hstages _ hw hname).2.2] at hnum
      exact absurd hnum Bool.false_ne_true
  obtain ⟨hin, hfirst, hnone⟩ := hstages p hlast hname
  refine ⟨hin, ?_, hnone⟩
  rcases Parameter.mem_or_merged hfirst with hp | hm
  · exact hp
  · have hnum := (numeral?_of_merged hin hm).2
    rw [hnone] at hnum
    exact absurd hnum Bool.false_ne_true

/-! ## Scores -/

/-- The last stage purges each score map. -/
theorem perm_values_positiveScores (s : Selector) :
    ((displace positiveScores s).value.values "scores").Perm
      ((s.values "scores").flatMap Score.purged) := by
  refine perm_values_displace (fun v => ?_) fun p hp => positiveScores_value.2 fun h => hp h.1
  by_cases hn : Score.negated v = []
  · exact .inl ⟨positiveScores_value.2 fun h => h.2 hn, by rw [Score.purged, if_pos hn]⟩
  · have hv : (positiveScores ⟨"scores", v⟩).value = some (if Score.positive v = [] then []
        else [.ofTexts "scores" (Score.text (Score.positive v))]) := by
      simp only [positiveScores]
      rw [if_pos ⟨trivial, hn⟩]
      rfl
    refine .inr ?_
    rw [hv, Score.purged, if_neg hn]
    split_ifs <;> rfl

/-- The score maps behind an adaptation are the purged ones, those that were not changed
    first. -/
theorem values_scores_adapt (asHull : Bool) (s : Selector) :
    ((adapt .java asHull s).value.values "scores").Perm
      ((s.values "scores").flatMap Score.purged) := by
  have hmerge : ∀ r : Selector, (r.mergeDuplicates asHull).values "scores" = r.values "scores" :=
    fun r => (touchesOnly_mergeDuplicates asHull).values_pure (by decide)
  have hjoin : ∀ r : Selector,
      (rangePairs.foldl (fun s pair => s.joinRange pair) r).values "scores" = r.values "scores" :=
    fun r => touchesOnly_joinRange.values_pure (by decide)
  rw [adapt_value, hmerge, inTerms]
  simp only [toJava, Noted.value_bind]
  refine (perm_values_positiveScores _).trans (.of_eq ?_)
  rw [touchesOnly_itemsToNbt.values (by decide), touchesOnly_splitCount.values (by decide),
    touchesOnly_gamemode.values (by decide), hjoin,
    (touchesOnly_dropExclusive .java).values (by decide),
    touchesOnly_replaceVariable.values (by decide), hmerge]

/-! ## All of it -/

/-- What of a score map may be left: at most one map. Of a flat one all entries are left
    that are not negated, in their order, and no others. -/
structure Purges (v : Value) (left : List Value) : Prop where
  one : left.length ≤ 1
  entries : Score.IsFlat v →
    left.flatMap Score.entries = (Score.entries v).filter fun entry => !Score.isNegated entry
  negated : Score.IsFlat v → ∀ w ∈ left, Score.negated w = []

theorem head_adapt_java (asHull : Bool) (s : Selector) :
    (adapt .java asHull s).value.head.isBedrockOnly = false := by
  rw [head_adapt_eq]
  exact (head_inTerms .java (s.mergeDuplicates asHull)).2 rfl

/-- A selector in Java's terms has a variable that Java knows. Of the parameters that only
    Bedrock knows it has bounds only, and those stood in the selector before, without a
    number. Of each flat score map it has the entries that are not negated, if there are
    any, and no negated ones. -/
theorem adapt_java_vocabulary (settings : Settings) (s : Selector) :
    let java := (s.adapt .java settings.mergeToHull).value
    java.head.isBedrockOnly = false ∧
      (∀ p ∈ java.parameters, p.name ∈ Dialect.bedrockNames →
        p.name ∈ boundNames ∧ p ∈ s.parameters ∧ p.value.numeral? = none) ∧
      ∃ left : List (List Value), List.Forall₂ Purges (s.values "scores") left ∧
        (java.values "scores").Perm left.flatten := by
  refine ⟨head_adapt_java _ s, fun p hp hn => bound_of_mem_adapt hp hn,
    (s.values "scores").map Score.purged, ?_, values_scores_adapt _ s⟩
  rw [List.forall₂_map_right_iff, List.forall₂_same]
  exact fun v _ => ⟨Score.length_purged_le v, Score.entries_purged, Score.negated_of_mem_purged⟩

/-- A bound without a number, and two flat score maps with negated entries. -/
theorem adapt_java_vocabulary_negated_scores :
    let s : Selector := ⟨.agent, [⟨"scores", .compound "{a=!1,b=2..}"⟩, ⟨"rm", .literal "x"⟩,
      ⟨"r", .scalar "5"⟩, ⟨"m", .literal "c"⟩, ⟨"scores", .compound "{d=!4}"⟩]⟩
    let java := (s.adapt .java Settings.standard.mergeToHull).value
    java.text = "@a[rm=x,distance=..5,gamemode=creative,scores={b=2..}]" ∧
      (∀ v ∈ s.values "scores", Score.IsFlat v) ∧ java.head.isBedrockOnly = false ∧
      ∃ left : List (List Value), List.Forall₂ Purges (s.values "scores") left ∧
        (java.values "scores").Perm left.flatten := by
  intro s java
  have hvalues : s.values "scores" = [.compound "{a=!1,b=2..}", .compound "{d=!4}"] := by
    decide
  have hflat : ∀ v ∈ s.values "scores", Score.IsFlat v := by
    rw [hvalues, List.forall_mem_cons, List.forall_mem_singleton]
    exact ⟨⟨"a=!1,b=2..", by decide, by decide⟩, ⟨"d=!4", by decide, by decide⟩⟩
  obtain ⟨hhead, -, hscores⟩ := adapt_java_vocabulary .standard s
  exact ⟨by decide +kernel, hflat, hhead, hscores⟩

end Selector

end CrossEdition
