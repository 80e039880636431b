import CrossEdition.Adaptation.Basic
import CrossEdition.Proofs.Selector.Merging

/-!
# Replacing parameters in stages

What a stage of an adaptation leaves and what it adds, for one stage and for several in
a row.

Results:
* `mem_displace`: a parameter behind a stage was kept by it or made by it.
* `displace_eq_pure`: a stage that replaces nothing and has nothing to say does nothing.
* `foldlM_displace`: independent stages in a row act like each of them on the start.
* `SoFar.step`: one more stage, in the middle of several.
-/

namespace CrossEdition

namespace Selector

/-- A rule that replaces a parameter by others, or leaves it. -/
abbrev Rule := Parameter → Noted (Option (List Parameter))

variable {f : Rule} {s : Selector} {p : Parameter}

@[simp] theorem head_displace (f : Rule) (s : Selector) : (displace f s).value.head = s.head := rfl

theorem mem_displace : p ∈ (displace f s).value.parameters ↔
    (p ∈ s.parameters ∧ (f p).value = none) ∨
      ∃ q ∈ s.parameters, ∃ made, (f q).value = some made ∧ p ∈ made := by
  simp only [displace, List.mem_append, List.mem_filter, Option.isNone_iff_eq_none,
    List.mem_flatMap]
  refine or_congr_right (exists_congr fun q => and_congr_right fun _ => ?_)
  cases (f q).value <;> simp

theorem mem_erase {name : Text} : p ∈ (s.erase name).parameters ↔
    p ∈ s.parameters ∧ p.name ≠ name := by
  simp [erase, Parameter.without]

/-! ## Parameters by name -/

theorem append_nil (s : Selector) : s.append [] = s :=
  congrArg (Selector.mk s.head) (List.append_nil _)

theorem values_append (s : Selector) (ps : List Parameter) (name : Text) :
    (s.append ps).values name = s.values name ++ Parameter.valuesOf name ps :=
  Parameter.valuesOf_append ..

theorem erase_eq_self {name : Text} (h : ∀ p ∈ s.parameters, p.name ≠ name) : s.erase name = s :=
  congrArg (Selector.mk s.head) (List.filter_eq_self.2 fun p hp => decide_eq_true (h p hp))

theorem erase_erase (name : Text) (s : Selector) : (s.erase name).erase name = s.erase name :=
  erase_eq_self fun _ hp => (mem_erase.1 hp).2

theorem values_erase (name : Text) (s : Selector) : (s.erase name).values name = [] :=
  Parameter.valuesOf_eq_nil_iff.2 fun _ hp => (mem_erase.1 hp).2

/-! ## Stages -/

theorem reminders_displace (f : Rule) (s : Selector) :
    (displace f s).reminders = s.parameters.flatMap fun p => (f p).reminders :=
  List.filterMap_flatMap ..

/-- A stage that leaves all parameters does nothing. -/
theorem displace_eq_pure (h : ∀ p ∈ s.parameters, f p = pure none) : displace f s = pure s := by
  refine Noted.ext (displace_eq_self fun p hp => by rw [h p hp]; rfl) ?_
  simp only [displace, List.flatMap_eq_nil_iff, Noted.notes_pure]
  intro p hp
  rw [h p hp]
  rfl

/-- Whether the second rule leaves alone what the first one replaces and makes. -/
def Rule.Before (f g : Rule) : Prop :=
  ∀ p made, (f p).value = some made → (g p).value = none ∧ ∀ q ∈ made, (g q).value = none

/-- A filter does not matter to a function that gives nothing for what it takes away. -/
theorem flatMap_filter {α β : Type} {keep : α → Bool} {g : α → List β} {l : List α}
    (h : ∀ a ∈ l, keep a = false → g a = []) : (l.filter keep).flatMap g = l.flatMap g := by
  induction l with
  | nil => rfl
  | cons a l ih =>
    have hl := ih fun b hb => h b (List.mem_cons_of_mem a hb)
    cases ha : keep a with
    | false => rw [List.filter_cons_of_neg (by simp [ha]), List.flatMap_cons, hl, h a (by simp) ha,
        List.nil_append]
    | true => rw [List.filter_cons_of_pos ha, List.flatMap_cons, List.flatMap_cons, hl]

/-- Rules in a row, each of which leaves alone what those before it did, act on the
    parameters at the start. -/
theorem foldlM_displace {fs : List Rule} (h : fs.Pairwise Rule.Before) (s : Selector) :
    (fs.foldlM (fun s f => displace f s) s).value = { s with
      parameters := s.parameters.filter (fun p => fs.all fun f => (f p).value.isNone)
        ++ fs.flatMap fun f => s.parameters.flatMap fun p => (f p).value.getD [] } := by
  induction fs generalizing s with
  | nil => simp
  | cons f fs ih =>
    obtain ⟨hf, hfs⟩ := List.pairwise_cons.1 h
    have hmade : ∀ q ∈ s.parameters.flatMap (fun p => (f p).value.getD []),
        ∀ g ∈ fs, (g q).value = none := by
      intro q hq g hg
      obtain ⟨p, -, hp⟩ := List.mem_flatMap.1 hq
      cases hv : (f p).value with
      | none => simp [hv] at hp
      | some made => exact (hf g hg p made hv).2 q (by simpa [hv] using hp)
    -- what `f` made stays, and nothing is made of it
    have hstay : (s.parameters.flatMap fun p => (f p).value.getD []).filter
        (fun p => fs.all fun g => (g p).value.isNone) =
          s.parameters.flatMap fun p => (f p).value.getD [] :=
      List.filter_eq_self.2 fun q hq =>
        List.all_eq_true.2 fun g hg => by rw [hmade q hq g hg]; rfl
    have hmore : ∀ g ∈ fs, (displace f s).value.parameters.flatMap
        (fun p => (g p).value.getD []) = s.parameters.flatMap fun p => (g p).value.getD [] := by
      intro g hg
      have hnil : (s.parameters.flatMap fun p => (f p).value.getD []).flatMap
          (fun p => (g p).value.getD []) = [] :=
        List.flatMap_eq_nil_iff.2 fun q hq => by rw [hmade q hq g hg]; rfl
      simp only [displace, List.flatMap_append, hnil, List.append_nil]
      apply flatMap_filter
      intro p _ hp
      have hsome : (f p).value.isSome = true := by
        simpa using hp
      obtain ⟨made, hv⟩ := Option.isSome_iff_exists.1 hsome
      rw [(hf g hg p made hv).1]
      rfl
    rw [List.foldlM_cons, Noted.value_bind, ih hfs, List.flatMap_congr hmore]
    simp only [displace, List.filter_append, List.filter_filter, hstay, List.all_cons,
      List.flatMap_cons, List.append_assoc, Bool.and_comm]

/-! ## Dropping -/

theorem dropExclusive_mem {target : Dialect} :
    p ∈ (dropExclusive target s).value.parameters ↔
      p ∈ s.parameters ∧ Dialect.dropReason? p.name target = none := by
  rw [dropExclusive, mem_displace]
  constructor
  · rintro (⟨hp, hv⟩ | ⟨q, -, made, hm, hp⟩)
    · refine ⟨hp, ?_⟩
      cases hr : Dialect.dropReason? p.name target with
      | none => rfl
      | some reason => simp [hr] at hv
    · cases hr : Dialect.dropReason? q.name target with
      | none => simp [hr] at hm
      | some reason =>
        simp only [hr, Option.some.injEq] at hm
        simp [← hm] at hp
  · rintro ⟨hp, hr⟩
    exact .inl ⟨hp, by simp [hr]⟩

theorem dropExclusive_of_none {target : Dialect}
    (h : ∀ p ∈ s.parameters, Dialect.dropReason? p.name target = none) :
    dropExclusive target s = pure s :=
  displace_eq_pure fun p hp => by simp [h p hp]

/-! ## In the middle of the stages -/

/-- Where a parameter comes from behind some of the stages: they have left it, and `keep`
    holds of it, or one of them made it, with one of the names `made`. -/
def SoFar (s : Selector) (Origin : Parameter → Prop) (made : List Text) (keep : Parameter → Prop)
    (p : Parameter) : Prop :=
  (p ∈ s.parameters ∧ keep p) ∨ (Origin p ∧ p.name ∈ made)

variable {Origin : Parameter → Prop} {made : List Text} {keep keep' : Parameter → Prop}

theorem SoFar.of_notMem (h : SoFar s Origin made keep p) (hn : p.name ∉ made) :
    p ∈ s.parameters ∧ keep p :=
  h.resolve_right fun hm => hn hm.2

/-- A stage leaves some parameters and makes others. -/
theorem SoFar.step {r : Selector} (hr : ∀ q ∈ r.parameters, SoFar s Origin made keep q)
    (h : (p ∈ r.parameters ∧ keep' p) ∨ (Origin p ∧ p.name ∈ made)) :
    SoFar s Origin made (fun q => keep q ∧ keep' q) p := by
  rcases h with ⟨hp, hk⟩ | h
  · rcases hr p hp with ⟨hs, hk'⟩ | h
    · exact .inl ⟨hs, hk', hk⟩
    · exact .inr h
  · exact .inr h

end Selector

end CrossEdition
