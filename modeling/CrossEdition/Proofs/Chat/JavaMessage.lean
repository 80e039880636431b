import CrossEdition.Chat.JavaMessage
import CrossEdition.Proofs.Json.RoundTrip

/-!
# Messages for Java are read back

A message is one chat component, an object without any number, whatever its parts are.
So the printer and the reader agree on it.

Results:
* `IsComponent.assemble`: putting components together gives a component.
* `encode_eq`: a message is the text of a component.
-/

namespace CrossEdition

namespace JavaMessage

/-- Whether a value is an object whose entries are printed without loss. -/
def IsComponent (j : Json) : Prop :=
  ∃ entries, j = .object entries ∧ ∀ e ∈ entries, e.2.Whole

theorem isComponent_object {entries : List (Text × Json)} (h : ∀ e ∈ entries, e.2.Whole) :
    IsComponent (.object entries) :=
  ⟨entries, rfl, h⟩

theorem isComponent_single {key : Text} {value : Json} (h : value.Whole) :
    IsComponent (.single key value) :=
  isComponent_object (by simpa using h)

theorem IsComponent.whole {j : Json} (h : IsComponent j) : j.Whole := by
  obtain ⟨entries, rfl, he⟩ := h
  exact .object he

theorem IsComponent.insert {j : Json} (h : IsComponent j) (key : Text) {value : Json}
    (hv : value.Whole) : IsComponent (j.insert key value) := by
  obtain ⟨entries, rfl, he⟩ := h
  apply isComponent_object
  intro e hm
  rcases List.mem_append.1 hm with hm | hm
  · exact he e hm
  · rw [List.mem_singleton.1 hm]
    exact hv

/-! ## Styles -/

/-- A style is given by names and flags. -/
theorem value_styleEntries (s : Style) :
    ∀ e ∈ styleEntries s, (∃ t, e.2 = .string t) ∨ e.2 = .bool true := by
  have hflag : ∀ (key : Text) (on : Bool),
      ∀ e ∈ (if on then [(key, Json.bool true)] else []), e.2 = .bool true := by
    intro key on e he
    cases on with
    | false => exact absurd he (List.not_mem_nil)
    | true => rw [List.mem_singleton.1 he]
  intro e he
  simp only [styleEntries, List.mem_append] at he
  rcases he with ((((he | he) | he) | he) | he) | he
  · obtain ⟨c, -, rfl⟩ := Option.map_eq_some_iff.1 (Option.mem_toList.1 he)
    exact .inl ⟨_, rfl⟩
  all_goals exact .inr (hflag _ _ e he)

theorem whole_styleEntries (s : Style) : ∀ e ∈ styleEntries s, e.2.Whole := by
  intro e he
  rcases value_styleEntries s e he with ⟨t, ht⟩ | hb
  · exact ht ▸ .string t
  · exact hb ▸ .bool true

theorem isComponent_runObject (r : Formatting.Run) : IsComponent (runObject r) := by
  apply isComponent_object
  intro e he
  rcases List.mem_cons.1 he with rfl | he
  · exact .string _
  · exact whole_styleEntries r.style e he

/-! ## Components of parts -/

/-- Putting components together gives a component. -/
theorem IsComponent.assemble {js : List Json} (h : ∀ j ∈ js, IsComponent j) :
    IsComponent (assemble js) := by
  have hempty : IsComponent empty := isComponent_single (.string [])
  unfold JavaMessage.assemble
  split
  · exact hempty
  · exact h _ (by simp)
  · next first rest _ =>
    split_ifs
    · exact hempty.insert "extra" (.array fun j hj => (h j hj).whole)
    · exact (h first (by simp)).insert "extra" (.array fun j hj => (h j (by simp [hj])).whole)

theorem isComponent_runs (rs : List Formatting.Run) : IsComponent (assemble (rs.map runObject)) :=
  .assemble (List.forall_mem_map.2 fun r _ => isComponent_runObject r)

theorem whole_argument (mode : MnMode) (t : Text) : (argument mode t).Whole := by
  unfold argument
  split
  · exact .string _
  · next run _ =>
    split_ifs
    · exact .string _
    · exact (isComponent_runs [run]).whole
  · exact (isComponent_runs _).whole

theorem isComponent_translateObject (mode : MnMode) (key : Text) (arguments : List Text) :
    IsComponent (translateObject mode key arguments) := by
  apply isComponent_object
  intro e he
  simp only [List.mem_cons, List.mem_append] at he
  rcases he with rfl | he | he
  · exact .string _
  · split_ifs at he
    · simp at he
    · rw [List.mem_singleton.1 he]
      exact .array (List.forall_mem_map.2 fun t _ => whole_argument mode t)
  · exact whole_styleEntries _ e he

theorem isComponent_scoreObject (name objective : Text) :
    IsComponent (scoreObject name objective) := by
  refine isComponent_single (.object ?_)
  simp only [List.forall_mem_cons, List.not_mem_nil, false_imp_iff, implies_true, and_true]
  exact ⟨.string _, .string _⟩

theorem isComponent_components (mode : MnMode) (p : Part) :
    ∀ j ∈ components mode p, IsComponent j := by
  intro j hj
  cases p with
  | text t =>
    obtain ⟨r, -, rfl⟩ := List.mem_map.1 hj
    exact isComponent_runObject r
  | translate key arguments =>
    rw [List.mem_singleton.1 hj]
    exact isComponent_translateObject mode key arguments
  | score name objective =>
    rw [List.mem_singleton.1 hj]
    exact isComponent_scoreObject name objective
  | selector conversion separator =>
    rw [List.mem_singleton.1 hj]
    apply isComponent_object
    intro e he
    rcases List.mem_cons.1 he with rfl | he
    · exact .string _
    · obtain ⟨s, -, rfl⟩ := Option.map_eq_some_iff.1 (Option.mem_toList.1 he)
      exact .string _

/-! ## Messages -/

theorem isComponent_ofParts (mode : MnMode) (ps : List Part) : IsComponent (ofParts mode ps) := by
  unfold ofParts
  split_ifs
  · exact isComponent_runs _
  · refine .assemble fun j hj => ?_
    obtain ⟨p, -, hj⟩ := List.mem_flatMap.1 hj
    exact isComponent_components mode p j hj

/-- A message is the text of a component. -/
theorem encode_eq (settings : Settings) (cs : List Component) :
    ∃ j, IsComponent j ∧ (encode settings cs).value.1 = j.print :=
  ⟨_, isComponent_ofParts _ _, rfl⟩

end JavaMessage

end CrossEdition
