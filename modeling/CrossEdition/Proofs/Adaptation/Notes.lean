import CrossEdition.Conversion
import Mathlib.Tactic.Common

/-!
# What the notes of a conversion are about

Reading and adapting a selector have a lot to say, but only about the selector. They never speak
of the list or the buffer that it stands in.

Results:
* `aboutSelector_toNbt`, `aboutSelector_findings?`: items on their way to Java, and to Bedrock.
* `aboutSelector_adapt`: adapting a selector to either edition.
* `convertDetected_aboutSelector`: the reminders of a conversion.
-/

namespace CrossEdition

/-- Whether a note is about a selector itself, not about the list or the buffer it stands in. -/
@[simp] def Note.isAboutSelector : Note → Bool
  | .strayMark _ | .strandedSeparator _ | .separatorsIgnored => false
  | _ => true

namespace Noted

variable {α β : Type} {x : Noted α} {f : α → Noted β} {xs : List (Noted α)} {n : Note} {a : α}

/-- Whether all notes on the way to a value are about a selector. -/
def AboutSelector (x : Noted α) : Prop :=
  ∀ n ∈ x.notes, n.isAboutSelector = true

@[simp] theorem aboutSelector_pure : (pure a : Noted α).AboutSelector :=
  List.forall_mem_nil _

@[simp] theorem aboutSelector_mk {ns : List Note} :
    (⟨a, ns⟩ : Noted α).AboutSelector ↔ ∀ n ∈ ns, n.isAboutSelector = true := Iff.rfl

@[simp] theorem aboutSelector_note : (note n).AboutSelector ↔ n.isAboutSelector = true :=
  List.forall_mem_singleton

@[simp] theorem aboutSelector_bind :
    (x >>= f).AboutSelector ↔ x.AboutSelector ∧ (f x.value).AboutSelector :=
  List.forall_mem_append

@[simp] theorem aboutSelector_all : (all xs).AboutSelector ↔ ∀ x ∈ xs, x.AboutSelector :=
  List.forall_mem_flatMap

theorem aboutSelector_foldlM {γ : Type} {f : β → γ → Noted β} {cs : List γ}
    (h : ∀ b c, (f b c).AboutSelector) (b : β) : (cs.foldlM f b).AboutSelector := by
  induction cs generalizing b with
  | nil => exact aboutSelector_pure
  | cons c cs ih => exact aboutSelector_bind.2 ⟨h b c, ih _⟩

/-- A reminder comes from a note about the selector if all notes are. -/
theorem AboutSelector.of_mem_reminders (h : x.AboutSelector) (r : Text) (hr : r ∈ x.reminders) :
    ∃ n : Note, n.isAboutSelector = true ∧ n.reminder? = some r := by
  obtain ⟨n, hn, hreminder⟩ := List.mem_filterMap.1 hr
  exact ⟨n, h n hn, hreminder⟩

end Noted

/-! ## Items -/

namespace Item

open Noted

theorem aboutSelector_clauses (t : Text) : (clauses t).AboutSelector := by
  unfold clauses
  split <;> simp

theorem aboutSelector_admitsQuantity (item : Text) (q : Option Text) :
    (admitsQuantity item q).AboutSelector := by
  unfold admitsQuantity
  split
  · simp
  · split_ifs <;> simp

theorem aboutSelector_slotOfPlace? (location : Text) (slot : Option Text) :
    (slotOfPlace? location slot).AboutSelector := by
  unfold slotOfPlace?
  split_ifs
  · simp
  · split
    · simp
    · split_ifs
      · simp
      · simp only
        split <;> simp
  · simp

theorem aboutSelector_placement? (clause : List (Text × Tag)) :
    (placement? clause).AboutSelector := by
  unfold placement?
  simp only
  split
  · simp
  · refine aboutSelector_bind.2 ⟨aboutSelector_admitsQuantity _ _, ?_⟩
    split_ifs
    · split
      · simp
      · split
        · simp
        · refine aboutSelector_bind.2 ⟨aboutSelector_slotOfPlace? _ _, ?_⟩
          split <;> simp
    · simp

theorem aboutSelector_toNbt (values : List Text) : (toNbt values).AboutSelector := by
  unfold toNbt
  simp only [aboutSelector_bind, aboutSelector_all, List.forall_mem_map]
  refine ⟨fun t _ => aboutSelector_clauses t, fun c _ => aboutSelector_placement? c, ?_⟩
  split_ifs <;> simp

theorem aboutSelector_place? (c : ItemClause) (slot : Tag) : (place? c slot).AboutSelector := by
  unfold place?
  split
  · simp
  · split_ifs <;> simp

theorem aboutSelector_slotted? (tag : Tag) (unplaced : ItemClause → ItemClause) :
    (slotted? tag unplaced).AboutSelector := by
  unfold slotted?
  split
  · simp
  · split
    · exact aboutSelector_place? _ _
    · simp

theorem aboutSelector_wornClause? (key : Text) (tag : Tag) :
    (wornClause? key tag).AboutSelector := by
  unfold wornClause?
  split <;> simp

theorem aboutSelector_itemsOf (tag : Tag) : (itemsOf tag).AboutSelector := by
  simp only [itemsOf, aboutSelector_bind, aboutSelector_all, List.forall_mem_map,
    aboutSelector_pure, and_true]
  exact ⟨fun t _ => aboutSelector_slotted? t _, fun t _ => aboutSelector_slotted? t _,
    fun e _ => aboutSelector_wornClause? e.1 e.2⟩

theorem aboutSelector_tagParameter? (tag : Tag) : (tagParameter? tag).AboutSelector := by
  unfold tagParameter?
  simp only
  split
  · simp
  · split_ifs <;> simp

theorem aboutSelector_findings? (nbt : Text) : (findings? nbt).AboutSelector := by
  unfold findings?
  split
  · simp
  · simp only [aboutSelector_bind, aboutSelector_note, aboutSelector_itemsOf,
      aboutSelector_tagParameter?, Note.isAboutSelector, true_and]
    split_ifs <;> simp
  · simp

end Item

/-! ## Selectors -/

namespace Selector

open Noted

theorem aboutSelector_displace {f : Parameter → Noted (Option (List Parameter))}
    (h : ∀ p, (f p).AboutSelector) (s : Selector) : (displace f s).AboutSelector :=
  List.forall_mem_flatMap.2 fun p _ => h p

theorem aboutSelector_dropExclusive (target : Dialect) (s : Selector) :
    (dropExclusive target s).AboutSelector := by
  refine aboutSelector_displace (fun p => ?_) s
  split <;> simp

theorem aboutSelector_splitRange (pair : RangePair) (s : Selector) :
    (splitRange pair s).AboutSelector := by
  refine aboutSelector_displace (fun p => ?_) s
  split_ifs
  · split <;> simp
  · simp

theorem aboutSelector_modeOfGamemode (p : Parameter) : (modeOfGamemode p).AboutSelector := by
  unfold modeOfGamemode
  split_ifs
  · simp only
    split_ifs <;> simp
  · simp

theorem aboutSelector_countFor (head : Variable) (sort limit : Option Text) :
    (countFor head sort limit).AboutSelector := by
  unfold countFor
  split
  · split_ifs <;> simp
  · split_ifs
    · simp
    · split <;> simp
    all_goals simp

theorem aboutSelector_joinLimit (s : Selector) : (joinLimit s).AboutSelector := by
  unfold joinLimit
  simp only
  split_ifs
  · simp
  · simp [aboutSelector_countFor]
  · simp [aboutSelector_countFor]

theorem aboutSelector_findingsOf (p : Parameter) : (findingsOf p).AboutSelector := by
  unfold findingsOf
  split_ifs
  · split
    · refine aboutSelector_bind.2 ⟨Item.aboutSelector_findings? _, ?_⟩
      split
      · simp
      · split_ifs <;> simp
    · simp
  · simp

theorem aboutSelector_gatherItems (s : Selector) : (gatherItems s).AboutSelector :=
  List.forall_mem_flatMap.2 fun p _ => aboutSelector_findingsOf p

theorem aboutSelector_toBedrock (s : Selector) : (toBedrock s).AboutSelector := by
  simp only [toBedrock, aboutSelector_bind, aboutSelector_dropExclusive, aboutSelector_joinLimit,
    aboutSelector_gatherItems, aboutSelector_displace aboutSelector_modeOfGamemode, true_and,
    and_true]
  exact aboutSelector_foldlM (fun s pair => aboutSelector_splitRange pair s) _

theorem aboutSelector_replaceVariable (s : Selector) : (replaceVariable s).AboutSelector := by
  unfold replaceVariable
  split_ifs <;> simp

theorem aboutSelector_gamemodeOfMode (p : Parameter) : (gamemodeOfMode p).AboutSelector := by
  unfold gamemodeOfMode
  split_ifs
  · simp only
    split_ifs <;> simp
  · simp

theorem aboutSelector_splitCount (s : Selector) : (splitCount s).AboutSelector := by
  unfold splitCount
  simp only
  split
  · simp
  · split
    · simp
    · split_ifs <;> simp

theorem aboutSelector_itemsToNbt (s : Selector) : (itemsToNbt s).AboutSelector := by
  unfold itemsToNbt
  split_ifs
  · simp [Item.aboutSelector_toNbt]
  · simp

theorem aboutSelector_positiveScores (p : Parameter) : (positiveScores p).AboutSelector := by
  unfold positiveScores
  simp only
  split
  · exact List.forall_mem_map.2 fun _ _ => rfl
  · exact aboutSelector_pure

theorem aboutSelector_toJava (s : Selector) : (toJava s).AboutSelector := by
  simp only [toJava, aboutSelector_bind, aboutSelector_replaceVariable,
    aboutSelector_dropExclusive, aboutSelector_displace aboutSelector_gamemodeOfMode,
    aboutSelector_splitCount, aboutSelector_itemsToNbt,
    aboutSelector_displace aboutSelector_positiveScores, and_self]

theorem aboutSelector_adapt (target : Dialect) (asHull : Bool) (s : Selector) :
    (adapt target asHull s).AboutSelector := by
  cases target <;> simp [adapt, aboutSelector_toBedrock, aboutSelector_toJava]

theorem aboutSelector_parameter? (entry : Text) : (parameter? entry).AboutSelector := by
  unfold parameter?
  split
  · simp
  · split_ifs <;> simp

theorem aboutSelector_read (t : Text) : (read t).AboutSelector := by
  simp only [read, aboutSelector_bind, aboutSelector_all, List.forall_mem_map, aboutSelector_pure,
    and_true]
  exact fun e _ => aboutSelector_parameter? e

theorem aboutSelector_filter (target : Dialect) (settings : Settings) (t : Text) :
    (filter target settings t).AboutSelector := by
  simp [filter, aboutSelector_read, aboutSelector_adapt]

end Selector

/-! ## Conversions -/

/-- Whether all reminders of a conversion are about its selector. -/
def Conversion.AboutSelector (c : Conversion) : Prop :=
  ∀ r ∈ c.javaReminders ++ c.bedrockReminders,
    ∃ n : Note, n.isAboutSelector = true ∧ n.reminder? = some r

namespace Selector

theorem convertMixed_aboutSelector (s : Selector) (given : Text) :
    (convertMixed s given).value.AboutSelector := by
  have hside (target : Dialect) (r : Text)
      (hr : r ∈ (s.adapt target true).reminders ++ Note.mixedMode.reminder?.toList) :
      ∃ n : Note, n.isAboutSelector = true ∧ n.reminder? = some r := by
    rcases List.mem_append.1 hr with hr | hr
    · exact (aboutSelector_adapt target true s).of_mem_reminders r hr
    · exact ⟨.mixedMode, rfl, Option.mem_toList.1 hr⟩
  exact List.forall_mem_append.2 ⟨hside .java, hside .bedrock⟩

theorem convert_aboutSelector (target : Dialect) (settings : Settings) (t : Text) :
    (convert target settings t).value.AboutSelector := by
  simp only [convert, Noted.value_bind]
  split_ifs
  · exact convertMixed_aboutSelector _ _
  · have hfilter := (aboutSelector_filter target settings (Text.trim t)).of_mem_reminders
    cases target with
    | universal => exact List.forall_mem_nil _
    | java => exact List.forall_mem_append.2 ⟨hfilter, List.forall_mem_nil _⟩
    | bedrock => exact List.forall_mem_append.2 ⟨List.forall_mem_nil _, hfilter⟩

/-- Every reminder of a conversion is about its selector. -/
theorem convertDetected_aboutSelector (settings : Settings) (t : Text) :
    (convertDetected settings t).value.AboutSelector := by
  rw [convertDetected, Noted.value_bind]
  split <;> exact convert_aboutSelector _ _ _

end Selector

end CrossEdition
