import CrossEdition.Chat.Entry
import CrossEdition.Proofs.Text.Quoted

/-!
# Lists of entries

A list of selectors is split at the commas outside all brackets. Other than inside a selector,
quotes do not matter here, so a bracket between quotes counts like any other. An entry stays whole
in a list if its commas stand inside brackets also when its quotes are read as letters, and if it
closes the brackets that it opens or is the last one.

Results:
* `clear_or_exists_comma`: a list is a single entry, or is split at its first comma outside
  brackets.
* `items_join_cons`: the items of a list whose first entry stays whole.
-/

namespace CrossEdition

namespace Entry

open Nesting (isQuote)
open Text (Clear)

variable {c : Char} {d : Nat} {e t : Text} {es : List Text}

/-! ## Texts without quotes -/

/-- A character as a list of entries sees it, to which quotes are letters. -/
def letter (c : Char) : Char :=
  if isQuote c then '_' else c

/-- A text as a list of entries sees it. -/
def unquoted (t : Text) : Text :=
  t.map letter

/-- The state outside quotes and inside so many brackets. -/
def inside (d : Nat) : Nesting :=
  ⟨d, none, false⟩

/-- The number of brackets behind one more character. -/
def deepen (d : Nat) (c : Char) : Nat :=
  if c = '[' ∨ c = '{' then d + 1 else if c = ']' ∨ c = '}' then d - 1 else d

theorem letter_eq_iff {m : Char} (hm : isQuote m = false) (hl : m ≠ '_') :
    letter c = m ↔ c = m := by
  unfold letter
  split_ifs with h
  · refine iff_of_false (Ne.symm hl) ?_
    rintro rfl
    rw [h] at hm
    exact Bool.noConfusion hm
  · rfl

theorem step_letter (d : Nat) (c : Char) : (inside d).step (letter c) = inside (deepen d c) := by
  have hq : ¬ (letter c = '"' ∨ letter c = '\'') := by
    unfold letter
    split_ifs with h
    · decide
    · simpa [isQuote] using h
  have h := fun m hm hl => letter_eq_iff (c := c) (m := m) hm hl
  simp only [inside, Nesting.step, if_neg hq, h '[' rfl (by decide), h '{' rfl (by decide),
    h ']' rfl (by decide), h '}' rfl (by decide), deepen]
  split_ifs <;> rfl

theorem clear_unquoted_cons : Clear (· = ',') (inside d) (unquoted (c :: t)) ↔
    ¬ (c = ',' ∧ d = 0) ∧ Clear (· = ',') (inside (deepen d c)) (unquoted t) := by
  rw [unquoted, List.map_cons, Text.clear_cons, step_letter, ← unquoted]
  have hcomma : letter c = ',' ↔ c = ',' := letter_eq_iff rfl (by decide)
  have htop : ((inside d).isTop && decide (letter c = ',')) = false ↔ ¬ (c = ',' ∧ d = 0) := by
    by_cases hd : d = 0 <;> simp [Nesting.isTop, inside, hcomma, hd]
  rw [htop]

theorem scan_unquoted_cons (d : Nat) (c : Char) (t : Text) :
    (inside d).scan (unquoted (c :: t)) = (inside (deepen d c)).scan (unquoted t) := by
  rw [unquoted, List.map_cons, Nesting.scan_cons, step_letter, ← unquoted]

/-! ## Splitting -/

theorem splitFrom_cons (hc : c ≠ '\\') (d : Nat) (t : Text) : splitFrom true d (c :: t) =
    if c = ',' ∧ d = 0 then [] :: splitFrom true 0 t
    else splitFrom.extend c (splitFrom true (deepen d c) t) := by
  rw [splitFrom.eq_3 true d c t fun _ h => absurd h hc]
  simp only [true_and, deepen]
  split_ifs <;> simp_all

/-- A text with all its commas inside brackets is a single entry. -/
theorem splitFrom_of_clear (ht : '\\' ∉ t) (h : Clear (· = ',') (inside d) (unquoted t)) :
    splitFrom true d t = [t] := by
  induction t generalizing d with
  | nil => rfl
  | cons c t ih =>
    rw [List.mem_cons, not_or] at ht
    rw [clear_unquoted_cons] at h
    rw [splitFrom_cons (Ne.symm ht.1), if_neg h.1, ih ht.2 h.2]
    rfl

/-- An entry that closes its brackets ends at the next comma. -/
theorem splitFrom_append (ht : '\\' ∉ t) (h : Clear (· = ',') (inside d) (unquoted t))
    (hs : (inside d).scan (unquoted t) = .outside) (u : Text) :
    splitFrom true d (t ++ ',' :: u) = t :: splitFrom true 0 u := by
  induction t generalizing d with
  | nil =>
    have hd : d = 0 := congrArg Nesting.depth hs
    rw [List.nil_append, splitFrom_cons (by decide), if_pos ⟨rfl, hd⟩]
  | cons c t ih =>
    rw [List.mem_cons, not_or] at ht
    rw [clear_unquoted_cons] at h
    rw [scan_unquoted_cons] at hs
    rw [List.cons_append, splitFrom_cons (Ne.symm ht.1), if_neg h.1, ih ht.2 h.2 hs]
    rfl

/-- A text is a single entry, or it has a first comma outside brackets. -/
theorem clear_or_exists_comma (d : Nat) (t : Text) : Clear (· = ',') (inside d) (unquoted t) ∨
    ∃ e u, t = e ++ ',' :: u ∧ Clear (· = ',') (inside d) (unquoted e) ∧
      (inside d).scan (unquoted e) = .outside := by
  induction t generalizing d with
  | nil => exact .inl trivial
  | cons c t ih =>
    by_cases hc : c = ',' ∧ d = 0
    · obtain ⟨rfl, rfl⟩ := hc
      exact .inr ⟨[], t, rfl, trivial, rfl⟩
    · rcases ih (deepen d c) with h | ⟨e, u, rfl, h, hs⟩
      · exact .inl (clear_unquoted_cons.2 ⟨hc, h⟩)
      · refine .inr ⟨c :: e, u, rfl, clear_unquoted_cons.2 ⟨hc, h⟩, ?_⟩
        rwa [scan_unquoted_cons]

/-! ## Entries that stay whole -/

/-- Whether entries stay whole in a list: all their commas stand inside brackets, and all entries
    but the last close the brackets that they open, with quotes read as letters. -/
def StaysWhole (es : List Text) : Prop :=
  (∀ e ∈ es, Clear (· = ',') .outside (unquoted e)) ∧
    ∀ e ∈ es.dropLast, Nesting.outside.scan (unquoted e) = .outside

theorem staysWhole_cons : StaysWhole (e :: es) ↔ Clear (· = ',') .outside (unquoted e) ∧
    (es ≠ [] → Nesting.outside.scan (unquoted e) = .outside) ∧ StaysWhole es := by
  cases es with
  | nil => simp [StaysWhole]
  | cons f es =>
    simp only [StaysWhole, List.forall_mem_cons, List.dropLast_cons_cons, ne_eq, reduceCtorEq,
      not_false_eq_true, true_imp_iff]
    tauto

/-- What a single entry of a list is. -/
def item? (entry : Text) : Option Item :=
  let entry := Text.trim entry
  match Text.after? "sep:" entry with
  | some [] => some (.separator ",")
  | some separator => some (.separator separator)
  | none => if entry = [] then none else some (.selector entry)

theorem items_eq (t : Text) : items t = (split true t).filterMap item? := rfl

/-- The items of a list are those of its first entry and those of the rest. -/
theorem items_join_cons (he : '\\' ∉ e) (hclear : Clear (· = ',') .outside (unquoted e))
    (hscan : es ≠ [] → Nesting.outside.scan (unquoted e) = .outside) :
    items (Text.join [','] (e :: es)) = (item? e).toList ++ items (Text.join [','] es) := by
  have hcons (fs : List Text) :
      (e :: fs).filterMap item? = (item? e).toList ++ fs.filterMap item? := by
    rw [List.filterMap_cons]
    cases item? e <;> rfl
  rcases eq_or_ne es [] with rfl | hne
  · have hjoin : Text.join [','] [e] = e := rfl
    rw [hjoin, items_eq, split, splitFrom_of_clear he hclear, hcons]
    rfl
  · rw [Text.join_cons_of_ne_nil ',' e hne, items_eq, split, splitFrom_append he hclear (hscan hne),
      hcons]
    rfl

end Entry

end CrossEdition
