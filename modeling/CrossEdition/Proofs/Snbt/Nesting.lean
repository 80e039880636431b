import CrossEdition.Snbt.Basic
import CrossEdition.Proofs.Selector.Printing

/-!
# Printed trees in parameter lists

A printed tree is one entry of a parameter list: its brackets are balanced, and no comma
stands outside them. What stands between quotes does not count, whatever it is, so only the
unquoted values have to be closed themselves.

Results:
* `closed_quoted`: a quoted string is closed.
* `closed_print`: a printed tree is closed.
-/

namespace CrossEdition

namespace Snbt

mutual

/-- Whether all unquoted values of a tree are closed for the separators of parameter lists. -/
def ClosedValues : Tag → Prop
  | .compound entries => ClosedEntries entries
  | .list items => ClosedItems items
  | .string _ => True
  | .value t => Text.Closed isSeparator t

/-- The same for the entries of a compound. -/
def ClosedEntries : List (Text × Tag) → Prop
  | [] => True
  | (_, tag) :: rest => ClosedValues tag ∧ ClosedEntries rest

/-- The same for the items of a list. -/
def ClosedItems : List Tag → Prop
  | [] => True
  | tag :: rest => ClosedValues tag ∧ ClosedItems rest

end

theorem closedEntries_iff {entries : List (Text × Tag)} :
    ClosedEntries entries ↔ ∀ entry ∈ entries, ClosedValues entry.2 := by
  induction entries with
  | nil => simp [ClosedEntries]
  | cons entry rest ih => rw [ClosedEntries, ih, List.forall_mem_cons]

theorem closedItems_iff {items : List Tag} :
    ClosedItems items ↔ ∀ tag ∈ items, ClosedValues tag := by
  induction items with
  | nil => simp [ClosedItems]
  | cons tag rest ih => rw [ClosedItems, ih, List.forall_mem_cons]

variable {p : Char → Bool} {sep : Char}

/-! ## Keys and strings -/

/-- Between quotes an escaped text reaches no top level, and it does not close them. -/
theorem scan_escape (t : Text) :
    Text.Clear p ⟨0, some '"', false⟩ (escape t) ∧
      Nesting.scan ⟨0, some '"', false⟩ (escape t) = ⟨0, some '"', false⟩ := by
  induction t with
  | nil => exact ⟨trivial, rfl⟩
  | cons c t ih =>
    unfold escape
    split_ifs with hc
    · -- the character behind a backslash does not count
      have h₁ : Nesting.step ⟨0, some '"', false⟩ '\\' = ⟨0, some '"', true⟩ := rfl
      have h₂ : Nesting.step ⟨0, some '"', true⟩ c = ⟨0, some '"', false⟩ := rfl
      rw [Text.clear_cons, Text.clear_cons, Nesting.scan_cons, Nesting.scan_cons, h₁, h₂]
      exact ⟨⟨rfl, rfl, ih.1⟩, ih.2⟩
    · rw [not_or] at hc
      have h : Nesting.step ⟨0, some '"', false⟩ c = ⟨0, some '"', false⟩ := by
        simp [Nesting.step, hc]
      rw [Text.clear_cons, Nesting.scan_cons, h]
      exact ⟨⟨rfl, ih.1⟩, ih.2⟩

theorem closed_quoted (hp : p '"' = false) (t : Text) : Text.Closed p (quoted t) := by
  obtain ⟨hc, hs⟩ := scan_escape (p := p) t
  have hopen : Nesting.outside.step '"' = ⟨0, some '"', false⟩ := rfl
  refine ⟨⟨by simp [hp], ?_⟩, ?_⟩
  · rw [hopen]
    refine Text.clear_append.2 ⟨hc, ?_⟩
    rw [hs]
    exact ⟨rfl, trivial⟩
  · show Nesting.scan (Nesting.outside.step '"') (escape t ++ ['"']) = _
    rw [hopen, Nesting.scan_append, hs]
    rfl

theorem isInert_of_isBareChar {c : Char} (h : isBareChar c = true) : isInert c = true := by
  have hall : ∀ n < 128, isBareChar (Char.ofNat n) = true → isInert (Char.ofNat n) = true := by
    decide
  have hc := hall c.toNat (isBareChar_ascii h)
  rw [Char.ofNat_toNat] at hc
  exact hc h

theorem closed_keyText (hq : Separates p) (hp : p '"' = false) (key : Text) :
    Text.Closed p (keyText key) := by
  unfold keyText
  split_ifs with hk
  · rw [isBareKey, Bool.and_eq_true, List.all_eq_true] at hk
    exact hq.closed fun c hc => isInert_of_isBareChar (hk.2 c hc)
  · exact closed_quoted hp key

/-! ## Trees -/

theorem separates_isClosing : Separates Text.isClosing :=
  fun _ hc => .inr hc

/-- What is closed for all separators is closed for brackets. -/
theorem closed_isClosing {t : Text} (h : Text.Closed isSeparator t) :
    Text.Closed Text.isClosing t :=
  h.mono fun _ hc => Bool.or_eq_true_iff.2 (.inl hc)

/-- Inside a bracket a comma is closed too. -/
theorem closed_comma : Text.Closed Text.isClosing [','] :=
  Text.closed_of_forall (by decide)

/-- One entry of a compound. -/
theorem closed_entry (hs : isInert sep = true) (key : Text) {t : Text}
    (h : Text.Closed isSeparator t) : Text.Closed Text.isClosing (keyText key ++ sep :: t) := by
  have hsep : Text.Closed Text.isClosing [sep] := separates_isClosing.closed (by simpa using hs)
  have hkey := closed_keyText separates_isClosing (by decide) key
  exact hkey.append (hsep.append (closed_isClosing h))

mutual

/-- A printed tree is closed for all separators of parameter lists. -/
theorem closed_print (hs : isInert sep = true) : ∀ tag, ClosedValues tag →
    Text.Closed isSeparator (print sep tag)
  | .compound entries, h =>
    Text.closed_enclosed (.inr rfl) (by decide) (closed_printEntries hs entries h) (by decide)
  | .list items, h =>
    Text.closed_enclosed (.inl rfl) (by decide) (closed_printItems hs items h) (by decide)
  | .string t, _ => closed_quoted (by decide) t
  | .value _, h => h

theorem closed_printEntries (hs : isInert sep = true) : ∀ entries, ClosedEntries entries →
    Text.Closed Text.isClosing (printEntries sep entries)
  | [], _ => Text.closed_nil
  | [(key, tag)], h => closed_entry hs key (closed_print hs tag h.1)
  | (key, tag) :: next :: more, h => by
    have hrest := closed_printEntries hs (next :: more) h.2
    have hentry := closed_entry hs key (closed_print hs tag h.1)
    rw [printEntries]
    · exact hentry.append (closed_comma.append hrest)
    · simp

theorem closed_printItems (hs : isInert sep = true) : ∀ items, ClosedItems items →
    Text.Closed Text.isClosing (printItems sep items)
  | [], _ => Text.closed_nil
  | [tag], h => closed_isClosing (closed_print hs tag h.1)
  | tag :: next :: more, h => by
    have hrest := closed_printItems hs (next :: more) h.2
    have hitem := closed_isClosing (closed_print hs tag h.1)
    rw [printItems]
    · exact hitem.append (closed_comma.append hrest)
    · simp

end

end Snbt

end CrossEdition
