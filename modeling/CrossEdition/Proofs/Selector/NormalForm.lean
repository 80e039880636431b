import CrossEdition.Proofs.Selector.Printing

/-!
# The text of a selector is a normal form

A text whose parameter list closes its quotes and brackets is read as a selector, and
that selector's own text is read as the same selector up to the spelling of its ranges.
Writing it once more gives the same text. The entries that were no parameters and the
blanks around names and values are gone after the first reading, and what is left of the
text is scanned as before.

Results:
* `reprinted_reread`: how each kind of value comes back from its text.
* `read_text_read`: the text of a selector that was read is a normal form.
-/

namespace CrossEdition

/-- How a value comes back from its own text: unchanged, or as a range with its ends
    normalized, or, with two ends of the same value, as a single number. -/
inductive Value.Reprinted : Value → Value → Prop where
  | same {v : Value} : (∀ b, v ≠ .range b) → Reprinted v v
  | range {b : Bounds} : b.isPoint = false → Reprinted (.range b) (.range b.normal)
  | point {lo hi : Text} : Numeral.compare? lo hi = some .eq →
      Reprinted (.range ⟨some lo, some hi⟩) (.scalar (Numeral.normalize lo))

/-- A range needs an end to come back as a range. -/
theorem Value.Faithful.reprinted_reread {v : Value} (h : v.Faithful)
    (hb : ∀ b, v = .range b → b.hasBound = true) : Reprinted v v.reread := by
  cases v with
  | range b =>
    cases hp : b.isPoint with
    | true =>
      obtain ⟨lo, hi, rfl, he, hr⟩ := h.reread_point hp
      rw [hr]
      exact .point he
    | false =>
      rw [h.reread_range hp (hb b rfl)]
      exact .range hp
  | scalar | compound | literal =>
    rw [h.reread_eq (by simp)]
    exact .same (by simp)

namespace Selector

variable {t : Text} {p : Parameter}

/-- A range that was read has an end. -/
theorem hasBound_of_mem_read (hp : p ∈ (read t).value.parameters) :
    ∀ b, p.value = .range b → b.hasBound = true := by
  obtain ⟨-, -, entry, -, hv⟩ := exists_entry hp
  unfold parameter? at hv
  split at hv
  · simp at hv
  · split_ifs at hv
    rw [← Option.some.inj hv]
    exact fun b hb => Value.read_hasBound hb

/-- The text of a selector that was read is a normal form. Reading it gives the same
    variable and the same names in the same order, each with its value up to the spelling
    of a range, and writing that gives the same text. The parameter list has to close its
    quotes and brackets; nothing else is asked of the text. -/
theorem read_text_read
    (hbody : ∀ body ∈ body? (Text.trim t), (Nesting.outside.scan body).isTop = true) :
    let s := (read t).value
    let again := (read s.text).value
    again.text = s.text ∧ again.head = s.head ∧
      List.Forall₂ (fun p p' => p'.name = p.name ∧ Value.Reprinted p.value p'.value)
        s.parameters again.parameters := by
  intro s again
  have hw : s.WellFormed _ := wellFormed_read
    (fun c hc => Bool.or_eq_true_iff.2 (.inl hc)) (closed_body hbody)
  have hagain : again = s.reread := by
    simp only [again, hw.read_text (by decide) (by decide), Noted.value_pure]
  rw [hagain]
  refine ⟨hw.text_reread, rfl, ?_⟩
  rw [parameters_reread, List.forall₂_map_right_iff, List.forall₂_same]
  intro p hp
  exact ⟨rfl, (faithful_of_mem_read hp).reprinted_reread (hasBound_of_mem_read hp)⟩

/-- Entries that are no parameters, an `=` between quotes, brackets of two kinds and ranges. -/
theorem read_text_read_of_stray_entries :
    let t : Text := " @e [ x = 7.0..7 , ,\"a=b,\\\"\" , = 1 , y = 01.50.. , n = {a:[1,2} ] , r=..] z"
    let s := (read t).value
    s.text = "@e[x=7,\"a=b,\\\"\",y=01.5..,n={a:[1,2} ],r=..]" ∧
      (read s.text).value.text = s.text := by
  intro t s
  exact ⟨by decide +kernel, (read_text_read (t := t) (by decide +kernel)).1⟩

end Selector

end CrossEdition
