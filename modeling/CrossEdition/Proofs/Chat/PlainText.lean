import CrossEdition.Proofs.Chat.Symbols
import CrossEdition.Proofs.Chat.ShownMessage

/-!
# Text without codes

The runs of a text are its longest pieces of one style. What is visible of a text is made of
characters that are no signs, and of signs in front of codes that are unknown. Both are visible
again, however `m` and `n` are understood, and no two of them make a code together.

Results:
* `isChain_group`: runs next to each other differ in style.
* `symbols_shown`: every symbol of visible characters is one of them.
* `runs_stripped`: runs are in normal form, and their text has no code left in it.
-/

namespace CrossEdition

namespace Formatting

variable {mode : MnMode} {c code : Char} {rest : Text}

/-! ## Runs next to each other -/

theorem isChain_group (cs : List (Char × Style)) :
    (group cs).IsChain fun r next => r.style ≠ next.style := by
  induction cs with
  | nil => exact .nil
  | cons p cs ih =>
    obtain ⟨c, s⟩ := p
    unfold group
    split
    · exact .singleton _
    · next run runs hruns =>
      rw [hruns] at ih
      split_ifs with hs
      · -- The run grows in front and keeps its style, so it still differs from the next one.
        rw [List.isChain_cons] at ih ⊢
        exact ⟨fun next hnext => hs ▸ ih.1 next hnext, ih.2⟩
      · exact .cons_cons (Ne.symm hs) ih

/-- Characters of one style are a single run. -/
theorem group_map_pair (s : Style) (t : Text) :
    group (t.map (·, s)) = if t = [] then [] else [⟨t, s⟩] := by
  induction t with
  | nil => rfl
  | cons c t ih =>
    rw [List.map_cons, group, ih]
    by_cases ht : t = [] <;> simp [ht]

/-! ## Visible characters again -/

/-- An unknown code takes no suffix. -/
theorem suffixed?_of_unknown (h : meaning mode code = .text) (rest : Text) :
    suffixed? mode code rest = none := by
  cases hs : suffixed? mode code rest with
  | none => rfl
  | some k => exact absurd ((meaning_eq_text_iff mode code).1 h) (exists_of_suffixed? hs).2.1

theorem symbols_unknown (h : meaning mode code = .text) (rest : Text) :
    symbols mode (sign :: code :: rest) = .visible sign :: .visible code :: symbols mode rest := by
  rw [symbols_code (suffixed?_of_unknown h rest), h]
  rfl

/-- What is visible of a text has no codes, however `m` and `n` are understood in it. -/
theorem symbols_shown (mode mode' : MnMode) (t : Text) :
    symbols mode' (shown mode t) = (shown mode t).map .visible := by
  induction t using stepInduction mode with
  | nil => rfl
  | lone => rfl
  | visible c rest hc ih => rw [shown_cons hc, symbols_cons hc, ih, List.map_cons]
  | suffixed code f rest k hs ih => rw [shown_suffixed hs, ih]
  | code code rest hs ih =>
    by_cases hm : meaning mode code = .text
    · -- The code is unknown in every mode, so the pair is read as two characters again.
      have hm' : meaning mode' code = .text := by
        rwa [meaning_eq_text_iff, ← meaning_eq_text_iff mode]
      rw [shown_unknown hs hm, symbols_unknown hm', ih, List.map_cons, List.map_cons]
    · rw [shown_code hs hm, ih]

theorem styled_map_visible (s : Style) (t : Text) :
    styled s (t.map .visible) = t.map (·, s) := by
  induction t with
  | nil => rfl
  | cons c t ih => rw [List.map_cons, styled, ih, List.map_cons]

/-- What is visible of a text is a single plain run again, unless it is empty. -/
theorem runs_shown (mode mode' : MnMode) (t : Text) :
    runs mode' (shown mode t) =
      if shown mode t = [] then [] else [⟨shown mode t, .plain⟩] := by
  rw [runs, symbols_shown, styled_map_visible, group_map_pair]

theorem shown_shown (mode mode' : MnMode) (t : Text) :
    shown mode' (shown mode t) = shown mode t := by
  rw [← runText_runs mode', runs_shown]
  split_ifs with h
  · exact h.symm
  · exact List.append_nil _

/-- The runs of a text are not empty and neighbors differ in style. Their text has no code left
    in it: in every mode it is a single plain run, or none if it is empty. So nothing more is
    taken away from a text without its codes. -/
theorem runs_stripped (mode : MnMode) (t : Text) :
    (∀ r ∈ runs mode t, r.text ≠ []) ∧
      (runs mode t).IsChain (fun r next => r.style ≠ next.style) ∧
      (∀ mode', runs mode' (runText (runs mode t)) =
        if runText (runs mode t) = [] then [] else [⟨runText (runs mode t), .plain⟩]) ∧
      plainText (plainText t) = plainText t := by
  refine ⟨text_ne_nil_of_mem_group, isChain_group _, fun mode' => ?_, ?_⟩
  · rw [runText_runs]
    exact runs_shown mode mode' t
  · simp only [plainText, runText_runs]
    exact shown_shown .font .font t

end Formatting

end CrossEdition
