import CrossEdition.Proofs.Chat.VisibleText

/-!
# Texts symbol by symbol

A text is read in steps: a visible character, a code with its suffix, or a code without one. What
stands behind a text is read on its own, unless the text ends inside a code: with a sign, or with
an `m` or `n` whose suffix is still missing.

Results:
* `stepInduction`: induction over the steps of a text.
* `symbols_append`: the symbols of two texts in a row.
* `endsInside_iff`: which texts are read otherwise in front of some text.
-/

namespace CrossEdition

namespace Formatting

variable {mode : MnMode} {c code : Char} {t u rest : Text} {k : Code}

/-! ## Steps -/

/-- Induction over the steps in which a text is read. -/
@[elab_as_elim]
theorem stepInduction (mode : MnMode) {motive : Text → Prop} (nil : motive [])
    (lone : motive [sign])
    (visible : ∀ c rest, c ≠ sign → motive rest → motive (c :: rest))
    (suffixed : ∀ code f rest k, suffixed? mode code ('_' :: f :: rest) = some k → motive rest →
      motive (sign :: code :: '_' :: f :: rest))
    (code : ∀ code rest, suffixed? mode code rest = none → motive rest →
      motive (sign :: code :: rest)) (t : Text) : motive t := by
  induction ht : t.length using Nat.strongRecOn generalizing t with
  | ind n ih =>
    subst ht
    rcases t with _ | ⟨c, _ | ⟨d, rest⟩⟩
    · exact nil
    · by_cases hc : c = sign
      · exact hc ▸ lone
      · exact visible c [] hc nil
    · by_cases hc : c = sign
      · subst hc
        cases hs : suffixed? mode d rest with
        | none => exact code d rest hs (ih _ (by simp only [List.length_cons]; omega) _ rfl)
        | some k =>
          obtain ⟨-, -, f, more, rfl, -⟩ := exists_of_suffixed? hs
          exact suffixed d f more k hs (ih _ (by simp only [List.length_cons]; omega) _ rfl)
      · exact visible c _ hc (ih _ (by simp) _ rfl)

/-- The symbols that a code without a suffix is read as. -/
def Meaning.symbols (code : Char) : Meaning → List Symbol
  | .code k => [.code k]
  | .nothing => []
  | .text => [.visible sign, .visible code]

theorem symbols_cons (hc : c ≠ sign) (t : Text) :
    symbols mode (c :: t) = .visible c :: symbols mode t := by
  rw [symbols.eq_def]
  simp only [hc, if_false]

theorem symbols_suffixed {u f : Char} (h : suffixed? mode code (u :: f :: rest) = some k) :
    symbols mode (sign :: code :: u :: f :: rest) = .code k :: symbols mode rest := by
  rw [symbols.eq_3 mode sign code k u f rest h, if_pos rfl]

theorem symbols_code (h : suffixed? mode code rest = none) :
    symbols mode (sign :: code :: rest) =
      (meaning mode code).symbols code ++ symbols mode rest := by
  rw [symbols.eq_4 mode sign code rest (by simp [h]), if_pos rfl]
  cases meaning mode code <;> rfl

/-! ## The end of a text -/

/-- Whether a code in front of a text can still get a suffix from what stands behind it. -/
def awaitsSuffix (mode : MnMode) (code : Char) (rest : Text) : Bool :=
  mode ≠ .color ∧ (code = 'm' ∨ code = 'n') ∧ (rest = [] ∨ rest = ['_'])

/-- Whether a text ends inside a code. -/
def endsInside (mode : MnMode) : Text → Bool
  | [] => false
  | c :: rest =>
    if c = sign then
      match rest with
      | [] => true
      | code :: rest =>
        match suffixed? mode code rest, rest with
        | some _, _ :: _ :: rest => endsInside mode rest
        | _, rest => awaitsSuffix mode code rest || endsInside mode rest
    else endsInside mode rest

theorem endsInside_cons (hc : c ≠ sign) (t : Text) :
    endsInside mode (c :: t) = endsInside mode t := by
  rw [endsInside.eq_def]
  simp only [hc, if_false]

theorem endsInside_suffixed {u f : Char} (h : suffixed? mode code (u :: f :: rest) = some k) :
    endsInside mode (sign :: code :: u :: f :: rest) = endsInside mode rest := by
  rw [endsInside.eq_3 mode sign code u f rest k h, if_pos rfl]

theorem endsInside_code (h : suffixed? mode code rest = none) :
    endsInside mode (sign :: code :: rest) =
      (awaitsSuffix mode code rest || endsInside mode rest) := by
  rw [endsInside.eq_4 mode sign code rest (by simp [h]), if_pos rfl]

/-- Only `m` and `n` take suffixes, and not where both are colors anyway. -/
theorem suffixed?_of_not_dual (h : ¬ (mode ≠ .color ∧ (code = 'm' ∨ code = 'n'))) (rest : Text) :
    suffixed? mode code rest = none := by
  have h' : mode = .color ∨ ¬ (code = 'm' ∨ code = 'n') := by tauto
  unfold suffixed?
  split
  · rw [if_pos h']
  · rfl

/-- Only the next two characters can be a suffix. -/
theorem suffixed?_cons_cons (c d : Char) (rest : Text) :
    suffixed? mode code (c :: d :: rest) = suffixed? mode code [c, d] := by
  by_cases hc : c = '_'
  · subst hc
    rfl
  · simp [suffixed?, hc]

/-- A code that awaits no suffix gets none from what stands behind it. -/
theorem suffixed?_append (h : suffixed? mode code rest = none)
    (ha : awaitsSuffix mode code rest = false) (u : Text) :
    suffixed? mode code (rest ++ u) = none := by
  by_cases hdual : mode ≠ .color ∧ (code = 'm' ∨ code = 'n')
  · have hrest : ¬ (rest = [] ∨ rest = ['_']) := fun hrest =>
      of_decide_eq_false ha ⟨hdual.1, hdual.2, hrest⟩
    rcases rest with _ | ⟨c, _ | ⟨d, rest⟩⟩
    · simp at hrest
    · have hc : c ≠ '_' := by simpa using hrest
      simp [suffixed?, hc]
    · rw [List.cons_append, List.cons_append, suffixed?_cons_cons, ← suffixed?_cons_cons c d rest, h]
  · exact suffixed?_of_not_dual hdual _

/-- The symbols of two texts in a row, of which the first does not end inside a code. -/
theorem symbols_append (h : endsInside mode t = false) (u : Text) :
    symbols mode (t ++ u) = symbols mode t ++ symbols mode u := by
  induction t using stepInduction mode with
  | nil => rfl
  | lone => simp [endsInside] at h
  | visible c rest hc ih =>
    rw [endsInside_cons hc] at h
    rw [List.cons_append, symbols_cons hc, symbols_cons hc, ih h, List.cons_append]
  | suffixed code f rest k hs ih =>
    rw [endsInside_suffixed hs] at h
    have hsu : suffixed? mode code ('_' :: f :: (rest ++ u)) = some k := hs
    simp only [List.cons_append]
    rw [symbols_suffixed hsu, symbols_suffixed hs, ih h, List.cons_append]
  | code code rest hs ih =>
    rw [endsInside_code hs, Bool.or_eq_false_iff] at h
    simp only [List.cons_append]
    rw [symbols_code (suffixed?_append hs h.1 u), symbols_code hs, ih h.2, List.append_assoc]

/-- What would complete a code that awaits its suffix. -/
theorem exists_symbols_append_ne_of_awaitsSuffix (h : awaitsSuffix mode code rest = true) :
    ∃ u, symbols mode (sign :: code :: (rest ++ u)) ≠
      symbols mode (sign :: code :: rest) ++ symbols mode u := by
  obtain ⟨hmode, hcode, hrest⟩ := of_decide_eq_true h
  rcases hrest with rfl | rfl
  · refine ⟨"_f", ?_⟩
    cases mode with
    | color => exact absurd rfl hmode
    | font | suffix => rcases hcode with rfl | rfl <;> decide
  · refine ⟨"f", ?_⟩
    cases mode with
    | color => exact absurd rfl hmode
    | font | suffix => rcases hcode with rfl | rfl <;> decide

/-- A text ends inside a code exactly if some text behind it changes how it is read. -/
theorem endsInside_iff (mode : MnMode) (t : Text) : endsInside mode t = true ↔
    ∃ u, symbols mode (t ++ u) ≠ symbols mode t ++ symbols mode u := by
  constructor
  · intro h
    induction t using stepInduction mode with
    | nil => simp [endsInside] at h
    | lone => exact ⟨"k", by cases mode <;> decide⟩
    | visible c rest hc ih =>
      rw [endsInside_cons hc] at h
      obtain ⟨u, hu⟩ := ih h
      refine ⟨u, ?_⟩
      rw [List.cons_append, symbols_cons hc, symbols_cons hc, List.cons_append]
      exact fun heq => hu (List.cons.inj heq).2
    | suffixed code f rest k hs ih =>
      rw [endsInside_suffixed hs] at h
      obtain ⟨u, hu⟩ := ih h
      refine ⟨u, ?_⟩
      have hsu : suffixed? mode code ('_' :: f :: (rest ++ u)) = some k := hs
      simp only [List.cons_append]
      rw [symbols_suffixed hsu, symbols_suffixed hs, List.cons_append]
      exact fun heq => hu (List.cons.inj heq).2
    | code code rest hs ih =>
      cases ha : awaitsSuffix mode code rest with
      | true => exact exists_symbols_append_ne_of_awaitsSuffix ha
      | false =>
        rw [endsInside_code hs, ha, Bool.false_or] at h
        obtain ⟨u, hu⟩ := ih h
        refine ⟨u, ?_⟩
        simp only [List.cons_append]
        rw [symbols_code (suffixed?_append hs ha u), symbols_code hs, List.append_assoc]
        exact fun heq => hu (List.append_cancel_left heq)
  · rintro ⟨u, hu⟩
    by_contra h
    exact hu (symbols_append (Bool.eq_false_iff.2 h) u)

end Formatting

end CrossEdition
