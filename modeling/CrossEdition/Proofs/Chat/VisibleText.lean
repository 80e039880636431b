import CrossEdition.Chat.Formatting
import Mathlib.Data.List.Basic
import Mathlib.Tactic.Common

/-!
# What both editions show of a text

Java shows the characters that are no codes. Bedrock gets a text in which `m` and `n` have
lost their suffixes, and reads the two as colors. Both go through the text in steps of one
character, one code, or one code with its suffix, and they take the same steps but in one
place: two signs in a row are text for Java, while the second one of them can take a suffix
away for Bedrock.

Results:
* `exists_step`: one step in both editions.
* `runText_bedrockText_iff`: when both show the same characters.
-/

namespace CrossEdition

namespace Formatting

variable {mode : MnMode} {c code : Char} {t rest : Text} {k : Code}

/-! ## Visible characters -/

/-- The visible characters among symbols. -/
def visible : List Symbol → Text
  | [] => []
  | .visible c :: rest => c :: visible rest
  | .code _ :: rest => visible rest

/-- The characters of a text that are visible in Java. -/
def shown (mode : MnMode) (t : Text) : Text :=
  visible (symbols mode t)

/-- The characters that are visible in Bedrock, where `m` and `n` are colors. -/
def shownInBedrock (mode : MnMode) (t : Text) : Text :=
  shown .color (bedrockText mode t)

theorem map_styled (s : Style) (ys : List Symbol) : (styled s ys).map (·.1) = visible ys := by
  induction ys generalizing s with
  | nil => rfl
  | cons y ys ih =>
    cases y with
    | visible c => simp [styled, visible, ih]
    | code k => exact ih _

/-- The runs of a text hold its visible characters. -/
theorem runText_runs (mode : MnMode) (t : Text) : runText (runs mode t) = shown mode t := by
  rw [runs, runText_group, map_styled, shown]

/-! ## Codes -/

theorem meaning_sign (mode : MnMode) : meaning mode sign = .text := by
  cases mode <;> decide

/-- Which characters are codes does not depend on what `m` and `n` mean. -/
theorem meaning_eq_text_iff (mode : MnMode) (code : Char) :
    meaning mode code = .text ↔ meaning .color code = .text := by
  unfold meaning
  split_ifs
  · cases mode <;> simp
  all_goals rfl

/-- A suffix is two characters behind `m` or `n`, and none of them is a sign. -/
theorem exists_of_suffixed? (h : suffixed? mode code rest = some k) :
    code ≠ sign ∧ meaning .color code ≠ .text ∧
      ∃ f more, rest = '_' :: f :: more ∧ f ≠ sign := by
  unfold suffixed? at h
  split at h
  · next f more =>
    have hcode : code = 'm' ∨ code = 'n' := by
      by_contra hcode
      simp [hcode] at h
    have hf : f ≠ sign := by
      rintro rfl
      simp [show ¬ sign = 'f' by decide, show ¬ sign = 'c' by decide] at h
    refine ⟨?_, ?_, f, more, rfl, hf⟩
    all_goals rcases hcode with rfl | rfl <;> decide
  · simp at h

theorem suffixed?_color (code : Char) (rest : Text) : suffixed? .color code rest = none := by
  unfold suffixed?
  split <;> simp

/-! ## One step in Java -/

theorem shown_cons (hc : c ≠ sign) (t : Text) : shown mode (c :: t) = c :: shown mode t := by
  rw [shown, symbols.eq_def]
  simp only [hc, if_false]
  rfl

theorem shown_lone_sign (mode : MnMode) : shown mode [sign] = [] := by
  simp [shown, symbols, visible]

theorem shown_suffixed {u f : Char} {more : Text}
    (h : suffixed? mode code (u :: f :: more) = some k) :
    shown mode (sign :: code :: u :: f :: more) = shown mode more := by
  rw [shown, symbols.eq_3 mode sign code k u f more h, if_pos rfl]
  rfl

theorem shown_code (h : suffixed? mode code rest = none) (hm : meaning mode code ≠ .text) :
    shown mode (sign :: code :: rest) = shown mode rest := by
  rw [shown, symbols.eq_4 mode sign code rest (by simp [h]), if_pos rfl]
  cases hcode : meaning mode code with
  | text => exact absurd hcode hm
  | _ => rfl

theorem shown_unknown (h : suffixed? mode code rest = none) (hm : meaning mode code = .text) :
    shown mode (sign :: code :: rest) = sign :: code :: shown mode rest := by
  rw [shown, symbols.eq_4 mode sign code rest (by simp [h]), if_pos rfl, hm]
  rfl

/-! ## One step in Bedrock -/

theorem bedrockText_cons (hc : c ≠ sign) (t : Text) :
    bedrockText mode (c :: t) = c :: bedrockText mode t :=
  bedrockText.eq_3 mode c t (by simp [hc])

theorem bedrockText_sign (h : beginsSuffixed mode t = false) :
    bedrockText mode (sign :: t) = sign :: bedrockText mode t :=
  bedrockText.eq_3 mode sign t (by simp [h])

theorem bedrockText_suffixed {u f : Char} {more : Text}
    (h : suffixed? mode code (u :: f :: more) = some k) :
    bedrockText mode (sign :: code :: u :: f :: more) = sign :: code :: bedrockText mode more :=
  bedrockText.eq_2 mode sign code u f more (by simp [beginsSuffixed, h])

theorem beginsSuffixed_cons_of_none (h : suffixed? mode code rest = none) :
    beginsSuffixed mode (code :: rest) = false := by
  simp [beginsSuffixed, h]

theorem suffixed?_sign (mode : MnMode) (rest : Text) : suffixed? mode sign rest = none := by
  cases h : suffixed? mode sign rest with
  | none => rfl
  | some k => exact absurd rfl (exists_of_suffixed? h).1

theorem shownInBedrock_cons (hc : c ≠ sign) (t : Text) :
    shownInBedrock mode (c :: t) = c :: shownInBedrock mode t := by
  rw [shownInBedrock, bedrockText_cons hc, shown_cons hc, shownInBedrock]

theorem shownInBedrock_suffixed {u f : Char} {more : Text}
    (h : suffixed? mode code (u :: f :: more) = some k) :
    shownInBedrock mode (sign :: code :: u :: f :: more) = shownInBedrock mode more := by
  rw [shownInBedrock, bedrockText_suffixed h,
    shown_code (suffixed?_color _ _) (exists_of_suffixed? h).2.1, shownInBedrock]

theorem shownInBedrock_code (h : suffixed? mode code rest = none)
    (hm : meaning mode code ≠ .text) :
    shownInBedrock mode (sign :: code :: rest) = shownInBedrock mode rest := by
  have hc : code ≠ sign := fun hc => hm (by rw [hc, meaning_sign])
  have hm' : meaning .color code ≠ .text := fun hm' => hm ((meaning_eq_text_iff mode code).2 hm')
  rw [shownInBedrock, bedrockText_sign (beginsSuffixed_cons_of_none h), bedrockText_cons hc,
    shown_code (suffixed?_color _ _) hm', shownInBedrock]

theorem shownInBedrock_unknown (h : suffixed? mode code rest = none)
    (hm : meaning mode code = .text) (hc : code ≠ sign) :
    shownInBedrock mode (sign :: code :: rest) = sign :: code :: shownInBedrock mode rest := by
  rw [shownInBedrock, bedrockText_sign (beginsSuffixed_cons_of_none h), bedrockText_cons hc,
    shown_unknown (suffixed?_color _ _) ((meaning_eq_text_iff mode code).1 hm), shownInBedrock]

/-- Two signs that no suffix stands behind. -/
theorem shownInBedrock_signs (h : beginsSuffixed mode t = false) :
    shownInBedrock mode (sign :: sign :: t) = sign :: sign :: shownInBedrock mode t := by
  rw [shownInBedrock, bedrockText_sign (beginsSuffixed_cons_of_none (suffixed?_sign mode t)),
    bedrockText_sign h, shown_unknown (suffixed?_color _ _) (meaning_sign .color), shownInBedrock]

/-- The second of two signs takes the suffix behind it away. -/
theorem shownInBedrock_signs_suffixed {u f : Char} {more : Text}
    (h : suffixed? mode code (u :: f :: more) = some k) :
    shownInBedrock mode (sign :: sign :: code :: u :: f :: more) =
      sign :: sign :: code :: shownInBedrock mode more := by
  rw [shownInBedrock, bedrockText_sign (beginsSuffixed_cons_of_none (suffixed?_sign mode _)),
    bedrockText_suffixed h, shown_unknown (suffixed?_color _ _) (meaning_sign .color),
    shown_cons (exists_of_suffixed? h).1, shownInBedrock]

/-! ## Even runs of signs -/

/-- Whether the text has somewhere an even number of signs in a row and, behind them, `m` or
    `n` with a suffix. -/
def SuffixBehindPairs (mode : MnMode) (t : Text) : Prop :=
  ∃ before pairs after, t = before ++ (List.replicate (2 * pairs + 2) sign ++ after) ∧
    before.getLast? ≠ some sign ∧ beginsSuffixed mode after = true

/-- A character in front does not matter, if it is no sign or no sign stands behind it. -/
theorem getLast?_cons_ne {before : Text} (h : before = [] → c ≠ sign) :
    (c :: before).getLast? ≠ some sign ↔ before.getLast? ≠ some sign := by
  cases before with
  | nil => simpa using h rfl
  | cons d before => simp

theorem replicate_pairs_succ (pairs : Nat) :
    List.replicate (2 * (pairs + 1) + 2) sign =
      sign :: sign :: List.replicate (2 * pairs + 2) sign := by
  simp [List.replicate_succ, Nat.mul_succ]

theorem suffixBehindPairs_cons (hc : c ≠ sign) :
    SuffixBehindPairs mode (c :: t) ↔ SuffixBehindPairs mode t := by
  constructor
  · rintro ⟨before, pairs, after, ht, hb, ha⟩
    cases before with
    | nil => simp [List.replicate_succ, hc] at ht
    | cons d before =>
      rw [List.cons_append, List.cons.injEq] at ht
      obtain ⟨rfl, ht⟩ := ht
      exact ⟨before, pairs, after, ht, (getLast?_cons_ne fun _ => hc).1 hb, ha⟩
  · rintro ⟨before, pairs, after, rfl, hb, ha⟩
    exact ⟨c :: before, pairs, after, rfl, (getLast?_cons_ne fun _ => hc).2 hb, ha⟩

/-- A single sign is no pair. -/
theorem suffixBehindPairs_sign (hc : code ≠ sign) :
    SuffixBehindPairs mode (sign :: code :: t) ↔ SuffixBehindPairs mode t := by
  refine Iff.trans ?_ (suffixBehindPairs_cons hc)
  have hne : ∀ {before pairs after},
      code :: t = before ++ (List.replicate (2 * pairs + 2) sign ++ after) → before ≠ [] := by
    rintro _ pairs after ht rfl
    simp [List.replicate_succ, hc] at ht
  constructor
  · rintro ⟨before, pairs, after, ht, hb, ha⟩
    cases before with
    | nil => simp [List.replicate_succ, hc] at ht
    | cons d before =>
      rw [List.cons_append, List.cons.injEq] at ht
      obtain ⟨rfl, ht⟩ := ht
      exact ⟨before, pairs, after, ht, (getLast?_cons_ne fun h => absurd h (hne ht)).1 hb, ha⟩
  · rintro ⟨before, pairs, after, ht, hb, ha⟩
    exact ⟨sign :: before, pairs, after, by rw [ht]; rfl,
      (getLast?_cons_ne fun h => absurd h (hne ht)).2 hb, ha⟩

theorem suffixBehindPairs_signs : SuffixBehindPairs mode (sign :: sign :: t) ↔
    beginsSuffixed mode t = true ∨ SuffixBehindPairs mode t := by
  constructor
  · rintro ⟨before, pairs, after, ht, hb, ha⟩
    rcases before with _ | ⟨d, _ | ⟨e, before⟩⟩
    · cases pairs with
      | zero =>
        obtain rfl : t = after := by simpa using ht
        exact .inl ha
      | succ pairs =>
        refine .inr ⟨[], pairs, after, ?_, by simp, ha⟩
        simpa [replicate_pairs_succ] using ht
    · rw [List.cons_append, List.cons.injEq] at ht
      simp [← ht.1] at hb
    · simp only [List.cons_append, List.cons.injEq] at ht
      obtain ⟨rfl, rfl, ht⟩ := ht
      have hne : before ≠ [] := by
        rintro rfl
        simp at hb
      rw [getLast?_cons_ne (by simp), getLast?_cons_ne fun h => absurd h hne] at hb
      exact .inr ⟨before, pairs, after, ht, hb, ha⟩
  · rintro (ha | ⟨before, pairs, after, rfl, hb, ha⟩)
    · exact ⟨[], 0, t, rfl, by simp, ha⟩
    · cases before with
      | nil => exact ⟨[], pairs + 1, after, by rw [replicate_pairs_succ]; rfl, by simp, ha⟩
      | cons d before =>
        refine ⟨sign :: sign :: d :: before, pairs, after, rfl, ?_, ha⟩
        rwa [getLast?_cons_ne (by simp), getLast?_cons_ne (by simp)]

theorem two_le_length (h : SuffixBehindPairs mode t) : 2 ≤ t.length := by
  obtain ⟨before, pairs, after, rfl, -, -⟩ := h
  simp only [List.length_append, List.length_replicate]
  omega

/-! ## Steps in both editions -/

/-- One step through a text: both editions show `both`, Java alone shows `lost`, and then both
    go on with `rest`. -/
structure Step (mode : MnMode) (t both lost rest : Text) : Prop where
  shorter : rest.length < t.length
  java : shown mode t = both ++ (lost ++ shown mode rest)
  bedrock : shownInBedrock mode t = both ++ shownInBedrock mode rest
  behindPairs : SuffixBehindPairs mode t ↔ lost ≠ [] ∨ SuffixBehindPairs mode rest

theorem step_visible (hc : c ≠ sign) (t : Text) : Step mode (c :: t) [c] [] t where
  shorter := by simp
  java := shown_cons hc t
  bedrock := shownInBedrock_cons hc t
  behindPairs := by simp [suffixBehindPairs_cons hc]

theorem step_lone_sign (mode : MnMode) : Step mode [sign] [] [] [] where
  shorter := by simp
  java := shown_lone_sign mode
  bedrock := shown_lone_sign .color
  behindPairs := by
    have hlone : ¬ SuffixBehindPairs mode [sign] := fun h => by simpa using two_le_length h
    have hnil : ¬ SuffixBehindPairs mode [] := fun h => by simpa using two_le_length h
    simp [hlone, hnil]

theorem step_suffixed {f : Char} {more : Text} (h : suffixed? mode code ('_' :: f :: more) = some k)
    (hf : f ≠ sign) : Step mode (sign :: code :: '_' :: f :: more) [] [] more where
  shorter := by
    simp only [List.length_cons]
    omega
  java := shown_suffixed h
  bedrock := shownInBedrock_suffixed h
  behindPairs := by
    rw [suffixBehindPairs_sign (exists_of_suffixed? h).1, suffixBehindPairs_cons (by decide),
      suffixBehindPairs_cons hf]
    simp

theorem step_code (h : suffixed? mode code rest = none) (hm : meaning mode code ≠ .text) :
    Step mode (sign :: code :: rest) [] [] rest where
  shorter := by
    simp only [List.length_cons]
    omega
  java := shown_code h hm
  bedrock := shownInBedrock_code h hm
  behindPairs := by
    rw [suffixBehindPairs_sign fun hc => hm (by rw [hc, meaning_sign])]
    simp

theorem step_unknown (h : suffixed? mode code rest = none) (hm : meaning mode code = .text)
    (hc : code ≠ sign) : Step mode (sign :: code :: rest) [sign, code] [] rest where
  shorter := by
    simp only [List.length_cons]
    omega
  java := shown_unknown h hm
  bedrock := shownInBedrock_unknown h hm hc
  behindPairs := by simp [suffixBehindPairs_sign hc]

theorem step_signs (h : beginsSuffixed mode rest = false) :
    Step mode (sign :: sign :: rest) [sign, sign] [] rest where
  shorter := by
    simp only [List.length_cons]
    omega
  java := shown_unknown (suffixed?_sign mode rest) (meaning_sign mode)
  bedrock := shownInBedrock_signs h
  behindPairs := by simp [suffixBehindPairs_signs, h]

/-- The step that the editions take apart. -/
theorem step_signs_suffixed {f : Char} {more : Text}
    (h : suffixed? mode code ('_' :: f :: more) = some k) (hf : f ≠ sign) :
    Step mode (sign :: sign :: code :: '_' :: f :: more) [sign, sign, code] ['_', f] more where
  shorter := by
    simp only [List.length_cons]
    omega
  java := by
    rw [shown_unknown (suffixed?_sign mode _) (meaning_sign mode),
      shown_cons (exists_of_suffixed? h).1, shown_cons (by decide), shown_cons hf]
    rfl
  bedrock := shownInBedrock_signs_suffixed h
  behindPairs := by simp [suffixBehindPairs_signs, beginsSuffixed, h]

/-- Two signs, with a suffix behind them or without. -/
theorem exists_step_signs (mode : MnMode) (rest : Text) :
    ∃ both lost more, Step mode (sign :: sign :: rest) both lost more := by
  rcases rest with _ | ⟨code, rest⟩
  · exact ⟨_, _, _, step_signs rfl⟩
  · cases hs : suffixed? mode code rest with
    | some k =>
      obtain ⟨-, -, f, more, rfl, hf⟩ := exists_of_suffixed? hs
      exact ⟨_, _, _, step_signs_suffixed hs hf⟩
    | none => exact ⟨_, _, _, step_signs (beginsSuffixed_cons_of_none hs)⟩

/-- A sign and what it introduces. -/
theorem exists_step_sign (mode : MnMode) (code : Char) (rest : Text) :
    ∃ both lost more, Step mode (sign :: code :: rest) both lost more := by
  cases hs : suffixed? mode code rest with
  | some k =>
    obtain ⟨-, -, f, more, rfl, hf⟩ := exists_of_suffixed? hs
    exact ⟨_, _, _, step_suffixed hs hf⟩
  | none =>
    by_cases hm : meaning mode code = .text
    · by_cases hcode : code = sign
      · rw [hcode]
        exact exists_step_signs mode rest
      · exact ⟨_, _, _, step_unknown hs hm hcode⟩
    · exact ⟨_, _, _, step_code hs hm⟩

theorem exists_step (mode : MnMode) {t : Text} (ht : t ≠ []) :
    ∃ both lost rest, Step mode t both lost rest := by
  obtain ⟨c, t, rfl⟩ := List.exists_cons_of_ne_nil ht
  by_cases hc : c = sign
  · rw [hc]
    cases t with
    | nil => exact ⟨_, _, _, step_lone_sign mode⟩
    | cons code rest => exact exists_step_sign mode code rest
  · exact ⟨_, _, _, step_visible hc t⟩

/-! ## Whole texts -/

/-- Bedrock shows nothing that Java does not show, and all of it if no suffix stands behind an
    even number of signs. -/
theorem shownInBedrock_sublist (mode : MnMode) (t : Text) :
    (shownInBedrock mode t).Sublist (shown mode t) ∧
      (shown mode t = shownInBedrock mode t ↔ ¬ SuffixBehindPairs mode t) := by
  induction ht : t.length using Nat.strongRecOn generalizing t with
  | ind n ih =>
    subst ht
    rcases eq_or_ne t [] with rfl | hne
    · have hnil : ¬ SuffixBehindPairs mode [] := fun h => by simpa using two_le_length h
      exact ⟨List.Sublist.refl _, by simp [hnil, shown, shownInBedrock, bedrockText, symbols]⟩
    · obtain ⟨both, lost, rest, hstep⟩ := exists_step mode hne
      obtain ⟨hsub, hiff⟩ := ih rest.length hstep.shorter rest rfl
      rw [hstep.java, hstep.bedrock, hstep.behindPairs, List.append_cancel_left_eq, not_or,
        not_not]
      refine ⟨(hsub.trans (List.sublist_append_right lost _)).append_left both, ?_, ?_⟩
      · intro heq
        have hlength := congrArg List.length heq
        rw [List.length_append] at hlength
        have hlost : lost = [] := List.eq_nil_of_length_eq_zero (by have := hsub.length_le; omega)
        rw [hlost, List.nil_append] at heq
        exact ⟨hlost, hiff.1 heq⟩
      · rintro ⟨rfl, hrest⟩
        exact hiff.2 hrest

/-- Both editions show the same characters of a text exactly if no `m` or `n` with a suffix
    stands behind an even number of signs. Otherwise some that Java shows are missing in
    Bedrock, and never the other way round. -/
theorem runText_bedrockText_iff (mode : MnMode) (t : Text) :
    (runText (runs .color (bedrockText mode t))).Sublist (runText (runs mode t)) ∧
      (runText (runs mode t) = runText (runs .color (bedrockText mode t)) ↔
        ¬ SuffixBehindPairs mode t) := by
  rw [runText_runs, runText_runs]
  exact shownInBedrock_sublist mode t

/-- Behind two signs Java shows a suffix that Bedrock never gets to see. -/
theorem runText_bedrockText_ne :
    bedrockText .font "§§m_f" = "§§m" ∧
      runText (runs .font "§§m_f") ≠ runText (runs .color (bedrockText .font "§§m_f")) := by
  decide

end Formatting

end CrossEdition
