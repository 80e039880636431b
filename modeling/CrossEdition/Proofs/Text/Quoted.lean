import CrossEdition.Proofs.Text.Scan

/-!
# What stands between quotes

A scan tells the characters between quotes from all others, the quotes among them. A text
without the former is *hollow*. Breaking, splitting and trimming do not look between quotes,
so what they make of a hollow text is hollow too, and otherwise what they make of the text.

Results:
* `SameOutside.hollow_eq`: characters that are replaced between quotes leave no trace.
* `hollow_breakTop`, `splitTop_sift`: a hollow text is broken and split in the same places.
* `sift_dropWhile`, `hollow_dropEndWhile`, `hollow_trim`: its ends are dropped like those of the
  text.
-/

namespace CrossEdition

namespace Nesting

variable {s s' : Nesting} {c d : Char} {t : Text}

/-- Whether a character is a quote. -/
def isQuote (c : Char) : Bool :=
  c = '"' || c = '\''

/-- Whether a character stands between quotes and does not close them. -/
def within (s : Nesting) (c : Char) : Bool :=
  s.quote.isSome && (s.step c).quote.isSome

/-- The state if no backslash takes the next character. -/
def unescaped (s : Nesting) : Nesting :=
  { s with escaped := false }

theorem within_eq_false (h : s.quote = none) (c : Char) : s.within c = false := by
  rw [within, h]
  rfl

/-- Between quotes only the backslash counts. -/
theorem unescaped_step (h : s.within c = true) : (s.step c).unescaped = s.unescaped := by
  obtain ⟨depth, _ | q, escaped⟩ := s
  · exact Bool.noConfusion h
  · have hq : (step ⟨depth, some q, escaped⟩ c).quote.isSome = true := h
    simp only [step] at hq ⊢
    split_ifs at hq ⊢ <;> first | rfl | contradiction

/-- Outside quotes, and for a quote that closes them, it does not. -/
theorem step_unescaped (h : s.within c = false) : s.unescaped.step c = (s.step c).unescaped := by
  obtain ⟨depth, _ | q, escaped⟩ := s
  · simp only [step, unescaped]
    split_ifs <;> rfl
  · have hq : (step ⟨depth, some q, escaped⟩ c).quote.isSome = false := h
    simp only [step, unescaped] at hq ⊢
    split_ifs at hq ⊢ <;> first | rfl | contradiction

/-- Only a quote opens or closes quotes. -/
theorem isQuote_of_step (hs : s.Tidy) (h : s.quote.isSome ≠ (s.step c).quote.isSome) :
    isQuote c = true := by
  obtain ⟨depth, _ | q, escaped⟩ := s
  · simp only [step] at h
    split_ifs at h with hq <;> first | exact absurd rfl h | skip
    simpa [isQuote] using hq
  · simp only [step] at h
    split_ifs at h with _ _ hq <;> first | exact absurd rfl h | skip
    have hor := hs.quote q rfl
    rw [← hq] at hor
    simpa [isQuote] using hor

theorem isQuote_of_opens (hs : s.Tidy) (h : s.within c = false)
    (hopen : (s.step c).quote.isSome = true) : isQuote c = true := by
  rw [within, hopen, Bool.and_true] at h
  refine isQuote_of_step hs ?_
  rw [h, hopen]
  decide

theorem isQuote_of_closes (hs : s.Tidy) (h : s.within c = false)
    (hopen : s.quote.isSome = true) : isQuote c = true := by
  rw [within, hopen, Bool.true_and] at h
  refine isQuote_of_step hs ?_
  rw [h, hopen]
  decide

/-- Brackets do not matter to quotes. -/
theorem quote_step_congr (hq : s.quote = s'.quote) (he : s.escaped = s'.escaped) (c : Char) :
    (s.step c).quote = (s'.step c).quote ∧ (s.step c).escaped = (s'.step c).escaped := by
  obtain ⟨depth, quote, escaped⟩ := s
  obtain ⟨depth', quote', escaped'⟩ := s'
  simp only at hq he
  subst hq he
  cases quote with
  | none =>
    simp only [step]
    split_ifs <;> exact ⟨rfl, rfl⟩
  | some q =>
    simp only [step]
    split_ifs <;> exact ⟨rfl, rfl⟩

theorem quote_step_of_not_quote (h : s.quote = none) (hc : isQuote c = false) :
    (s.step c).quote = none ∧ (s.step c).escaped = s.escaped := by
  obtain ⟨depth, quote, escaped⟩ := s
  obtain rfl : quote = none := h
  have hn : ¬(c = '"' ∨ c = '\'') := by simpa [isQuote] using hc
  simp only [step]
  split_ifs <;> exact ⟨rfl, rfl⟩

end Nesting

namespace Text

open Nesting (isQuote)

variable {p : Char → Bool} {s s' : Nesting} {a b t u part : Text} {parts : List Text} {c : Char}

/-- The characters of a text that stand between quotes, or all others. -/
def sift (between : Bool) : Nesting → Text → Text
  | _, [] => []
  | s, c :: rest =>
    if s.within c = between then c :: sift between (s.step c) rest
    else sift between (s.step c) rest

/-- The text without what stands between quotes. -/
abbrev hollow : Nesting → Text → Text :=
  sift false

/-- What stands between quotes, of all quoted strings together. -/
abbrev quoted : Nesting → Text → Text :=
  sift true

theorem sift_cons (h : s.within c = true) (t : Text) :
    hollow s (c :: t) = hollow (s.step c) t ∧ quoted s (c :: t) = c :: quoted (s.step c) t := by
  simp [sift, h]

theorem sift_cons_of_not_within (h : s.within c = false) (t : Text) :
    hollow s (c :: t) = c :: hollow (s.step c) t ∧ quoted s (c :: t) = quoted (s.step c) t := by
  simp [sift, h]

theorem sift_append (between : Bool) (s : Nesting) (t u : Text) :
    sift between s (t ++ u) = sift between s t ++ sift between (s.scan t) u := by
  induction t generalizing s with
  | nil => rfl
  | cons c t ih =>
    rw [List.cons_append, sift, sift, ih, Nesting.scan_cons]
    split_ifs <;> rfl

theorem hollow_append (s : Nesting) (t u : Text) :
    hollow s (t ++ u) = hollow s t ++ hollow (s.scan t) u :=
  sift_append false s t u

theorem quoted_append (s : Nesting) (t u : Text) :
    quoted s (t ++ u) = quoted s t ++ quoted (s.scan t) u :=
  sift_append true s t u

theorem mem_of_mem_sift {between : Bool} (h : c ∈ sift between s t) : c ∈ t := by
  induction t generalizing s with
  | nil => exact h
  | cons d t ih =>
    rw [sift] at h
    split_ifs at h
    · rcases List.mem_cons.1 h with rfl | h
      · exact List.mem_cons_self ..
      · exact List.mem_cons_of_mem _ (ih h)
    · exact List.mem_cons_of_mem _ (ih h)

/-- Brackets do not matter to quotes. -/
theorem sift_congr (between : Bool) (hq : s.quote = s'.quote) (he : s.escaped = s'.escaped)
    (t : Text) : sift between s t = sift between s' t := by
  induction t generalizing s s' with
  | nil => rfl
  | cons c t ih =>
    obtain ⟨hq', he'⟩ := Nesting.quote_step_congr hq he c
    have hw : s.within c = s'.within c := by rw [Nesting.within, Nesting.within, hq, hq']
    rw [sift, sift, hw, ih hq' he']

/-- A text without quotes stays in front as it is. -/
theorem sift_append_of_not_quote (hs : s.quote = none) (ha : ∀ c ∈ a, isQuote c = false)
    (t : Text) : hollow s (a ++ t) = a ++ hollow s t ∧ quoted s (a ++ t) = quoted s t := by
  induction a generalizing s with
  | nil => exact ⟨rfl, rfl⟩
  | cons c a ih =>
    obtain ⟨hc, ha⟩ := List.forall_mem_cons.1 ha
    obtain ⟨hq, he⟩ := Nesting.quote_step_of_not_quote hs hc
    obtain ⟨hh, hb⟩ := sift_cons_of_not_within (Nesting.within_eq_false hs c) (a ++ t)
    have hsame : ∀ between, sift between (s.step c) t = sift between s t := fun between =>
      sift_congr between (hq.trans hs.symm) he t
    rw [List.cons_append, hh, hb, (ih hq ha).1, (ih hq ha).2]
    exact ⟨congrArg (fun u => c :: (a ++ u)) (hsame false), hsame true⟩

/-! ## Texts that differ between quotes -/

/-- Whether two texts are the same but for characters between quotes that are neither quotes nor
    backslashes. -/
def SameOutside : Nesting → Text → Text → Prop
  | _, [], [] => True
  | s, c :: t, d :: u =>
    (c = d ∨ s.quote.isSome = true ∧ ∀ e ∈ [c, d], isQuote e = false ∧ e ≠ '\\') ∧
      SameOutside (s.step c) t u
  | _, _, _ => False

/-- Scanning decides whether two texts are the same outside quotes. -/
instance decidableSameOutside : ∀ s t u, Decidable (SameOutside s t u)
  | _, [], [] => inferInstanceAs (Decidable True)
  | s, c :: t, _ :: u =>
    have := decidableSameOutside (s.step c) t u
    inferInstanceAs (Decidable (_ ∧ _))
  | _, [], _ :: _ => inferInstanceAs (Decidable False)
  | _, _ :: _, [] => inferInstanceAs (Decidable False)

/-- Such characters leave the same state. -/
theorem step_eq_of_free (hs : s.Tidy) (hq : s.quote.isSome = true) (hc : isQuote c = false)
    (hb : c ≠ '\\') : s.step c = s.unescaped := by
  obtain ⟨depth, _ | q, escaped⟩ := s
  · exact Bool.noConfusion hq
  · have hne : c ≠ q := by
      rintro rfl
      have hor := hs.quote c rfl
      simp [isQuote] at hc
      tauto
    cases escaped <;> simp [Nesting.step, Nesting.unescaped, hb, hne]

theorem SameOutside.hollow_eq (hs : s.Tidy) (h : SameOutside s t u) : hollow s t = hollow s u := by
  induction t generalizing s u with
  | nil =>
    cases u with
    | nil => rfl
    | cons d u => exact h.elim
  | cons c t ih =>
    cases u with
    | nil => exact h.elim
    | cons d u =>
      obtain ⟨hcd, h⟩ := h
      have hrest := ih (hs.step c) h
      rcases hcd with rfl | ⟨hq, hfree⟩
      · cases hw : s.within c with
        | true => rw [(sift_cons hw t).1, (sift_cons hw u).1, hrest]
        | false => rw [(sift_cons_of_not_within hw t).1, (sift_cons_of_not_within hw u).1, hrest]
      · obtain ⟨⟨hc, hcb⟩, hd, hdb⟩ : (isQuote c = false ∧ c ≠ '\\') ∧ isQuote d = false ∧ d ≠ '\\' := by
          simpa using hfree
        have hcs := step_eq_of_free hs hq hc hcb
        have hds := step_eq_of_free hs hq hd hdb
        have hwc : s.within c = true := by rw [Nesting.within, hcs, hq]; exact hq
        have hwd : s.within d = true := by rw [Nesting.within, hds, hq]; exact hq
        rw [(sift_cons hwc t).1, (sift_cons hwd u).1, hrest, hcs, hds]

/-! ## Breaking and splitting -/

theorem hollow_breakTop (p : Char → Bool) (s : Nesting) (t : Text) :
    (breakTop p s.unescaped (hollow s t)).1 = hollow s (breakTop p s t).1 := by
  induction t generalizing s with
  | nil => rfl
  | cons c t ih =>
    cases hw : s.within c with
    | true =>
      have htop : s.isTop = false := by
        rw [Nesting.isTop]
        rw [Nesting.within, Bool.and_eq_true, Option.isSome_iff_ne_none] at hw
        simp [hw.1]
      have hb : (breakTop p s (c :: t)).1 = c :: (breakTop p (s.step c) t).1 := by
        simp [breakTop, htop]
      rw [(sift_cons hw t).1, hb, (sift_cons hw _).1, ← ih, Nesting.unescaped_step hw]
    | false =>
      rw [(sift_cons_of_not_within hw t).1, breakTop, breakTop, Nesting.step_unescaped hw]
      have htop : s.unescaped.isTop = s.isTop := rfl
      rw [htop]
      split_ifs
      · rfl
      · exact (congrArg (c :: ·) (ih _)).trans (sift_cons_of_not_within hw _).1.symm

/-- A hollow text is split where the text is, and what stands between the quotes of the text
    stands between those of its parts. -/
theorem splitTop_sift (hc : Nesting.isMark c = false) (hs : s.Tidy)
    (h : splitTop c s t = part :: parts) :
    splitTop c s.unescaped (hollow s t) = hollow s part :: parts.map (hollow .outside) ∧
      quoted s t = quoted s part ++ parts.flatMap (quoted .outside) := by
  induction t generalizing s part parts with
  | nil =>
    obtain ⟨rfl, rfl⟩ := List.cons.inj h
    exact ⟨rfl, rfl⟩
  | cons d t ih =>
    rw [splitTop] at h
    split_ifs at h with hd
    · -- at a separator the state is that of the start
      obtain ⟨htop, hdc⟩ := Bool.and_eq_true_iff.1 hd
      obtain rfl := of_decide_eq_true hdc
      obtain rfl := hs.eq_outside htop
      have hstep : Nesting.outside.step d = .outside := Nesting.step_of_not_mark rfl hc
      have hw : Nesting.outside.within d = false := Nesting.within_eq_false rfl d
      obtain ⟨hh, hq⟩ := sift_cons_of_not_within hw t
      obtain ⟨e, es, hes⟩ := List.exists_cons_of_ne_nil (splitTop_ne_nil d .outside t)
      obtain ⟨ihh, ihq⟩ := ih hs hes
      rw [hes] at h
      obtain ⟨rfl, rfl⟩ := List.cons.inj h
      have hsplit : splitTop d .outside (d :: hollow .outside t) =
          [] :: splitTop d .outside (hollow .outside t) := by
        simp [splitTop, Nesting.isTop, Nesting.outside]
      rw [hh, hq, hstep]
      exact ⟨hsplit.trans (congrArg ([] :: ·) ihh), ihq⟩
    · obtain ⟨e, es, hes⟩ := List.exists_cons_of_ne_nil (splitTop_ne_nil c (s.step d) t)
      obtain ⟨ihh, ihq⟩ := ih (hs.step d) hes
      rw [hes] at h
      obtain ⟨rfl, rfl⟩ := List.cons.inj h
      cases hw : s.within d with
      | true =>
        rw [(sift_cons hw t).1, (sift_cons hw t).2, (sift_cons hw e).1, (sift_cons hw e).2,
          ← Nesting.unescaped_step hw, ihq]
        exact ⟨ihh, rfl⟩
      | false =>
        obtain ⟨hh, hq⟩ := sift_cons_of_not_within hw t
        obtain ⟨hhe, hqe⟩ := sift_cons_of_not_within hw e
        have hd' : ¬(s.unescaped.isTop && decide (d = c)) = true := hd
        rw [hh, hq, hhe, hqe, splitTop, if_neg hd', Nesting.step_unescaped hw, ihh]
        exact ⟨rfl, ihq⟩

theorem splitTop_hollow (hc : Nesting.isMark c = false) (t : Text) :
    splitTop c .outside (hollow .outside t) = (splitTop c .outside t).map (hollow .outside) := by
  obtain ⟨part, parts, hs⟩ := List.exists_cons_of_ne_nil (splitTop_ne_nil c .outside t)
  rw [hs]
  exact (splitTop_sift hc Nesting.tidy_outside hs).1

theorem mem_quoted_of_mem_splitTop (hc : Nesting.isMark c = false)
    (hp : part ∈ splitTop c .outside t) {d : Char} (hd : d ∈ quoted .outside part) :
    d ∈ quoted .outside t := by
  obtain ⟨first, parts, hs⟩ := List.exists_cons_of_ne_nil (splitTop_ne_nil c .outside t)
  rw [(splitTop_sift hc Nesting.tidy_outside hs).2, List.mem_append]
  rw [hs] at hp
  rcases List.mem_cons.1 hp with rfl | hp
  · exact .inl hd
  · exact .inr (List.mem_flatMap.2 ⟨part, hp, hd⟩)

/-! ## Dropping ends -/

theorem head?_hollow (hs : s.quote = none) (t : Text) : (hollow s t).head? = t.head? := by
  cases t with
  | nil => rfl
  | cons c t => rw [(sift_cons_of_not_within (Nesting.within_eq_false hs c) t).1]; rfl

/-- A hollow text ends like the text, or with the quote that is still open. -/
theorem getLast?_hollow (hs : s.Tidy) (t : Text) :
    ∀ c ∈ (hollow s t).getLast?,
      isQuote c = true ∨ (s.scan t).quote = none ∧ c ∈ t.getLast? := by
  induction t using List.reverseRecOn with
  | nil => intro c hc; exact absurd hc (Option.not_mem_none c)
  | append_singleton t d ih =>
    intro c hc
    rw [hollow_append] at hc
    cases hw : (s.scan t).within d with
    | true =>
      have hnil : hollow (s.scan t) [d] = [] := (sift_cons hw []).1
      rw [hnil, List.append_nil] at hc
      rcases ih c hc with h | ⟨h, -⟩
      · exact .inl h
      · rw [Nesting.within_eq_false h] at hw
        exact Bool.noConfusion hw
    | false =>
      have hone : hollow (s.scan t) [d] = [d] := (sift_cons_of_not_within hw []).1
      rw [hone, List.getLast?_concat] at hc
      obtain rfl := Option.some.inj hc
      by_cases hn : (s.scan (t ++ [d])).quote = none
      · exact .inr ⟨hn, by simp⟩
      · rw [Nesting.scan_append] at hn
        exact .inl (Nesting.isQuote_of_opens (hs.scan t) hw (Option.isSome_iff_ne_none.2 hn))

theorem sift_dropWhile (hp : ∀ c, isQuote c = true → p c = false) (hs : s.quote = none)
    (t : Text) : hollow s (t.dropWhile p) = (hollow s t).dropWhile p ∧
    quoted s (t.dropWhile p) = quoted s t := by
  have ha : ∀ c ∈ t.takeWhile p, p c = true := fun c hc => List.mem_takeWhile_imp hc
  have hquote : ∀ c ∈ t.takeWhile p, isQuote c = false := by
    intro c hc
    by_contra hn
    have hfalse := hp c (by simpa using hn)
    rw [ha c hc] at hfalse
    exact Bool.noConfusion hfalse
  -- the first character that is left is not dropped from the hollow text either
  have hhead : (hollow s (t.dropWhile p)).dropWhile p = hollow s (t.dropWhile p) := by
    have hfirst := List.head?_dropWhile_not p t
    rw [← head?_hollow hs] at hfirst
    cases hx : hollow s (t.dropWhile p) with
    | nil => rfl
    | cons c x =>
      rw [hx] at hfirst
      exact List.dropWhile_cons_of_neg (by simpa using hfirst)
  obtain ⟨hh, hq⟩ := sift_append_of_not_quote hs hquote (t.dropWhile p)
  rw [List.takeWhile_append_dropWhile] at hh hq
  rw [hh, hq, List.dropWhile_append_of_pos ha, hhead]
  exact ⟨rfl, rfl⟩

theorem hollow_dropEndWhile (hp : ∀ c, isQuote c = true → p c = false) (hs : s.Tidy)
    (t : Text) : hollow s (dropEndWhile p t) = dropEndWhile p (hollow s t) := by
  obtain ⟨b, hb, htb⟩ := exists_dropEndWhile_append p t
  have hlast : dropEndWhile p (hollow s (dropEndWhile p t)) = hollow s (dropEndWhile p t) := by
    refine dropEndWhile_eq_self fun c hc => ?_
    rcases getLast?_hollow hs _ c hc with hq | ⟨-, hl⟩
    · exact hp c hq
    · exact last_dropEndWhile p t c hl
  have hrest : dropEndWhile p (hollow (s.scan (dropEndWhile p t)) b) = [] := by
    rw [dropEndWhile_eq, List.rdropWhile_eq_nil_iff]
    exact fun c hc => hb c (mem_of_mem_sift hc)
  conv_rhs => rw [htb]
  rw [hollow_append, dropEndWhile_append, if_pos hrest, hlast]

theorem mem_quoted_dropEndWhile (h : c ∈ quoted s (dropEndWhile p t)) : c ∈ quoted s t := by
  obtain ⟨b, -, htb⟩ := exists_dropEndWhile_append p t
  rw [htb, quoted_append]
  exact List.mem_append_left _ h

theorem isBlank_of_isQuote (c : Char) (h : isQuote c = true) : isBlank c = false := by
  have hor : c = '"' ∨ c = '\'' := by simpa [isQuote] using h
  cases hor with
  | inl hc => rw [hc]; rfl
  | inr hc => rw [hc]; rfl

theorem hollow_trim (ht : s.Tidy) (hs : s.quote = none) (t : Text) :
    hollow s (trim t) = trim (hollow s t) := by
  rw [trim, trimEnd, hollow_dropEndWhile isBlank_of_isQuote ht, trimStart,
    (sift_dropWhile isBlank_of_isQuote hs t).1]
  rfl

end Text

end CrossEdition
