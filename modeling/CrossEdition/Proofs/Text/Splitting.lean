import CrossEdition.Proofs.Text.Scan

/-!
# Splitting at top level

The parts of a text between its separators at top level are found by one scan of the whole text,
and known by what a scan of each part by itself shows: the separators leave the scan where it
started.

Results:
* `clear_iff`: a text is clear exactly if the scan stands nowhere at top level in front of a
  character that satisfies `p`.
* `separated_splitTop`, `splitTop_of_separated`: the parts of a text are separated, and separated
  texts are found again when they are joined.
* `separated_append_iff`: separated texts in front of others, when both are joined.
* `splitTop_eq_iff`: the parts of a text are the only separated texts that give it back.
-/

namespace CrossEdition

namespace Text

variable {p : Char → Bool} {s : Nesting} {separator : Char} {t part : Text} {parts ps qs : List Text}

theorem clear_iff : Clear p s t ↔
    ∀ before c after, t = before ++ c :: after → p c = true → (s.scan before).isTop = false := by
  induction t generalizing s with
  | nil => simp
  | cons d t ih =>
    rw [clear_cons, ih]
    constructor
    · rintro ⟨hd, ht⟩ before c after he hc
      cases before with
      | nil =>
        obtain ⟨rfl, -⟩ := List.cons.inj he
        simpa [hc] using hd
      | cons e before =>
        obtain ⟨rfl, hrest⟩ := List.cons.inj he
        exact ht before c after hrest hc
    · intro h
      refine ⟨?_, fun before c after he hc => h (d :: before) c after (by rw [he]; rfl) hc⟩
      cases hc : p d with
      | false => simp
      | true => simpa using h [] d t rfl hc

/-! ## Separated texts -/

/-- Whether texts are such as stand between separators at top level: each of them, scanned by
    itself, has no separator at top level, and ends at top level unless it is the last. -/
structure Separated (separator : Char) (parts : List Text) : Prop where
  ne_nil : parts ≠ []
  clear : ∀ part ∈ parts, ∀ before after, part = before ++ separator :: after →
    (Nesting.outside.scan before).isTop = false
  isTop : ∀ part ∈ parts.dropLast, (Nesting.outside.scan part).isTop = true

theorem clear_separator : Clear (· = separator) .outside part ↔
    ∀ before after, part = before ++ separator :: after →
      (Nesting.outside.scan before).isTop = false := by
  rw [clear_iff]
  constructor
  · exact fun h before after he => h before separator after he (by simp)
  · rintro h before c after he hc
    obtain rfl := of_decide_eq_true hc
    exact h before after he

/-- There is one state at top level that a scan from outside can come back to. -/
theorem scan_eq_outside (h : (Nesting.outside.scan t).isTop = true) :
    Nesting.outside.scan t = .outside :=
  (Nesting.tidy_outside.scan t).eq_outside h

theorem separated_singleton :
    Separated separator [part] ↔ Clear (· = separator) .outside part := by
  rw [clear_separator]
  exact ⟨fun h => h.clear part (by simp), fun h => ⟨by simp, by simpa using h, by simp⟩⟩

theorem separated_cons (hne : parts ≠ []) : Separated separator (part :: parts) ↔
    Closed (· = separator) part ∧ Separated separator parts := by
  constructor
  · intro h
    have hd : part ∈ (part :: parts).dropLast := by
      rw [List.dropLast_cons_of_ne_nil hne]
      exact List.mem_cons_self
    refine ⟨⟨clear_separator.2 (h.clear part (by simp)), scan_eq_outside (h.isTop part hd)⟩,
      hne, fun e he => h.clear e (by simp [he]), fun e he => h.isTop e ?_⟩
    rw [List.dropLast_cons_of_ne_nil hne]
    exact List.mem_cons_of_mem _ he
  · rintro ⟨hp, h⟩
    refine ⟨by simp, List.forall_mem_cons.2 ⟨clear_separator.1 hp.1, h.clear⟩, ?_⟩
    rw [List.dropLast_cons_of_ne_nil hne]
    exact List.forall_mem_cons.2 ⟨hp.isTop, h.isTop⟩

/-- Separated texts are found again when they are joined. -/
theorem splitTop_of_separated (h : Separated separator parts) :
    splitTop separator .outside (join [separator] parts) = parts := by
  induction parts with
  | nil => exact absurd rfl h.ne_nil
  | cons part parts ih =>
    rcases eq_or_ne parts [] with rfl | hne
    · exact splitTop_of_clear (separated_singleton.1 h)
    · obtain ⟨hp, h⟩ := (separated_cons hne).1 h
      rw [join_cons_of_ne_nil separator part hne, splitTop_append hp.1 hp.isTop, hp.2, ih h]

/-- The parts of a text. Only the first one starts where the scan does. -/
theorem separated_of_splitTop (hs : s.Tidy) (h : splitTop separator s t = part :: parts) :
    Clear (· = separator) s part ∧
      (parts ≠ [] → (s.scan part).isTop = true ∧ Separated separator parts) := by
  induction t generalizing s part parts with
  | nil =>
    obtain ⟨rfl, rfl⟩ := List.cons.inj h
    simp
  | cons d t ih =>
    rw [splitTop] at h
    split_ifs at h with hd
    · -- the part ends here, and the next one starts from the same state
      obtain ⟨rfl, rfl⟩ := List.cons.inj h
      have htop : s.isTop = true := (Bool.and_eq_true_iff.1 hd).1
      obtain rfl := hs.eq_outside htop
      obtain ⟨e, es, hes⟩ := List.exists_cons_of_ne_nil (splitTop_ne_nil separator .outside t)
      obtain ⟨he, hrest⟩ := ih hs hes
      refine ⟨trivial, fun _ => ⟨rfl, ?_⟩⟩
      rw [hes]
      rcases eq_or_ne es [] with rfl | hne
      · exact separated_singleton.2 he
      · exact (separated_cons hne).2 ⟨⟨he, scan_eq_outside (hrest hne).1⟩, (hrest hne).2⟩
    · obtain ⟨e, es, hes⟩ := List.exists_cons_of_ne_nil (splitTop_ne_nil separator (s.step d) t)
      rw [hes] at h
      obtain ⟨rfl, rfl⟩ := List.cons.inj h
      obtain ⟨he, hrest⟩ := ih (hs.step d) hes
      exact ⟨⟨by simpa using hd, he⟩, hrest⟩

theorem separated_splitTop (separator : Char) (t : Text) :
    Separated separator (splitTop separator .outside t) := by
  obtain ⟨part, parts, hp⟩ := List.exists_cons_of_ne_nil (splitTop_ne_nil separator .outside t)
  obtain ⟨hc, hrest⟩ := separated_of_splitTop Nesting.tidy_outside hp
  rw [hp]
  rcases eq_or_ne parts [] with rfl | hne
  · exact separated_singleton.2 hc
  · exact (separated_cons hne).2 ⟨⟨hc, scan_eq_outside (hrest hne).1⟩, (hrest hne).2⟩

/-! ## Two texts -/

theorem join_append (hp : ps ≠ []) (hq : qs ≠ []) :
    join [separator] (ps ++ qs) = join [separator] ps ++ separator :: join [separator] qs := by
  induction ps with
  | nil => exact absurd rfl hp
  | cons p ps ih =>
    rcases eq_or_ne ps [] with rfl | hne
    · exact join_cons_of_ne_nil separator p hq
    · rw [List.cons_append, join_cons_of_ne_nil separator p (by simp [hne]), ih hne,
        join_cons_of_ne_nil separator p hne, List.append_assoc, List.cons_append]

/-- Separated texts in front of others are separated from them exactly if the scan of the former,
    separators included, comes back to top level. -/
theorem separated_append_iff (hm : Nesting.isMark separator = false) (hp : Separated separator ps)
    (hq : Separated separator qs) : Separated separator (ps ++ qs) ↔
      (Nesting.outside.scan (join [separator] ps)).isTop = true := by
  induction ps with
  | nil => exact absurd rfl hp.ne_nil
  | cons p ps ih =>
    rcases eq_or_ne ps [] with rfl | hne
    · rw [List.singleton_append, separated_cons hq.ne_nil, join]
      exact ⟨fun h => h.1.isTop,
        fun h => ⟨⟨separated_singleton.1 hp, scan_eq_outside h⟩, hq⟩⟩
    · obtain ⟨hc, hp⟩ := (separated_cons hne).1 hp
      have hstep : Nesting.outside.step separator = .outside := Nesting.step_of_not_mark rfl hm
      rw [List.cons_append, separated_cons (by simp [hne]), ih hp,
        join_cons_of_ne_nil separator p hne, Nesting.scan_append, Nesting.scan_cons, hc.2, hstep]
      exact ⟨fun h => h.2, fun h => ⟨hc, h⟩⟩

/-! ## The parts of a text -/

/-- The parts of a text are the only separated texts that give it back when they are joined. The
    text is split at a separator exactly if the scan of all that is in front of it ends at top
    level, and its parts are then those of both sides. -/
theorem splitTop_eq_iff (hm : Nesting.isMark separator = false) (t : Text) (parts : List Text) :
    (splitTop separator .outside t = parts ↔
      join [separator] parts = t ∧ Separated separator parts) ∧
    ∀ before after, t = before ++ separator :: after →
      ((Nesting.outside.scan before).isTop = true ↔ splitTop separator .outside t =
        splitTop separator .outside before ++ splitTop separator .outside after) := by
  have hunique : ∀ {u : Text} {es : List Text}, splitTop separator .outside u = es ↔
      join [separator] es = u ∧ Separated separator es := by
    intro u es
    constructor
    · rintro rfl
      exact ⟨join_splitTop separator .outside u, separated_splitTop separator u⟩
    · rintro ⟨rfl, h⟩
      exact splitTop_of_separated h
  refine ⟨hunique, ?_⟩
  rintro before after rfl
  have hb := separated_splitTop separator before
  have ha := separated_splitTop separator after
  rw [hunique, join_append hb.ne_nil ha.ne_nil, join_splitTop, join_splitTop,
    separated_append_iff hm hb ha, join_splitTop]
  simp

/-- Two commas at top level, beside one in a quoted bracket and one in brackets that are never
    closed. -/
theorem splitTop_eq_iff_quoted_bracket :
    let t : Text := "a=\"[,\"\x7d,,b=[c,d"
    Nesting.isMark ',' = false ∧ Separated ',' ["a=\"[,\"\x7d", "", "b=[c,d"] ∧
      splitTop ',' .outside t =
        splitTop ',' .outside "a=\"[,\"\x7d" ++ splitTop ',' .outside ",b=[c,d" := by
  intro t
  have hm : Nesting.isMark ',' = false := by decide
  have hsplit : splitTop ',' .outside t = ["a=\"[,\"\x7d", "", "b=[c,d"] := by decide
  have htop : (Nesting.outside.scan "a=\"[,\"\x7d").isTop = true := by decide
  obtain ⟨hparts, hboth⟩ := splitTop_eq_iff hm t ["a=\"[,\"\x7d", "", "b=[c,d"]
  exact ⟨hm, (hparts.1 hsplit).2, (hboth _ ",b=[c,d" rfl).1 htop⟩

end Text

end CrossEdition
