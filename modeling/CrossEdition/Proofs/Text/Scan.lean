import CrossEdition.Text.Blank
import CrossEdition.Text.Nesting
import Mathlib.Data.List.DropRight
import Mathlib.Data.List.TakeWhile
import Mathlib.Tactic.Common

/-!
# Scanning pieces of a text

A text is *clear* of some characters if none of them stands at top level, and *closed*
if moreover its scan ends where it started, outside all quotes and brackets. Closed
texts can be joined and split again, and blanks may be removed from either side of
their first `=`.

Results:
* `breakTop_append_of_clear`, `splitTop_join`: closed texts are found again in their context.
* `closed_of_mem_splitTop`: the parts of a closed text are closed.
* `closed_trim`: trimming a name and a value leaves an entry closed.
* `clear_deeper`: a text that closes no bracket of its surroundings reaches no top
  level inside a bracket.
-/

namespace CrossEdition

namespace Nesting

/-- What holds of every state that a scan reaches: quotes are single or double, and a
    backslash counts only between quotes. -/
structure Tidy (s : Nesting) : Prop where
  escaped : s.quote = none → s.escaped = false
  quote : ∀ q ∈ s.quote, q = '"' ∨ q = '\''

theorem tidy_outside : outside.Tidy :=
  ⟨fun _ => rfl, by simp [outside]⟩

theorem Tidy.step {s : Nesting} (h : s.Tidy) (c : Char) : (s.step c).Tidy := by
  obtain ⟨depth, quote, escaped⟩ := s
  obtain ⟨he, hq⟩ := h
  simp only at he hq
  cases quote with
  | none =>
    simp only [Nesting.step]
    split
    · next hc => exact ⟨by simp, by simpa using hc⟩
    · split
      · exact ⟨he, hq⟩
      · split <;> exact ⟨he, hq⟩
  | some q =>
    simp only [Nesting.step]
    split
    · exact ⟨by simp, hq⟩
    · split
      · exact ⟨by simp, hq⟩
      · split
        · next hn _ _ => exact ⟨fun _ => by simpa using hn, by simp⟩
        · exact ⟨by simp, hq⟩

@[simp] theorem scan_nil (s : Nesting) : s.scan [] = s := rfl

@[simp] theorem scan_cons (s : Nesting) (c : Char) (t : Text) :
    s.scan (c :: t) = (s.step c).scan t := rfl

@[simp] theorem scan_append (s : Nesting) (t u : Text) :
    s.scan (t ++ u) = (s.scan t).scan u :=
  List.foldl_append

theorem Tidy.scan {s : Nesting} (h : s.Tidy) (t : Text) : (s.scan t).Tidy := by
  induction t generalizing s with
  | nil => exact h
  | cons c t ih => exact ih (h.step c)

theorem isTop_iff {s : Nesting} : s.isTop = true ↔ s.depth = 0 ∧ s.quote = none := by
  simp [isTop]

/-- There is one state at top level. -/
theorem Tidy.eq_outside {s : Nesting} (h : s.Tidy) (ht : s.isTop = true) : s = outside := by
  obtain ⟨depth, quote, escaped⟩ := s
  obtain ⟨rfl, rfl⟩ := isTop_iff.1 ht
  obtain rfl := h.escaped rfl
  rfl

/-! ## Characters that do not count -/

/-- The characters that change the state of a scan outside quotes. -/
def isMark (c : Char) : Bool :=
  c = '"' || c = '\'' || c = '[' || c = '{' || c = ']' || c = '}'

theorem step_of_not_mark {s : Nesting} {c : Char} (hq : s.quote = none) (hc : isMark c = false) :
    s.step c = s := by
  simp only [isMark, Bool.or_eq_false_iff, decide_eq_false_iff_not] at hc
  obtain ⟨⟨⟨⟨⟨h1, h2⟩, h3⟩, h4⟩, h5⟩, h6⟩ := hc
  simp [step, hq, h1, h2, h3, h4, h5, h6]

theorem scan_of_not_mark {s : Nesting} {t : Text} (hq : s.quote = none)
    (ht : ∀ c ∈ t, isMark c = false) : s.scan t = s := by
  induction t with
  | nil => rfl
  | cons c t ih =>
    rw [scan_cons, step_of_not_mark hq (ht c (by simp))]
    exact ih fun d hd => ht d (by simp [hd])

/-! ## Plain texts -/

/-- Whether a text holds no quotes, brackets and backslashes. -/
def Plain (t : Text) : Prop :=
  ∀ c ∈ t, isMark c = false ∧ c ≠ '\\'

theorem plain_cons {c : Char} {t : Text} :
    Plain (c :: t) ↔ (isMark c = false ∧ c ≠ '\\') ∧ Plain t :=
  List.forall_mem_cons

theorem plain_append {t u : Text} : Plain (t ++ u) ↔ Plain t ∧ Plain u :=
  List.forall_mem_append

/-- No blank is a quote, a bracket or a backslash. -/
theorem plain_of_blank {t : Text} (h : ∀ c ∈ t, Text.isBlank c = true) : Plain t := by
  intro c hc
  have hne : ∀ d, Text.isBlank d = false → c ≠ d := by
    rintro d hd rfl
    simp [h c hc] at hd
  simp only [isMark, Bool.or_eq_false_iff, decide_eq_false_iff_not]
  exact ⟨⟨⟨⟨⟨⟨hne _ rfl, hne _ rfl⟩, hne _ rfl⟩, hne _ rfl⟩, hne _ rfl⟩, hne _ rfl⟩, hne _ rfl⟩

/-- A plain character changes nothing unless a backslash takes it. -/
theorem step_plain {s : Nesting} (h : s.Tidy) {c : Char} (hc : isMark c = false ∧ c ≠ '\\')
    (he : s.escaped = false) : s.step c = s := by
  obtain ⟨hm, hb⟩ := hc
  cases hq : s.quote with
  | none => exact step_of_not_mark hq hm
  | some q =>
    have hne : c ≠ q := by
      rintro rfl
      rcases h.quote c hq with rfl | rfl <;> simp [isMark] at hm
    simp [step, hq, he, hb, hne]

theorem scan_plain {s : Nesting} (h : s.Tidy) {t : Text} (ht : Plain t)
    (he : s.escaped = false) : s.scan t = s := by
  induction t with
  | nil => rfl
  | cons c t ih =>
    obtain ⟨hc, ht⟩ := plain_cons.1 ht
    rw [scan_cons, step_plain h hc he, ih ht]

/-- A plain character that a backslash takes ends the escape. -/
theorem scan_plain_of_escaped {s : Nesting} (h : s.Tidy) {t : Text} (ht : Plain t) (hne : t ≠ [])
    (he : s.escaped = true) : s.scan t = { s with escaped := false } := by
  obtain ⟨c, t, rfl⟩ := List.exists_cons_of_ne_nil hne
  cases hq : s.quote with
  | none => simp [h.escaped hq] at he
  | some q =>
    have hs : s.step c = { s with escaped := false } := by simp [step, hq, he]
    have hb := scan_plain (h.step c) (plain_cons.1 ht).2 (by rw [hs])
    rw [scan_cons, hb, hs, hq]

/-- Behind a plain character no backslash takes the next one. -/
theorem escaped_step_of_plain {s : Nesting} (h : s.Tidy) {c : Char}
    (hc : isMark c = false ∧ c ≠ '\\') : (s.step c).escaped = false := by
  cases he : s.escaped with
  | false => rw [step_plain h hc he, he]
  | true =>
    have hs := scan_plain_of_escaped h (t := [c]) (by simpa [Plain] using hc) (by simp) he
    rw [scan_cons, scan_nil] at hs
    rw [hs]

/-- A plain text in front of a plain character does not count. -/
theorem step_scan_plain {s : Nesting} (h : s.Tidy) {t : Text} (ht : Plain t) {c : Char}
    (hc : isMark c = false ∧ c ≠ '\\') : (s.scan t).step c = s.step c := by
  cases he : s.escaped with
  | false => rw [scan_plain h ht he]
  | true =>
    by_cases hne : t = []
    · rw [hne, scan_nil]
    have h1 := scan_plain_of_escaped h (t := [c]) (by simpa [Plain] using hc) (by simp) he
    have h2 := scan_plain_of_escaped h (t := t ++ [c])
      (plain_append.2 ⟨ht, by simpa [Plain] using hc⟩) (by simp) he
    rw [scan_append] at h2
    exact h2.trans h1.symm

/-- A plain text leads to top level only from there. -/
theorem eq_outside_of_scan_plain {s : Nesting} (h : s.Tidy) {t : Text} (ht : Plain t)
    (hs : s.scan t = outside) : s = outside := by
  cases he : s.escaped with
  | false => rwa [scan_plain h ht he] at hs
  | true =>
    by_cases hne : t = []
    · rwa [hne, scan_nil] at hs
    · rw [scan_plain_of_escaped h ht hne he] at hs
      have hq : s.quote = none := by simpa [outside] using congrArg Nesting.quote hs
      simp [h.escaped hq] at he

end Nesting

namespace Text

/-! ## Clear texts -/

/-- Whether a scan from `s` meets no character at top level that satisfies `p`. -/
def Clear (p : Char → Bool) : Nesting → Text → Prop
  | _, [] => True
  | s, c :: rest => (s.isTop && p c) = false ∧ Clear p (s.step c) rest

/-- Scanning decides whether a text is clear. -/
instance decidableClear (p : Char → Bool) : ∀ s t, Decidable (Clear p s t)
  | _, [] => inferInstanceAs (Decidable True)
  | s, c :: rest =>
    have := decidableClear p (s.step c) rest
    inferInstanceAs (Decidable (_ ∧ _))

variable {p q : Char → Bool} {s : Nesting} {t u : Text}

@[simp] theorem clear_nil : Clear p s [] := trivial

@[simp] theorem clear_cons {c : Char} :
    Clear p s (c :: t) ↔ (s.isTop && p c) = false ∧ Clear p (s.step c) t := Iff.rfl

theorem clear_append : Clear p s (t ++ u) ↔ Clear p s t ∧ Clear p (s.scan t) u := by
  induction t generalizing s with
  | nil => simp
  | cons c t ih => simp [ih, and_assoc]

theorem Clear.mono (h : Clear p s t) (hqp : ∀ c, q c = true → p c = true) : Clear q s t := by
  induction t generalizing s with
  | nil => trivial
  | cons c t ih =>
    refine ⟨?_, ih h.2⟩
    have := h.1
    by_contra hn
    simp only [Bool.not_eq_false, Bool.and_eq_true] at hn
    simp [hn.1, hqp c hn.2] at this

theorem clear_or : Clear (fun c => p c || q c) s t ↔ Clear p s t ∧ Clear q s t := by
  induction t generalizing s with
  | nil => simp
  | cons c t ih =>
    simp only [clear_cons, ih, Bool.and_or_distrib_left, Bool.or_eq_false_iff]
    tauto

/-- A text without a character that satisfies `p` is clear. -/
theorem clear_of_forall (h : ∀ c ∈ t, p c = false) : Clear p s t := by
  induction t generalizing s with
  | nil => trivial
  | cons c t ih => exact ⟨by simp [h c (by simp)], ih fun d hd => h d (by simp [hd])⟩

/-- The break is found behind a clear text. -/
theorem breakTop_append_of_clear {c : Char} (h : Clear p s t) (ht : (s.scan t).isTop = true)
    (hc : p c = true) : breakTop p s (t ++ c :: u) = (t, c :: u) := by
  induction t generalizing s with
  | nil => simp_all [breakTop]
  | cons d t ih => simp [breakTop, h.1, ih h.2 ht]

theorem clear_breakTop (p : Char → Bool) (s : Nesting) (t : Text) :
    Clear p s (breakTop p s t).1 := by
  induction t generalizing s with
  | nil => trivial
  | cons c t ih =>
    unfold breakTop
    split
    · trivial
    · next h => exact ⟨by simpa using h, ih _⟩

/-! ## Splitting -/

theorem splitTop_of_clear {c : Char} (h : Clear (· = c) s t) : splitTop c s t = [t] := by
  induction t generalizing s with
  | nil => rfl
  | cons d t ih =>
    have hd : ¬ (s.isTop && decide (d = c)) = true := by simp [h.1]
    rw [splitTop, ite_eq_right_iff.2 fun hn => absurd hn hd, ih h.2]

theorem splitTop_append {c : Char} (h : Clear (· = c) s t) (ht : (s.scan t).isTop = true) :
    splitTop c s (t ++ c :: u) = t :: splitTop c (s.scan t) u := by
  induction t generalizing s with
  | nil =>
    rw [Nesting.scan_nil] at ht
    simp [splitTop, ht]
  | cons d t ih =>
    have hd : ¬ (s.isTop && decide (d = c)) = true := by simp [h.1]
    rw [List.cons_append, splitTop, ite_eq_right_iff.2 fun hn => absurd hn hd, ih h.2 ht]
    rfl

/-- Whether no character of a text that satisfies `p` stands at top level, and its scan
    ends there. -/
def Closed (p : Char → Bool) (t : Text) : Prop :=
  Clear p .outside t ∧ Nesting.outside.scan t = .outside

theorem closed_nil : Closed p [] := ⟨trivial, rfl⟩

theorem Closed.isTop (h : Closed p t) : (Nesting.outside.scan t).isTop = true := by
  rw [h.2]
  rfl

theorem Closed.mono (h : Closed p t) (hqp : ∀ c, q c = true → p c = true) : Closed q t :=
  ⟨h.1.mono hqp, h.2⟩

theorem closed_or : Closed (fun c => p c || q c) t ↔ Closed p t ∧ Closed q t := by
  simp only [Closed, clear_or]
  tauto

theorem Closed.append (ht : Closed p t) (hu : Closed p u) : Closed p (t ++ u) := by
  refine ⟨clear_append.2 ⟨ht.1, ?_⟩, ?_⟩
  · rw [ht.2]; exact hu.1
  · rw [Nesting.scan_append, ht.2, hu.2]

/-- A closed text behind another says nothing about it. -/
theorem closed_append_iff (ht : Closed p t) : Closed p (t ++ u) ↔ Closed p u := by
  simp only [Closed, clear_append, Nesting.scan_append, ht.1, ht.2, true_and]

/-- What stands in front of a plain end is closed too. -/
theorem Closed.of_append_plain (h : Closed p (t ++ u)) (hu : Nesting.Plain u) : Closed p t := by
  obtain ⟨hc, hs⟩ := h
  rw [Nesting.scan_append] at hs
  exact ⟨(clear_append.1 hc).1,
    Nesting.eq_outside_of_scan_plain (Nesting.tidy_outside.scan t) hu hs⟩

/-- A text of characters that neither count nor satisfy `p`. -/
theorem closed_of_forall (h : ∀ c ∈ t, Nesting.isMark c = false ∧ p c = false) : Closed p t :=
  ⟨clear_of_forall fun c hc => (h c hc).2,
    Nesting.scan_of_not_mark rfl fun c hc => (h c hc).1⟩

/-- The parts of closed texts, joined, are found again by splitting. -/
theorem splitTop_join {c : Char} {es : List Text} (hne : es ≠ [])
    (h : ∀ e ∈ es, Closed (· = c) e) : splitTop c .outside (join [c] es) = es := by
  induction es with
  | nil => exact absurd rfl hne
  | cons e es ih =>
    have he := h e (by simp)
    cases es with
    | nil => exact splitTop_of_clear he.1
    | cons f es =>
      have hj : join [c] (e :: f :: es) = e ++ c :: join [c] (f :: es) := by simp [join]
      rw [hj, splitTop_append he.1 he.isTop, he.2,
        ih (by simp) fun g hg => h g (by simp [hg])]

/-- Texts that are closed but for the separator are closed when joined. -/
theorem closed_join {c : Char} {es : List Text} (hc : Nesting.isMark c = false) (hp : p c = false)
    (h : ∀ e ∈ es, Closed p e) : Closed p (join [c] es) := by
  induction es with
  | nil => exact closed_nil
  | cons e es ih =>
    cases es with
    | nil => exact h e (by simp)
    | cons f es =>
      have hs : Closed p [c] := closed_of_forall (by simp [hc, hp])
      rw [join]
      · exact ((h e (by simp)).append hs).append (ih fun g hg => h g (by simp [hg]))
      · simp

/-- The parts of a text whose scan from `s` ends at top level. Only the first one starts
    in `s`. -/
theorem closed_of_splitTop {c : Char} {part : Text} {parts : List Text}
    (hm : Nesting.isMark c = false) (hs : s.Tidy) (hp : Clear p s t) (ht : s.scan t = .outside)
    (h : splitTop c s t = part :: parts) :
    (Clear p s part ∧ Clear (· = c) s part ∧ s.scan part = .outside) ∧
      ∀ e ∈ parts, Closed p e ∧ Closed (· = c) e := by
  induction t generalizing s part parts with
  | nil =>
    simp only [splitTop, List.cons.injEq] at h
    obtain ⟨rfl, rfl⟩ := h
    exact ⟨⟨trivial, trivial, ht⟩, by simp⟩
  | cons d t ih =>
    rw [splitTop] at h
    split_ifs at h with hd
    · -- at a separator the state is that of the start
      simp only [Bool.and_eq_true, decide_eq_true_eq] at hd
      obtain ⟨htop, rfl⟩ := hd
      obtain rfl := hs.eq_outside htop
      have hstep : Nesting.outside.step d = .outside := Nesting.step_of_not_mark rfl hm
      obtain ⟨e, es, hes⟩ := List.exists_cons_of_ne_nil (splitTop_ne_nil d .outside t)
      simp only [List.cons.injEq] at h
      obtain ⟨rfl, rfl⟩ := h
      rw [hes]
      rw [Nesting.scan_cons, hstep] at ht
      obtain ⟨h1, h2⟩ := ih hs (hstep ▸ hp.2) ht hes
      refine ⟨⟨trivial, trivial, rfl⟩, fun f hf => ?_⟩
      rcases List.mem_cons.1 hf with rfl | hf
      · exact ⟨⟨h1.1, h1.2.2⟩, h1.2.1, h1.2.2⟩
      · exact h2 f hf
    · obtain ⟨e, es, hes⟩ := List.exists_cons_of_ne_nil (splitTop_ne_nil c (s.step d) t)
      rw [hes] at h
      simp only [List.cons.injEq] at h
      obtain ⟨rfl, rfl⟩ := h
      obtain ⟨h1, h2⟩ := ih (hs.step d) hp.2 ht hes
      exact ⟨⟨⟨hp.1, h1.1⟩, ⟨by simpa using hd, h1.2.1⟩, h1.2.2⟩, h2⟩

/-- The parts of a closed text are closed, also for the separator. -/
theorem closed_of_mem_splitTop {c : Char} (hm : Nesting.isMark c = false) (h : Closed p t)
    {e : Text} (he : e ∈ splitTop c .outside t) : Closed (fun d => p d || d = c) e := by
  obtain ⟨part, parts, hs⟩ := List.exists_cons_of_ne_nil (splitTop_ne_nil c .outside t)
  obtain ⟨h1, h2⟩ := closed_of_splitTop hm Nesting.tidy_outside h.1 h.2 hs
  rw [closed_or]
  rw [hs] at he
  rcases List.mem_cons.1 he with rfl | he
  · exact ⟨⟨h1.1, h1.2.2⟩, h1.2.1, h1.2.2⟩
  · exact h2 e he

/-! ## Trimming -/

theorem dropEndWhile_eq (p : Char → Bool) (t : Text) :
    dropEndWhile p t = t.rdropWhile p := rfl

/-- Dropping at the end of two texts reaches the first one only through all of the
    second. -/
theorem dropEndWhile_append (p : Char → Bool) (t u : Text) :
    dropEndWhile p (t ++ u) =
      if dropEndWhile p u = [] then dropEndWhile p t else t ++ dropEndWhile p u := by
  simp only [dropEndWhile, List.reverse_append, List.dropWhile_append, List.isEmpty_iff,
    List.reverse_eq_nil_iff]
  split_ifs <;> simp

theorem dropEndWhile_eq_self {p : Char → Bool} {t : Text} (h : ∀ c ∈ t.getLast?, p c = false) :
    dropEndWhile p t = t := by
  rw [dropEndWhile_eq, List.rdropWhile_eq_self_iff]
  intro hne
  simp [h _ (List.getLast?_eq_some_getLast hne)]

theorem trimStart_append (t : Text) :
    ∃ b : Text, (∀ c ∈ b, isBlank c = true) ∧ t = b ++ trimStart t :=
  ⟨t.takeWhile isBlank, fun _ hc => List.mem_takeWhile_imp hc, List.takeWhile_append_dropWhile.symm⟩

/-- A text is what dropping leaves, in front of what is dropped. -/
theorem exists_dropEndWhile_append (p : Char → Bool) (t : Text) :
    ∃ b : Text, (∀ c ∈ b, p c = true) ∧ t = dropEndWhile p t ++ b := by
  refine ⟨(t.reverse.takeWhile p).reverse, ?_, ?_⟩
  · intro c hc
    exact List.mem_takeWhile_imp (List.mem_reverse.1 hc)
  · rw [dropEndWhile, ← List.reverse_append, List.takeWhile_append_dropWhile, List.reverse_reverse]

theorem trimEnd_append (t : Text) :
    ∃ b : Text, (∀ c ∈ b, isBlank c = true) ∧ t = trimEnd t ++ b :=
  exists_dropEndWhile_append isBlank t

/-- A text is what trimming leaves, between blanks. -/
theorem trim_append (t : Text) : ∃ a b : Text, (∀ c ∈ a, isBlank c = true) ∧
    (∀ c ∈ b, isBlank c = true) ∧ t = a ++ (trim t ++ b) := by
  obtain ⟨a, ha, hta⟩ := trimStart_append t
  obtain ⟨b, hb, htb⟩ := trimEnd_append (trimStart t)
  exact ⟨a, b, ha, hb, by rw [trim, ← htb, ← hta]⟩

theorem length_trim_le (t : Text) : (trim t).length ≤ t.length := by
  obtain ⟨a, b, -, -, ht⟩ := trim_append t
  have hlen := congrArg List.length ht
  simp only [List.length_append] at hlen
  omega

theorem mem_of_mem_trim {c : Char} (h : c ∈ trim t) : c ∈ t := by
  obtain ⟨a, b, -, -, ht⟩ := trim_append t
  rw [ht]
  simp [h]

theorem mem_trim_of_not_blank {c : Char} (h : c ∈ t) (hc : isBlank c = false) : c ∈ trim t := by
  obtain ⟨a, b, ha, hb, ht⟩ := trim_append t
  rw [ht, List.mem_append, List.mem_append] at h
  rcases h with h | h | h
  · exact absurd (ha c h) (by simp [hc])
  · exact h
  · exact absurd (hb c h) (by simp [hc])

theorem head_trim (t : Text) : ∀ c ∈ (trim t).head?, isBlank c = false := by
  intro c hc
  obtain ⟨b, hb⟩ : trim t <+: trimStart t := List.rdropWhile_prefix _ _
  have hs : (trimStart t).head? = some c := by
    rw [← hb, List.head?_append, Option.mem_def.1 hc]
    rfl
  have := List.head?_dropWhile_not isBlank t
  rw [show t.dropWhile isBlank = trimStart t from rfl, hs] at this
  simpa using this

/-- A text that does not begin with a blank begins as before when it is trimmed. -/
theorem mem_head_of_mem_head_trim (hb : ∀ c ∈ t.head?, isBlank c = false) {c : Char}
    (h : c ∈ (trim t).head?) : c ∈ t.head? := by
  obtain ⟨a, b, ha, -, ht⟩ := trim_append t
  cases a with
  | nil =>
    rw [ht, List.nil_append, List.head?_append, Option.mem_def.1 h]
    rfl
  | cons d a =>
    have hd := hb d (by rw [ht]; rfl)
    rw [ha d (by simp)] at hd
    exact absurd hd (by simp)

theorem last_dropEndWhile (p : Char → Bool) (t : Text) :
    ∀ c ∈ (dropEndWhile p t).getLast?, p c = false := by
  intro c hc
  have hne : dropEndWhile p t ≠ [] := by
    intro hn
    simp [hn] at hc
  have hl : ¬ p ((dropEndWhile p t).getLast hne) = true := List.rdropWhile_last_not p t hne
  rw [List.getLast?_eq_some_getLast hne, Option.mem_some_iff] at hc
  simpa [← hc] using hl

theorem last_trim (t : Text) : ∀ c ∈ (trim t).getLast?, isBlank c = false :=
  last_dropEndWhile isBlank (trimStart t)

@[simp] theorem trim_trim (t : Text) : trim (trim t) = trim t :=
  trim_eq_self (head_trim t) (last_trim t)

/-- A text between characters that are no blanks. -/
theorem trim_between {a b : Char} (ha : isBlank a = false) (hb : isBlank b = false) (t : Text) :
    trim (a :: (t ++ [b])) = a :: (t ++ [b]) := by
  refine trim_eq_self (by simpa using ha) ?_
  rw [← List.cons_append, List.getLast?_concat]
  simpa using hb

/-- An entry stays closed when its name and its value are trimmed, also if its `=` stands
    between quotes. -/
theorem closed_trim {name value : Text} (hp : p '=' = false)
    (h : Closed p (name ++ '=' :: value)) : Closed p (trim name ++ '=' :: trim value) := by
  obtain ⟨a, b, ha, hb, hn⟩ := trim_append name
  obtain ⟨a', b', ha', hb', hv⟩ := trim_append value
  generalize trim name = n at hn ⊢
  generalize trim value = v at hv ⊢
  subst hn hv
  have hn := Nesting.tidy_outside.scan n
  have he : Nesting.isMark '=' = false ∧ '=' ≠ '\\' := by decide
  have ho : Nesting.outside.scan a = .outside :=
    Nesting.scan_plain Nesting.tidy_outside (Nesting.plain_of_blank ha) rfl
  -- the state behind `=` does not depend on the blanks around it
  have heq : ((Nesting.outside.scan n).scan b).step '=' = (Nesting.outside.scan n).step '=' :=
    Nesting.step_scan_plain hn (Nesting.plain_of_blank hb) he
  have hv : ((Nesting.outside.scan n).step '=').scan a' = (Nesting.outside.scan n).step '=' :=
    Nesting.scan_plain (hn.step '=') (Nesting.plain_of_blank ha')
      (Nesting.escaped_step_of_plain hn he)
  obtain ⟨hc, hs⟩ := h
  simp only [clear_append, clear_cons, Nesting.scan_append, Nesting.scan_cons, ho, heq, hv] at hc hs
  refine ⟨clear_append.2 ⟨hc.1.2.1, ⟨by simp [hp], hc.2.2.2.1⟩⟩, ?_⟩
  rw [Nesting.scan_append, Nesting.scan_cons]
  exact Nesting.eq_outside_of_scan_plain ((hn.step '=').scan v) (Nesting.plain_of_blank hb') hs

/-! ## Brackets around a text -/

/-- Whether a character closes a bracket. -/
def isClosing (c : Char) : Bool :=
  c = ']' || c = '}'

/-- The state with one more bracket open around all others. -/
def deeper (s : Nesting) : Nesting :=
  { s with depth := s.depth + 1 }

theorem step_deeper {c : Char} (h : (s.isTop && isClosing c) = false) :
    (deeper s).step c = deeper (s.step c) := by
  obtain ⟨depth, quote, escaped⟩ := s
  cases quote with
  | some q =>
    simp only [deeper, Nesting.step]
    by_cases he : escaped = true
    · simp [he]
    by_cases hb : c = '\\'
    · simp [he, hb]
    by_cases hq : c = q
    · simp [he, hq, hq ▸ hb]
    · simp [he, hb, hq]
  | none =>
    simp only [deeper, Nesting.step]
    split_ifs with h1 h2 h3
    · rfl
    · rfl
    · have hd : depth ≠ 0 := by
        rintro rfl
        simp only [Nesting.isTop, isClosing, decide_true, Bool.and_self, Bool.true_and,
          Bool.or_eq_false_iff, decide_eq_false_iff_not] at h
        tauto
      simp only [Nesting.mk.injEq, and_true]
      omega
    · rfl

/-- A text that closes no bracket but its own leaves a bracket around it open. -/
theorem scan_deeper (h : Clear isClosing s t) : (deeper s).scan t = deeper (s.scan t) := by
  induction t generalizing s with
  | nil => rfl
  | cons c t ih => rw [Nesting.scan_cons, step_deeper h.1, ih h.2, Nesting.scan_cons]

/-- Inside that bracket it has no character at top level at all. -/
theorem clear_deeper (h : Clear isClosing s t) : Clear p (deeper s) t := by
  induction t generalizing s with
  | nil => trivial
  | cons c t ih =>
    refine ⟨by simp [deeper, Nesting.isTop], ?_⟩
    rw [step_deeper h.1]
    exact ih h.2

/-- A text in brackets or braces is closed for everything but those. -/
theorem closed_enclosed {o c : Char} (ho : o = '[' ∨ o = '{') (hc : isClosing c = true)
    (h : Closed isClosing t) (hp : p o = false) : Closed p (o :: (t ++ [c])) := by
  have hb : Nesting.outside.step o = deeper .outside := by
    rcases ho with rfl | rfl <;> rfl
  have hs : (deeper .outside).scan t = deeper .outside := by rw [scan_deeper h.1, h.2]
  have he : (deeper .outside).step c = .outside := by
    rcases Bool.or_eq_true_iff.1 hc with hc | hc <;> (rw [of_decide_eq_true hc]; rfl)
  refine ⟨⟨by simp [hp], ?_⟩, ?_⟩
  · rw [hb, clear_append, hs]
    exact ⟨clear_deeper h.1, by simp [deeper, Nesting.isTop]⟩
  · rw [Nesting.scan_cons, hb, Nesting.scan_append, hs, Nesting.scan_cons, he]
    rfl

end Text

end CrossEdition
