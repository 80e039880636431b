import CrossEdition.Selector.Detection
import CrossEdition.Proofs.Selector.Values
import CrossEdition.Proofs.Text.Quoted

/-!
# Detection and quoted strings

What stands between quotes in a parameter list does not matter to the parameters that are
counted, with one exception: the entries of a score map end at the first `=`, also at one
between quotes. But the search for loose spacing goes through the whole list, quoted strings
included, and where one more hint for Java decides, it decides.

Results:
* `countP_emptied`: counting parameters by their names, with the quoted strings emptied.
* `negated_hollow`: a score map is negated wherever its hollow text is.
* `looselySpaced_eq`: loose spacing is that of the hollow list or that of a quoted string.
* `detect_eq_iff`: when two selectors that differ in quoted strings get the same dialect.
-/

namespace CrossEdition

open Nesting (isQuote)
open Text (hollow quoted)

namespace Selector

variable {t u : Text} {s : Nesting}

/-! ## Selectors with their quoted strings emptied -/

/-- The text of a selector with the quoted strings of its parameter list emptied. -/
def emptied (t : Text) : Text :=
  match Text.cut '[' t with
  | none => t
  | some (front, list) => front ++ '[' :: hollow .outside list

theorem cut_emptied (t : Text) : Text.cut '[' (emptied t) =
    (Text.cut '[' t).map fun (front, list) => (front, hollow .outside list) := by
  cases h : Text.cut '[' t with
  | none => rw [emptied, h, h]; rfl
  | some sides =>
    rw [emptied, h]
    exact Text.cut_eq_some_iff.2 ⟨rfl, (Text.cut_eq_some_iff.1 h).2⟩

theorem trim_append_cons {c : Char} (hc : Text.isBlank c = false) (a b : Text) :
    Text.trim (a ++ c :: b) = Text.trimStart a ++ c :: Text.trimEnd b := by
  have hstart : Text.trimStart (a ++ c :: b) = Text.trimStart a ++ c :: b := by
    rw [Text.trimStart, Text.trimStart, List.dropWhile_append,
      List.dropWhile_cons_of_neg (by simp [hc])]
    split_ifs with ha
    · rw [List.isEmpty_iff.1 ha]; rfl
    · rfl
  have hend : Text.trimEnd (c :: b) = c :: Text.trimEnd b := by
    have hone : Text.trimEnd [c] = [c] := Text.dropEndWhile_eq_self (by simpa using hc)
    rw [Text.trimEnd, ← List.singleton_append, Text.dropEndWhile_append]
    split_ifs with hb
    · exact hone.trans (congrArg (c :: ·) hb.symm)
    · rfl
  have hne : Text.dropEndWhile Text.isBlank (c :: b) ≠ [] := by
    rw [← Text.trimEnd, hend]
    exact List.cons_ne_nil _ _
  rw [Text.trim, hstart, Text.trimEnd, Text.dropEndWhile_append, if_neg hne, ← Text.trimEnd, hend]

theorem trim_emptied (t : Text) : Text.trim (emptied t) = emptied (Text.trim t) := by
  cases h : Text.cut '[' t with
  | none =>
    have hn : Text.cut '[' (Text.trim t) = none :=
      Text.cut_eq_none_iff.2 fun hm => Text.cut_eq_none_iff.1 h (Text.mem_of_mem_trim hm)
    rw [emptied, h, emptied, hn]
  | some sides =>
    obtain ⟨front, list⟩ := sides
    obtain ⟨rfl, hn⟩ := Text.cut_eq_some_iff.1 h
    have hn' : '[' ∉ Text.trimStart front := fun hm =>
      hn ((List.dropWhile_suffix Text.isBlank).subset hm)
    have ht : Text.trim (front ++ '[' :: list) = Text.trimStart front ++ '[' :: Text.trimEnd list :=
      trim_append_cons rfl front list
    have hc : Text.cut '[' (Text.trim (front ++ '[' :: list)) =
        some (Text.trimStart front, Text.trimEnd list) := Text.cut_eq_some_iff.2 ⟨ht, hn'⟩
    have hl : hollow .outside (Text.trimEnd list) = Text.trimEnd (hollow .outside list) :=
      Text.hollow_dropEndWhile Text.isBlank_of_isQuote Nesting.tidy_outside list
    rw [emptied, h, emptied, hc]
    exact (trim_append_cons rfl front _).trans (by rw [← hl])

theorem body?_emptied (t : Text) : body? (emptied t) = (body? t).map (hollow .outside) := by
  rw [body?, body?, cut_emptied, Option.map_map, Option.map_map]
  refine congrArg (Option.map · _) (funext fun sides => ?_)
  exact Text.hollow_breakTop _ .outside sides.2

/-- The entries of the parameter list. -/
def entries (t : Text) : List Text :=
  ((body? t).map (Text.splitTop ',' .outside)).getD []

theorem entries_emptied (t : Text) : entries (emptied t) = (entries t).map (hollow .outside) := by
  rw [entries, entries, body?_emptied]
  cases body? t with
  | none => rfl
  | some body => exact Text.splitTop_hollow (by decide) body

theorem read_value (t : Text) : (read t).value = ⟨.ofText (Text.trim
    (((Text.cut '[' (Text.trim t)).map (·.1)).getD (Text.trim t))),
    (entries (Text.trim t)).filterMap fun entry => (parameter? entry).value⟩ := by
  simp [read, entries, Noted.value_all, List.filterMap_map, Function.comp_def]

/-! ## Counting parameters -/

/-- A parameter whose entry begins with a quote in front of its `=` has it in its name. -/
theorem mem_name_of_parameter? {a x : Text} {c : Char} {p : Parameter} (ha : '=' ∉ a)
    (hc : isQuote c = true) (h : (parameter? (a ++ c :: x)).value = some p) : c ∈ p.name := by
  unfold parameter? at h
  split at h
  · exact absurd h (Option.some_ne_none p).symm
  · next name value hcut =>
    obtain ⟨heq, -⟩ := Text.cut_eq_some_iff.1 hcut
    have hmem : c ∈ name := by
      rcases List.append_eq_append_iff.1 heq with ⟨b, rfl, hb⟩ | ⟨b, rfl, hb⟩
      · cases b with
        | nil => rw [(List.cons.inj hb).1] at hc; exact absurd hc (by decide)
        | cons d b => rw [(List.cons.inj hb).1]; simp
      · cases b with
        | nil => rw [← (List.cons.inj hb).1] at hc; exact absurd hc (by decide)
        | cons d b => rw [← (List.cons.inj hb).1] at ha; exact absurd (by simp) ha
    have htrim : c ∈ Text.trim name :=
      Text.mem_trim_of_not_blank hmem (Text.isBlank_of_isQuote c hc)
    split_ifs at h
    rw [← Option.some.inj h]
    exact htrim

/-- An entry and its hollow text spell the same parameter up to quoted strings, or none
    that is counted. -/
theorem parameter?_hollow (entry : Text) :
    (∃ name value, (parameter? entry).value = some (.ofTexts name value) ∧
      (parameter? (hollow .outside entry)).value =
        some (.ofTexts name (hollow .outside value))) ∨
    ∀ p, (parameter? entry).value = some p ∨ (parameter? (hollow .outside entry)).value = some p →
      ∃ c ∈ p.name, isQuote c = true := by
  cases h : Text.cut '=' entry with
  | none =>
    have hn : Text.cut '=' (hollow .outside entry) = none :=
      Text.cut_eq_none_iff.2 fun hm => Text.cut_eq_none_iff.1 h (Text.mem_of_mem_sift hm)
    refine .inr fun p hp => ?_
    simp [parameter?, h, hn] at hp
  | some sides =>
    obtain ⟨name, value⟩ := sides
    obtain ⟨rfl, hn⟩ := Text.cut_eq_some_iff.1 h
    by_cases hq : ∀ c ∈ name, isQuote c = false
    · have hhollow : hollow .outside (name ++ '=' :: value) =
          name ++ '=' :: hollow .outside value := by
        have hfront : ∀ c ∈ name ++ ['='], isQuote c = false :=
          List.forall_mem_append.2 ⟨hq, by decide⟩
        simpa using (Text.sift_append_of_not_quote rfl hfront value).1
      have hc : Text.cut '=' (hollow .outside (name ++ '=' :: value)) =
          some (name, hollow .outside value) := Text.cut_eq_some_iff.2 ⟨hhollow, hn⟩
      by_cases hname : Text.trim name = []
      · refine .inr fun p hp => ?_
        simp [parameter?, h, hc, hname] at hp
      · exact .inl ⟨Text.trim name, value, by simp [parameter?, h, hname],
          by simp [parameter?, hc, hname]⟩
    · -- up to its first quote the hollow text is the entry
      obtain ⟨c, hfirst⟩ : ∃ c, name.find? isQuote = some c := by
        rw [← Option.isSome_iff_exists, List.find?_isSome]
        simpa using hq
      obtain ⟨hc, a, b, rfl, ha⟩ := List.find?_eq_some_iff_append.1 hfirst
      have heq : '=' ∉ a := fun hm => hn (List.mem_append_left _ hm)
      have ha' : ∀ d ∈ a, isQuote d = false := fun d hd => by simpa using ha d hd
      have hhollow : hollow .outside (a ++ c :: b ++ '=' :: value) =
          a ++ c :: hollow (Nesting.outside.step c) (b ++ '=' :: value) := by
        rw [List.append_assoc, (Text.sift_append_of_not_quote rfl ha' _).1]
        exact congrArg (a ++ ·) (Text.sift_cons_of_not_within rfl _).1
      refine .inr fun p hp => ⟨c, ?_, hc⟩
      rw [hhollow, List.append_assoc] at hp
      cases hp with
      | inl hp => exact mem_name_of_parameter? heq hc hp
      | inr hp => exact mem_name_of_parameter? heq hc hp

/-- Parameters are counted alike if their quoted strings are emptied: those with quotes in
    their names do not count. -/
theorem countP_emptied {f : Parameter → Bool}
    (hname : ∀ p, f p = true → ∀ c ∈ p.name, isQuote c = false)
    (hvalue : ∀ name value, .ofTexts name value ∈ (read t).value.parameters →
      f (.ofTexts name (hollow .outside value)) = f (.ofTexts name value)) :
    (read (emptied t)).value.parameters.countP f = (read t).value.parameters.countP f := by
  rw [read_value] at hvalue
  rw [read_value, read_value, trim_emptied, entries_emptied, List.filterMap_map,
    List.countP_filterMap, List.countP_filterMap]
  refine List.countP_congr fun entry hentry => ?_
  rcases parameter?_hollow entry with ⟨name, value, hp, hp'⟩ | hquote
  · have hv := hvalue name value (List.mem_filterMap.2 ⟨entry, hentry, hp⟩)
    simp [hp, hp', hv]
  · have hnot : ∀ p, (parameter? entry).value = some p ∨
        (parameter? (hollow .outside entry)).value = some p → f p = false := by
      intro p hp
      obtain ⟨c, hc, hq⟩ := hquote p hp
      by_contra hf
      rw [hname p (by simpa using hf) c hc] at hq
      exact Bool.noConfusion hq
    have hn : ((parameter? entry).value.map f).getD false = false := by
      cases h : (parameter? entry).value with
      | none => rfl
      | some p => exact hnot p (.inl h)
    have hn' : ((parameter? (hollow .outside entry)).value.map f).getD false = false := by
      cases h : (parameter? (hollow .outside entry)).value with
      | none => rfl
      | some p => exact hnot p (.inr h)
    simp [hn, hn']

/-! ## Score maps -/

/-- The first `=` of an entry outside quotes is that of the hollow entry, and the value behind
    it begins alike. -/
theorem valueHead_hollow {entry : Text} (h : '=' ∉ quoted .outside entry) :
    (Text.cut '=' (hollow .outside entry)).map (fun sides => (Text.trim sides.2).head?) =
      (Text.cut '=' entry).map fun sides => (Text.trim sides.2).head? := by
  cases hc : Text.cut '=' entry with
  | none =>
    rw [Text.cut_eq_none_iff.2 fun hm => Text.cut_eq_none_iff.1 hc (Text.mem_of_mem_sift hm)]
  | some sides =>
    obtain ⟨name, value⟩ := sides
    obtain ⟨rfl, hn⟩ := Text.cut_eq_some_iff.1 hc
    have hs := Nesting.tidy_outside.scan name
    set s := Nesting.outside.scan name
    have hw : s.within '=' = false := by
      by_contra hw
      refine h ?_
      rw [Text.quoted_append, (Text.sift_cons (by simpa using hw) value).2]
      simp
    -- the `=` opens and closes no quotes, so it stands outside them, and so does the value
    have hquote : (s.step '=').quote = none := by
      by_contra hne
      have hopens := Nesting.isQuote_of_opens hs hw (Option.isSome_iff_ne_none.2 hne)
      exact absurd hopens (by decide)
    have hhollow : Text.cut '=' (hollow .outside (name ++ '=' :: value)) =
        some (hollow .outside name, hollow (s.step '=') value) := by
      refine Text.cut_eq_some_iff.2 ⟨?_, fun hm => hn (Text.mem_of_mem_sift hm)⟩
      rw [Text.hollow_append, (Text.sift_cons_of_not_within hw value).1]
    rw [hhollow, Option.map_some, Option.map_some, ← Text.hollow_trim (hs.step '=') hquote,
      Text.head?_hollow hquote]

/-- What is left of a score map without its outermost braces. -/
def inside (t : Text) : Text :=
  Text.dropEndWhile (· = '}') (t.dropWhile (· = '{'))

theorem ne_of_isQuote {c d : Char} (hd : isQuote d = false) (hc : isQuote c = true) :
    decide (c = d) = false := by
  refine decide_eq_false fun h => ?_
  rw [h, hd] at hc
  exact Bool.noConfusion hc

theorem inside_hollow (t : Text) : inside (hollow .outside t) = hollow .outside (inside t) := by
  rw [inside, inside,
    Text.hollow_dropEndWhile (fun c => ne_of_isQuote (by decide)) Nesting.tidy_outside,
    (Text.sift_dropWhile (fun c => ne_of_isQuote (by decide)) rfl t).1]

theorem mem_quoted_inside {c : Char} (h : c ∈ quoted .outside (inside t)) :
    c ∈ quoted .outside t := by
  have hmem := Text.mem_quoted_dropEndWhile h
  rwa [(Text.sift_dropWhile (fun c => ne_of_isQuote (by decide)) rfl t).2] at hmem

theorem negated_eq_nil_iff : Score.negated (.compound t) = [] ↔
    ∀ entry ∈ Text.splitTop ',' .outside (inside (Text.trim t)),
      (Text.cut '=' entry).map (fun sides => (Text.trim sides.2).head?) ≠ some (some '!') := by
  rw [Score.negated, List.filter_eq_nil_iff, Score.entries, ← inside]
  simp only [List.mem_filterMap, Option.map_eq_some_iff, Score.isNegated, decide_eq_true_eq]
  constructor
  · intro h entry he hn
    obtain ⟨sides, hc, hv⟩ := Option.map_eq_some_iff.1 hn
    exact h _ ⟨entry, he, sides, hc, rfl⟩ hv
  · rintro h _ ⟨entry, he, sides, hc, rfl⟩ hn
    exact h entry he (Option.map_eq_some_iff.2 ⟨sides, hc, hn⟩)

/-- Only a text in brackets is a map. -/
theorem negated_of_head (h : ¬((Text.trim t).head? = some '{' ∨ (Text.trim t).head? = some '[')) :
    Score.negated (.read t) = [] := by
  simp only [Value.read, if_neg h]
  split_ifs
  · cases Bounds.ofText? (Text.trim t) <;> rfl
  · rfl
  · rfl

theorem negated_hollow {value : Text} (h : '=' ∉ quoted .outside (Value.read value).text) :
    Score.negated (.read (hollow .outside value)) = [] ↔ Score.negated (.read value) = [] := by
  have htrim : hollow .outside (Text.trim value) = Text.trim (hollow .outside value) :=
    Text.hollow_trim Nesting.tidy_outside rfl value
  have hhead : (hollow .outside (Text.trim value)).head? = (Text.trim value).head? :=
    Text.head?_hollow rfl _
  rw [htrim] at hhead
  by_cases hb : (Text.trim value).head? = some '{' ∨ (Text.trim value).head? = some '['
  · have hread : Value.read value = .compound (Text.trim value) := if_pos hb
    have hread' : Value.read (hollow .outside value) =
        .compound (Text.trim (hollow .outside value)) := if_pos (hhead.symm ▸ hb)
    rw [hread] at h
    rw [hread, hread', negated_eq_nil_iff, negated_eq_nil_iff, Text.trim_trim, Text.trim_trim,
      ← htrim, inside_hollow, Text.splitTop_hollow (by decide), List.forall_mem_map]
    refine forall₂_congr fun entry he => ?_
    rw [valueHead_hollow fun hm =>
      h (mem_quoted_inside (Text.mem_quoted_of_mem_splitTop (by decide) he hm))]
  · exact iff_of_true (negated_of_head (hhead.symm ▸ hb)) (negated_of_head hb)

/-! ## Loose spacing -/

/-- Whether a space next to `=` or in front of a comma stands between quotes, and the other
    character too. -/
def spacedBetween : Nesting → Text → Bool
  | s, a :: b :: rest =>
    (s.within a && (s.step a).within b && looselySpaced [a, b]) ||
      spacedBetween (s.step a) (b :: rest)
  | _, _ => false

theorem looselySpaced_cons (a b : Char) (t : Text) :
    looselySpaced (a :: b :: t) = (looselySpaced [a, b] || looselySpaced (b :: t)) := by
  simp [looselySpaced]

/-- A quote is not loosely spaced. -/
theorem looselySpaced_quote {c : Char} (hc : isQuote c = true) (a : Char) (t : Text) :
    looselySpaced [a, c] = false ∧ looselySpaced (c :: t) = looselySpaced t := by
  have hor : c = '"' ∨ c = '\'' := by simpa [isQuote] using hc
  cases t with
  | nil => rcases hor with rfl | rfl <;> simp [looselySpaced]
  | cons b t => rcases hor with rfl | rfl <;> simp [looselySpaced]

/-- Loose spacing is that of the hollow text or stands between quotes: no quote takes part. -/
theorem looselySpaced_eq (hs : s.Tidy) (t : Text) :
    looselySpaced t = (looselySpaced (hollow s t) || spacedBetween s t) := by
  induction t generalizing s with
  | nil => rfl
  | cons a t ih =>
    cases t with
    | nil => cases hw : s.within a <;> simp [Text.sift, hw, looselySpaced, spacedBetween]
    | cons b t =>
      have ih := ih (hs.step a)
      rw [looselySpaced_cons, ih, spacedBetween]
      cases ha : s.within a with
      | false =>
        rw [(Text.sift_cons_of_not_within ha _).1, Bool.false_and, Bool.false_and, Bool.false_or]
        cases hb : (s.step a).within b with
        | false =>
          rw [(Text.sift_cons_of_not_within hb t).1, looselySpaced_cons a b (hollow _ t),
            Bool.or_assoc]
        | true =>
          -- the first character opens the quotes
          obtain ⟨hopen, -⟩ := Bool.and_eq_true_iff.1 hb
          have hq := Nesting.isQuote_of_opens hs ha hopen
          have hone : looselySpaced [b] = false := rfl
          rw [(looselySpaced_quote hq a [b]).2, (looselySpaced_quote hq a _).2, hone,
            Bool.false_or]
      | true =>
        rw [(Text.sift_cons ha _).1, Bool.true_and]
        cases hb : (s.step a).within b with
        | false =>
          -- the second character closes the quotes
          obtain ⟨-, hopen⟩ := Bool.and_eq_true_iff.1 ha
          have hq := Nesting.isQuote_of_closes (hs.step a) hb hopen
          rw [(looselySpaced_quote hq a []).1, Bool.false_and, Bool.false_or, Bool.false_or]
        | true => rw [Bool.true_and, Bool.or_left_comm]

/-! ## Detection -/

theorem detect_value (t : Text) : (detect t).value =
    if (read t).value.head.isBedrockOnly then .bedrock
    else ((body? (Text.trim t)).map fun body =>
      dialectOf (read t).value.javaHints (read t).value.bedrockHints (looselySpaced body)).getD
        .universal := by
  have hread : read (Text.trim t) = read t := by rw [read, read, Text.trim_trim]
  simp only [detect, Noted.value_bind, hread]
  split_ifs
  · rfl
  · cases body? (Text.trim t) with
    | none => rfl
    | some body =>
      simp only [Option.map_some, Option.getD_some]
      split_ifs <;> rfl

/-- Loose spacing matters exactly where Java is one hint ahead. -/
theorem dialectOf_eq_iff {java bedrock : Nat} {loose loose' : Bool} :
    dialectOf java bedrock loose = dialectOf java bedrock loose' ↔
      loose = loose' ∨ java ≠ bedrock + 1 := by
  have htie : dialectOf java bedrock false = dialectOf java bedrock true ↔ java ≠ bedrock + 1 := by
    simp only [dialectOf, Bool.toNat_false, Bool.toNat_true]
    split_ifs <;> simp <;> omega
  cases loose with
  | false => cases loose' <;> simp [htie]
  | true => cases loose' <;> simp [eq_comm, ← htie]

/-- Whether two selectors are the same but for characters in the quoted strings of their
    parameter lists that are neither quotes nor backslashes. -/
def AlikeOutside (t u : Text) : Prop :=
  t = u ∨ ∃ front list list', '[' ∉ front ∧ t = front ++ '[' :: list ∧ u = front ++ '[' :: list' ∧
    Text.SameOutside .outside list list'

theorem AlikeOutside.emptied_eq (h : AlikeOutside t u) : emptied t = emptied u := by
  rcases h with rfl | ⟨front, list, list', hf, rfl, rfl, hl⟩
  · rfl
  · rw [emptied, emptied, Text.cut_eq_some_iff.2 ⟨rfl, hf⟩, Text.cut_eq_some_iff.2 ⟨rfl, hf⟩]
    exact congrArg (front ++ '[' :: ·) (hl.hollow_eq Nesting.tidy_outside)

/-- Whether no quoted string in a score map of a selector holds a `=`. -/
def PlainScores (t : Text) : Prop :=
  ∀ p ∈ (read t).value.parameters, p.name = "scores" → '=' ∉ quoted .outside p.value.text

/-- Whether a quoted string in the parameter list of a selector is loosely spaced. -/
def SpacedInQuotes (t : Text) : Prop :=
  ∃ body ∈ body? (Text.trim t), spacedBetween .outside body = true

/-- Whether loose spacing in a quoted string decides: the variable does not, Java is one hint
    ahead, and nothing else is loosely spaced. -/
def OneAhead (t : Text) : Prop :=
  (read t).value.head.isBedrockOnly = false ∧
    (read t).value.javaHints = (read t).value.bedrockHints + 1 ∧
    ∀ body ∈ body? (Text.trim t), looselySpaced (hollow .outside body) = false

instance : Decidable (PlainScores t) :=
  inferInstanceAs (Decidable (∀ p ∈ (read t).value.parameters, _))

instance : Decidable (SpacedInQuotes t) :=
  inferInstanceAs (Decidable (∃ body ∈ body? (Text.trim t), _))

instance : Decidable (OneAhead t) :=
  inferInstanceAs (Decidable (_ ∧ _ ∧ ∀ body ∈ body? (Text.trim t), _))

theorem hints_emptied (h : PlainScores t) :
    (read (emptied t)).value.head = (read t).value.head ∧
      (read (emptied t)).value.javaHints = (read t).value.javaHints ∧
      (read (emptied t)).value.bedrockHints = (read t).value.bedrockHints := by
  have hnames : ∀ names : List Text, (∀ name ∈ names, ∀ c ∈ name, isQuote c = false) →
      (read (emptied t)).value.parameters.countP (·.name ∈ names) =
        (read t).value.parameters.countP (·.name ∈ names) := fun names hq =>
    countP_emptied (fun p hp => hq p.name (of_decide_eq_true hp)) fun _ _ _ => rfl
  refine ⟨?_, hnames _ (by decide), ?_⟩
  · rw [read_value, read_value, trim_emptied, cut_emptied]
    cases h : Text.cut '[' (Text.trim t) with
    | none => rw [emptied, h]; rfl
    | some sides => rfl
  · refine congrArg₂ (· + ·) (hnames _ (by decide)) (countP_emptied ?_ ?_)
    · intro p hp
      obtain ⟨hname, -⟩ := Bool.and_eq_true_iff.1 hp
      rw [of_decide_eq_true hname]
      decide
    · intro name value hmem
      rw [Bool.eq_iff_iff, Bool.and_eq_true, Bool.and_eq_true]
      refine and_congr_right fun hname => ?_
      have hnegated := negated_hollow (h _ hmem (of_decide_eq_true hname))
      exact decide_eq_true_iff.trans ((not_congr hnegated).trans decide_eq_true_iff.symm)

/-- What stands between quotes matters to the dialect as loose spacing only, and only where that
    decides. -/
theorem detect_eq_iff (h : AlikeOutside t u) (ht : PlainScores t) (hu : PlainScores u) :
    (detect t).value = (detect u).value ↔
      (SpacedInQuotes t ↔ SpacedInQuotes u) ∨ ¬OneAhead t := by
  have hemptied := h.emptied_eq
  obtain ⟨hhead, hjava, hbedrock⟩ := hints_emptied ht
  obtain ⟨hhead', hjava', hbedrock'⟩ := hints_emptied hu
  rw [hemptied] at hhead hjava hbedrock
  have hbody : (body? (Text.trim t)).map (hollow .outside) =
      (body? (Text.trim u)).map (hollow .outside) := by
    rw [← body?_emptied, ← body?_emptied, ← trim_emptied, ← trim_emptied, hemptied]
  rw [detect_value, detect_value, OneAhead, SpacedInQuotes, SpacedInQuotes, ← hhead, ← hjava,
    ← hbedrock, ← hhead', ← hjava', ← hbedrock']
  cases hb : body? (Text.trim t) with
  | none =>
    rw [hb, eq_comm, Option.map_none, Option.map_eq_none_iff] at hbody
    rw [hbody]
    exact iff_of_true rfl (.inl Iff.rfl)
  | some body =>
    rw [hb, eq_comm, Option.map_some, Option.map_eq_some_iff] at hbody
    obtain ⟨body', hb', hsame⟩ := hbody
    have hloose := looselySpaced_eq Nesting.tidy_outside body
    have hloose' := looselySpaced_eq Nesting.tidy_outside body'
    rw [hsame] at hloose'
    rw [hb']
    simp only [Option.mem_some_iff, forall_eq', exists_eq_left', Option.map_some, Option.getD_some,
      hloose, hloose']
    split_ifs with hhead
    · simp [hhead]
    · rw [dialectOf_eq_iff]
      cases looselySpaced (hollow .outside body) with
      | true => simp
      | false => simp [hhead]

/-- Where Java is two hints ahead, a space between quotes changes nothing. -/
theorem detect_eq_iff_two_ahead :
    AlikeOutside "@a[limit=1,sort=random,name=\"a= b\"]" "@a[limit=1,sort=random,name=\"a=xb\"]" ∧
      PlainScores "@a[limit=1,sort=random,name=\"a= b\"]" ∧
      PlainScores "@a[limit=1,sort=random,name=\"a=xb\"]" ∧
      (detect "@a[limit=1,sort=random,name=\"a= b\"]").value =
        (detect "@a[limit=1,sort=random,name=\"a=xb\"]").value := by
  have h : AlikeOutside "@a[limit=1,sort=random,name=\"a= b\"]"
      "@a[limit=1,sort=random,name=\"a=xb\"]" :=
    .inr ⟨"@a", "limit=1,sort=random,name=\"a= b\"]", "limit=1,sort=random,name=\"a=xb\"]",
      by decide, rfl, rfl, by decide +kernel⟩
  have ht : PlainScores "@a[limit=1,sort=random,name=\"a= b\"]" := by decide +kernel
  have hu : PlainScores "@a[limit=1,sort=random,name=\"a=xb\"]" := by decide +kernel
  exact ⟨h, ht, hu, (detect_eq_iff h ht hu).2 (.inr (by decide +kernel))⟩

/-- A space behind a `=` that belongs to a name turns the only hint for Java into a tie. -/
theorem detect_spaced_name :
    ¬∀ t u, AlikeOutside t u → (detect t).value = (detect u).value := by
  intro h
  have heq := h "@a[limit=1,name=\"a= b\"]" "@a[limit=1,name=\"a=xb\"]" <|
    .inr ⟨"@a", "limit=1,name=\"a= b\"]", "limit=1,name=\"a=xb\"]", by decide, rfl, rfl,
      by decide +kernel⟩
  exact absurd heq (by decide +kernel)

/-- An entry of a score map ends at a `=` between quotes. -/
example :
    (detect "@a[scores=\x7b\"a=!b\"=1\x7d]").value = .bedrock ∧
      (detect "@a[scores=\x7b\"axxb\"=1\x7d]").value = .universal := by
  decide +kernel

end Selector

end CrossEdition
