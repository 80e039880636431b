import CrossEdition.Command
import CrossEdition.Proofs.Adaptation.Idempotence
import CrossEdition.Proofs.Chat.JavaMessage

/-!
# Generated commands are valid

The command for Java that is made of a known variable, perhaps with a parameter list
whose quotes and brackets are closed, and of any message passes its own check. The
selector is a target for Java whether it is taken as it is or adapted, the first blank
behind it is the one in front of the message, and the message is read back.

Results:
* `IsTarget.selector_text`: a well-formed selector of Java is a target.
* `IsTarget.validate_tellraw`: a target and a component are a valid command.
* `isTarget_convertDetected`: converting gives Java a target.
* `validate_generate`: generated commands are valid.
-/

namespace CrossEdition

/-! ## Targets -/

namespace Command

/-- A selector of Java that ends in front of the first blank outside quotes and brackets. -/
structure IsTarget (t : Text) : Prop where
  shape : isJavaSelector t = true
  closed : Text.Closed Text.isBlank t

/-- The variables that Java knows, by their letters. -/
theorem text_of_java : ∀ v ∈ Variable.known, v.isBedrockOnly = false →
    ∃ c ∈ ("aprsen" : Text), v.text = ['@', c] := by
  decide

variable {v : Variable}

theorem IsTarget.head (hv : v ∈ Variable.known) (hj : v.isBedrockOnly = false) :
    IsTarget v.text := by
  have hall : ∀ c ∈ ("aprsen" : Text), isJavaSelector ['@', c] = true ∧
      ∀ d ∈ (['@', c] : Text), Nesting.isMark d = false ∧ Text.isBlank d = false := by
    decide
  obtain ⟨c, hc, ht⟩ := text_of_java v hv hj
  obtain ⟨hs, hd⟩ := hall c hc
  rw [ht]
  exact ⟨hs, Text.closed_of_forall hd⟩

/-- A variable with closed brackets behind it. -/
theorem IsTarget.brackets (hv : v ∈ Variable.known) (hj : v.isBedrockOnly = false) {body : Text}
    (hb : Text.Closed Text.isClosing body) : IsTarget (v.text ++ '[' :: (body ++ [']'])) := by
  refine ⟨?_, (IsTarget.head hv hj).closed.append
    (Text.closed_enclosed (.inl rfl) (by decide) hb (by decide))⟩
  obtain ⟨c, hc, ht⟩ := text_of_java v hv hj
  have hl : ('[' :: (body ++ [']'])).getLast? = some ']' := by
    rw [← List.cons_append, List.getLast?_concat]
  have hletter : decide (c ∈ "aprsen".toList) = true := decide_eq_true hc
  simp only [ht, List.cons_append, List.nil_append, isJavaSelector, hletter, hl]
  simp

/-- A well-formed selector of Java is a target. -/
theorem IsTarget.selector_text {s : Selector} (hv : s.head ∈ Variable.known)
    (hj : s.head.isBedrockOnly = false) (hp : ∀ p ∈ s.parameters, p.WellFormed isSeparator) :
    IsTarget s.text := by
  by_cases hn : s.parameters = []
  · rw [Selector.text, if_pos hn]
    exact .head hv hj
  · rw [Selector.text_eq hn]
    have hw : s.WellFormed isSeparator := ⟨Variable.readable_of_known hv, hp⟩
    refine .brackets hv hj (hw.closed_list (fun c hc => ?_) (by decide))
    rw [isSeparator, hc]
    rfl

/-! ## Valid commands -/

theorem after?_append (s t : Text) : Text.after? s (s ++ t) = some t := by
  simp [Text.after?]

theorem parts_target {selector message : Text} (h : IsTarget selector)
    (hm : Text.trim (' ' :: message) = message) :
    parts (selector ++ ' ' :: message) = (selector, message) := by
  have hhead : ∃ rest, selector = '@' :: rest := by
    have hs := h.shape
    unfold isJavaSelector at hs
    split at hs
    · exact ⟨_, rfl⟩
    · simp at hs
  have hstart : Text.trimStart (selector ++ ' ' :: message) = selector ++ ' ' :: message := by
    obtain ⟨rest, rfl⟩ := hhead
    rfl
  have hbreak : Text.breakTop Text.isBlank .outside (selector ++ ' ' :: message) =
      (selector, ' ' :: message) :=
    Text.breakTop_append_of_clear h.closed.1 h.closed.isTop (by decide)
  simp only [parts, hstart, hbreak, hm]

/-- A target and a component are a valid command. -/
theorem IsTarget.validate_tellraw {selector : Text} (h : IsTarget selector) {j : Json}
    (hj : JavaMessage.IsComponent j) : validate (tellraw selector j.print) = .ok () := by
  obtain ⟨entries, rfl, he⟩ := hj
  generalize hm : (Json.object entries).print = message
  obtain ⟨u, hu⟩ : ∃ u, message = '\x7b' :: (u ++ ['\x7d']) := ⟨_, hm.symm⟩
  have hmessage : Text.trim (' ' :: message) = message := by
    have hblank : Text.trim (' ' :: message) = Text.trim message := rfl
    rw [hblank, hu, Text.trim_between (by decide) (by decide)]
  have htrim : Text.trim (tellraw selector message) = tellraw selector message := by
    have ht : tellraw selector message =
        't' :: (("ellraw ".toList ++ (selector ++ ' ' :: '\x7b' :: u)) ++ ['\x7d']) := by
      unfold tellraw
      rw [hu, List.append_assoc, List.append_assoc, List.append_assoc]
      rfl
    rw [ht]
    exact Text.trim_between (by decide) (by decide) _
  have hafter : Text.after? "tellraw " (Text.trim (tellraw selector message)) =
      some (selector ++ ' ' :: message) := by
    rw [htrim]
    unfold tellraw
    rw [List.append_assoc]
    exact after?_append _ _
  have hparts := parts_target h hmessage
  rw [validate_ok_iff hafter, hparts]
  refine ⟨by simp [hu], h.shape, .object entries, ?_⟩
  rw [← hm]
  exact Json.read_print (.object he)

end Command

/-! ## Converted selectors -/

namespace Selector

variable {t : Text} {v : Variable}

/-- A known variable, perhaps with a parameter list in brackets, which closes no bracket
    but its own and ends outside quotes and brackets. -/
inductive Bracketed : Text → Prop
  | head {v : Variable} (hv : v ∈ Variable.known) : Bracketed v.text
  | list {v : Variable} {body : Text} (hv : v ∈ Variable.known)
      (hc : Text.Clear Text.isClosing .outside body)
      (ht : (Nesting.outside.scan body).isTop = true) :
      Bracketed (v.text ++ '[' :: (body ++ [']']))

/-- The parameter list of a known variable. -/
theorem cut_list (hv : v ∈ Variable.known) (u : Text) :
    Text.cut '[' (v.text ++ '[' :: u) = some (v.text, u) :=
  Text.cut_eq_some_iff.2 ⟨rfl, (Variable.readable_of_known hv).bracket_notMem⟩

theorem Bracketed.trim (h : Bracketed t) : Text.trim t = t := by
  have hat : ∀ v ∈ Variable.known, v.text.head? = some '@' := by
    decide
  cases h with
  | head hv => exact (Variable.readable_of_known hv).trim_text
  | @list v body hv =>
    refine Text.trim_eq_self (fun c hc => ?_) (fun c hc => ?_)
    · rw [List.head?_append, hat v hv] at hc
      rw [← Option.some.inj hc]
      decide
    · rw [← List.cons_append, ← List.append_assoc, List.getLast?_concat] at hc
      rw [← Option.some.inj hc]
      decide

theorem Bracketed.ne_nil (h : Bracketed t) : t ≠ [] := by
  have hne : ∀ v ∈ Variable.known, v.text ≠ [] := by
    decide
  cases h with
  | head hv => exact hne _ hv
  | list hv => simp

/-- Its parameter list is closed. -/
theorem Bracketed.closed_body (h : Bracketed t) :
    ∀ body ∈ body? (Text.trim t), Text.Closed Text.isClosing body := by
  rw [h.trim]
  cases h with
  | @head v hv =>
    have hcut : Text.cut '[' v.text = none :=
      Text.cut_eq_none_iff.2 (Variable.readable_of_known hv).bracket_notMem
    simp [body?, hcut]
  | @list v body hv hc ht =>
    have hs := (Nesting.tidy_outside.scan body).eq_outside ht
    have hbreak : Text.breakTop (· = ']') .outside (body ++ [']']) = (body, [']']) := by
      refine Text.breakTop_append_of_clear (hc.mono fun c hc => ?_) ht (by decide)
      rw [decide_eq_true_eq] at hc
      rw [hc]
      rfl
    intro body' hb
    simp only [body?, cut_list hv, Option.map_some, hbreak, Option.mem_def, Option.some.injEq] at hb
    exact hb ▸ ⟨hc, hs⟩

/-- Its variable is read, and if Java knows that, the text is a target. -/
theorem Bracketed.head_read (h : Bracketed t) : (read t).value.head ∈ Variable.known ∧
    ((read t).value.head.isBedrockOnly = false → Command.IsTarget t) := by
  have htrim := h.trim
  cases h with
  | @head v hv =>
    obtain ⟨hof, hb, ht⟩ := Variable.readable_of_known hv
    have hcut : Text.cut '[' v.text = none := Text.cut_eq_none_iff.2 hb
    have hhead : (read v.text).value.head = v := by
      simp [read, ht, hcut, hof]
    rw [hhead]
    exact ⟨hv, .head hv⟩
  | @list v body hv hc ht =>
    obtain ⟨hof, -, htv⟩ := Variable.readable_of_known hv
    have hhead : (read (v.text ++ '[' :: (body ++ [']']))).value.head = v := by
      simp only [read, htrim, cut_list hv, Noted.value_bind, Noted.value_pure, Option.map_some,
        Option.getD_some, htv, hof]
    rw [hhead]
    exact ⟨hv, fun hj => .brackets hv hj ⟨hc, (Nesting.tidy_outside.scan body).eq_outside ht⟩⟩

variable {asHull : Bool} {q : Char → Bool} {s : Selector}

/-- A selector with a known variable has one of Java's in Java's terms. -/
theorem head_adapt (asHull : Bool) (hv : s.head ∈ Variable.known) :
    (adapt .java asHull s).value.head ∈ Variable.known ∧
      (adapt .java asHull s).value.head.isBedrockOnly = false := by
  have hall : ∀ v ∈ [Variable.allPlayers, .randomPlayer], v ∈ Variable.known := by
    decide
  obtain ⟨hh, hj⟩ := head_inTerms .java (s.mergeDuplicates asHull)
  rw [head_adapt_eq]
  refine ⟨?_, hj rfl⟩
  rcases hh with hh | hh
  · rw [hh]
    exact hv
  · exact hall _ hh

/-- Converting a bracketed selector without items and scores. -/
theorem isTarget_adapt (h : Bracketed t)
    (hn : ∀ p ∈ (read t).value.parameters, p.name ≠ "hasitem" ∧ p.name ≠ "scores") :
    Command.IsTarget (adapt .java asHull (read t).value).value.text := by
  have hw := wellFormed_read (fun _ hc => hc) h.closed_body
  obtain ⟨hv, hj⟩ := head_adapt asHull h.head_read.1
  exact .selector_text hv hj
    (wellFormed_adapt asHull separates_isSeparator hw.parameters fun p hp => by
      simpa only [convertedNames, List.mem_cons, List.not_mem_nil, or_false, not_or] using hn p hp)

theorem java_convertMixed (s : Selector) (given : Text) :
    (convertMixed s given).value.java = (adapt .java true s).value.text := by
  simp only [convertMixed, Noted.value_bind, Noted.value_pure]

theorem isTarget_convert {settings : Settings} {target : Dialect} (h : Bracketed t)
    (hn : ∀ p ∈ (read t).value.parameters, p.name ≠ "hasitem" ∧ p.name ≠ "scores")
    (hj : target ≠ .java → (read t).value.head.isBedrockOnly = false) :
    Command.IsTarget (convert target settings t).value.java := by
  unfold convert
  rw [h.trim, Noted.value_bind]
  split_ifs
  · rw [java_convertMixed]
    exact isTarget_adapt h hn
  · cases target with
    | java =>
      simp only [Noted.value_bind, Noted.value_pure, filter_value]
      exact isTarget_adapt h hn
    | bedrock => exact h.head_read.2 (hj (by decide))
    | universal => exact h.head_read.2 (hj (by decide))

/-- Converting gives Java a target. -/
theorem isTarget_convertDetected (settings : Settings) (h : Bracketed t)
    (hn : ∀ p ∈ (read t).value.parameters, p.name ≠ "hasitem" ∧ p.name ≠ "scores") :
    Command.IsTarget (convertDetected settings t).value.java := by
  -- a variable that only Bedrock knows decides for Bedrock
  have hd : (detect t).value ≠ .bedrock → (read t).value.head.isBedrockOnly = false := by
    intro hne
    by_contra hb
    rw [Bool.not_eq_false] at hb
    refine hne ?_
    unfold detect
    rw [h.trim, Noted.value_bind, if_pos hb]
    rfl
  rw [convertDetected, Noted.value_bind]
  cases ht : (detect t).value with
  | java => exact isTarget_convert h hn fun _ => hd (by rw [ht]; decide)
  | bedrock => exact isTarget_convert h hn fun hne => absurd rfl hne
  | universal => exact isTarget_convert h hn fun _ => hd (by rw [ht]; decide)

end Selector

/-! ## Generated commands -/

namespace Command

/-- The command for Java is valid, for every message. The selector is a known variable,
    perhaps with a closed parameter list, and has no items and no scores, whose values are
    taken apart. -/
theorem validate_generate (settings : Settings) {t : Text} (h : Selector.Bracketed t)
    (hn : ∀ p ∈ (Selector.read t).value.parameters, p.name ≠ "hasitem" ∧ p.name ≠ "scores")
    (buffer : Text) : validate (generate settings t buffer).value.java = .ok () := by
  have ht := Selector.isTarget_convertDetected settings h hn
  obtain ⟨j, hj, hm⟩ := JavaMessage.encode_eq settings (Buffer.read buffer).value
  have hjava : (generate settings t buffer).value.java =
      tellraw (Selector.convertDetected settings t).value.java j.print := by
    simp only [generate, h.trim, if_neg h.ne_nil, Noted.value_bind, Noted.value_pure, hm]
  rw [hjava]
  exact ht.validate_tellraw hj

/-- A bracket and a blank between quotes do not end the selector. -/
theorem validate_generate_quoted_bracket :
    let body : Text := "r=10,name=\"a ]b\",type=!player"
    let t : Text := Variable.allEntities.text ++ '[' :: (body ++ [']'])
    Selector.Bracketed t ∧
      (∀ p ∈ (Selector.read t).value.parameters, p.name ≠ "hasitem" ∧ p.name ≠ "scores") ∧
      validate (generate .standard t "Hi §lthere").value.java = .ok () := by
  intro body t
  have ht : Selector.Bracketed t :=
    .list (by decide) (by decide +kernel) (by decide +kernel)
  have hn : ∀ p ∈ (Selector.read t).value.parameters, p.name ≠ "hasitem" ∧ p.name ≠ "scores" := by
    decide +kernel
  exact ⟨ht, hn, validate_generate .standard ht hn "Hi §lthere"⟩

end Command

end CrossEdition
