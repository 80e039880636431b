import CrossEdition.Chat.Part
import CrossEdition.Proofs.Chat.Entries

/-!
# Lists of selectors

A component lists selectors between commas, and behind each of them its separators. Such a list
gives its selectors back exactly if all its entries stay whole, and those without brackets between
quotes do.

Results:
* `staysWhole_of_hasPlainQuotes`: selectors without brackets between quotes stay whole.
* `items_listText`: the items of a list whose entries stay whole.
* `selectors_join_iff`: when a list gives its selectors and separators back.
-/

namespace CrossEdition

namespace Text

variable {c : Char} {t u : Text}

/-- Only blanks at the end are trimmed from a text that does not begin with one. -/
theorem exists_trim_cons (hc : isBlank c = false) (t : Text) :
    ∃ r b : Text, trim (c :: t) = c :: r ∧ (∀ d ∈ b, isBlank d = true) ∧ t = r ++ b := by
  have hstart : trimStart (c :: t) = c :: t := by simp [trimStart, hc]
  obtain ⟨b, hb, ht⟩ := trimEnd_append (c :: t)
  rw [trim, hstart]
  cases hend : trimEnd (c :: t) with
  | nil =>
    rw [hend, List.nil_append] at ht
    rw [hb c (ht ▸ List.mem_cons_self ..)] at hc
    exact Bool.noConfusion hc
  | cons d r =>
    rw [hend, List.cons_append, List.cons.injEq] at ht
    exact ⟨r, b, by rw [ht.1], hb, ht.2⟩

theorem trim_append_of_trimmed (ht : trim t = t) (hne : t ≠ []) (hu : trim u = u) :
    trim (t ++ u) = t ++ u := by
  refine trim_eq_self (fun c hc => head_trim t c ?_) fun c hc => ?_
  · rw [ht]
    rwa [List.head?_append_of_ne_nil _ hne] at hc
  · rcases eq_or_ne u [] with rfl | hne'
    · rw [List.append_nil] at hc
      exact last_trim t c (ht.symm ▸ hc)
    · rw [List.getLast?_append_of_ne_nil _ hne'] at hc
      exact last_trim u c (hu.symm ▸ hc)

theorem notMem_join {m : Char} (hm : m ≠ c) {es : List Text} (h : ∀ e ∈ es, m ∉ e) :
    m ∉ join [c] es := by
  induction es with
  | nil => exact List.not_mem_nil
  | cons e es ih =>
    obtain ⟨he, hes⟩ := List.forall_mem_cons.1 h
    rcases eq_or_ne es [] with rfl | hne
    · exact he
    · rw [join_cons_of_ne_nil c e hne, List.mem_append, List.mem_cons]
      simp [he, hm, ih hes]

/-- A text is broken at top level. -/
theorem isTop_of_breakTop {p : Char → Bool} {s : Nesting} (h : (breakTop p s t).2 ≠ []) :
    (s.scan (breakTop p s t).1).isTop = true := by
  induction t generalizing s with
  | nil => exact absurd rfl h
  | cons c t ih =>
    rw [breakTop] at h ⊢
    split_ifs at h ⊢ with hbreak
    · exact (Bool.and_eq_true_iff.1 hbreak).1
    · exact ih h

/-- A text that does not begin with a blank begins in no blanks either. -/
theorem eq_nil_of_blank_append {b : Text} (hb : ∀ d ∈ b, isBlank d = true)
    (hc : isBlank c = false) (h : b ++ t = c :: u) : b = [] := by
  cases b with
  | nil => rfl
  | cons d b =>
    rw [List.cons_append, List.cons.injEq] at h
    rw [← h.1, hb d (List.mem_cons_self ..)] at hc
    exact Bool.noConfusion hc

end Text

namespace Entry

open Nesting (isQuote)
open Text (Clear Closed isClosing)

variable {c : Char} {d : Nat} {e s t u : Text} {es ss : List Text}

/-! ## Selectors and separators -/

/-- The characters that lists and scans count. -/
def isReserved (c : Char) : Bool :=
  c = ',' || c = '\\' || c = '[' || c = '{' || c = ']' || c = '}'

/-- Whether a text can stand in a list as it is: without commas, brackets and backslashes, and
    without blanks around it. -/
structure IsWord (t : Text) : Prop where
  plain : ∀ c ∈ t, isReserved c = false
  trimmed : Text.trim t = t

/-- A selector as it stands in a list: a variable, perhaps with a parameter list up to the end of
    the text, and no backslash in it. -/
inductive IsSelector : Text → Prop
  | bare {name : Text} (hname : IsWord name) : IsSelector ('@' :: name)
  | listed {name body : Text} (hname : IsWord name) (hbody : '\\' ∉ body)
      (hends : Selector.body? ('@' :: (name ++ '[' :: (body ++ [']']))) = some body) :
      IsSelector ('@' :: (name ++ '[' :: (body ++ [']'])))

theorem IsSelector.of_eq {n b : Text} (hname : IsWord n) (hbody : '\\' ∉ b)
    (ht : t = '@' :: (n ++ '[' :: (b ++ [']']))) (hends : Selector.body? t = some b) :
    IsSelector t := by
  subst ht
  exact .listed hname hbody hends

theorem IsWord.notMem (h : IsWord t) : '\\' ∉ t :=
  fun hm => Bool.noConfusion (h.plain _ hm)

theorem IsWord.not_isMark (h : IsWord t) (hc : c ∈ t) :
    Nesting.isMark (letter c) = false ∧ letter c ≠ ',' := by
  have hplain := h.plain c hc
  unfold letter
  split_ifs with hq
  · decide
  · simp only [isReserved, Bool.or_eq_false_iff, decide_eq_false_iff_not, isQuote, Bool.or_eq_true,
      decide_eq_true_eq, not_or] at hplain hq
    simp only [Nesting.isMark, Bool.or_eq_false_iff, decide_eq_false_iff_not]
    tauto

/-- A word behind characters that do not count is closed. -/
theorem IsWord.closed_append (h : IsWord t) {p : Text}
    (hp : ∀ c ∈ p, Nesting.isMark (letter c) = false ∧ letter c ≠ ',') :
    Closed (· = ',') (unquoted (p ++ t)) := by
  refine Text.closed_of_forall (List.forall_mem_map.2 fun c hc => ?_)
  rcases List.mem_append.1 hc with hc | hc
  · simpa using hp c hc
  · simpa using h.not_isMark hc

theorem IsSelector.notMem (h : IsSelector t) : '\\' ∉ t := by
  cases h with
  | bare hname => simpa using hname.notMem
  | listed hname hbody _ => simpa using ⟨hname.notMem, hbody⟩

theorem IsSelector.exists_cons (h : IsSelector t) : ∃ rest, t = '@' :: rest := by
  cases h <;> exact ⟨_, rfl⟩

theorem IsSelector.trimmed (h : IsSelector t) : Text.trim t = t := by
  cases h with
  | @bare name hname =>
    exact Text.trim_append_of_trimmed (t := ['@']) rfl (List.cons_ne_nil _ _) hname.trimmed
  | @listed name body _ _ _ =>
    have h := Text.trim_between (a := '@') (b := ']') rfl rfl (name ++ '[' :: body)
    rwa [List.append_assoc, List.cons_append] at h

/-- An entry that begins like a selector is one. -/
theorem item?_at (rest : Text) :
    item? ('@' :: rest) = some (.selector (Text.trim ('@' :: rest))) := by
  obtain ⟨r, b, h, -, -⟩ := Text.exists_trim_cons (c := '@') rfl rest
  rw [item?, h]
  rfl

/-- The entry of a separator. -/
def separatorEntry (s : Text) : Text :=
  "sep:" ++ s

/-- What a separator means. A missing one is a comma. -/
def separatorMeant (s : Text) : Text :=
  if s = [] then "," else s

theorem item?_separatorEntry (h : IsWord s) :
    item? (separatorEntry s) = some (.separator (separatorMeant s)) := by
  have htrim : Text.trim (separatorEntry s) = separatorEntry s :=
    Text.trim_append_of_trimmed rfl (List.cons_ne_nil _ _) h.trimmed
  have hafter : Text.after? "sep:" (separatorEntry s) = some s := by
    simp [Text.after?, separatorEntry]
  rw [item?, htrim, hafter, separatorMeant]
  cases s <;> rfl

theorem closed_separatorEntry (h : IsWord s) :
    Closed (· = ',') (unquoted (separatorEntry s)) :=
  h.closed_append (p := "sep:") (by decide)

theorem staysWhole_words_append (h : ∀ s ∈ ss, IsWord s) :
    StaysWhole (ss.map separatorEntry ++ es) ↔ StaysWhole es := by
  induction ss with
  | nil => rfl
  | cons s ss ih =>
    rw [List.forall_mem_cons] at h
    have hs := closed_separatorEntry h.1
    rw [List.map_cons, List.cons_append, staysWhole_cons, ih h.2]
    simp only [hs.1, hs.2, implies_true, true_and]

theorem notMem_separatorEntry (h : IsWord s) : '\\' ∉ separatorEntry s := by
  rw [separatorEntry, List.mem_append, not_or]
  exact ⟨by decide, h.notMem⟩

/-- Separators are found again, and what stands behind them is not changed. -/
theorem items_join_words (h : ∀ s ∈ ss, IsWord s) (es : List Text) :
    items (Text.join [','] (ss.map separatorEntry ++ es)) =
      (ss.map separatorMeant).map .separator ++ items (Text.join [','] es) := by
  induction ss with
  | nil => rfl
  | cons s ss ih =>
    rw [List.forall_mem_cons] at h
    have hs := closed_separatorEntry h.1
    rw [List.map_cons, List.cons_append,
      items_join_cons (notMem_separatorEntry h.1) hs.1 fun _ => hs.2, ih h.2,
      item?_separatorEntry h.1]
    rfl

/-! ## Selectors without brackets between quotes -/

/-- Whether a character is a bracket or a brace. -/
def isBracket (c : Char) : Bool :=
  c = '[' || c = '{' || c = ']' || c = '}'

theorem deepen_of_not_isBracket (hc : isBracket c = false) (d : Nat) : deepen d c = d := by
  simp only [isBracket, Bool.or_eq_false_iff, decide_eq_false_iff_not] at hc
  simp [deepen, hc]

theorem isBracket_of_isQuote (h : isQuote c = true) : isBracket c = false := by
  simp only [isQuote, Bool.or_eq_true, decide_eq_true_eq] at h
  rcases h with rfl | rfl <;> rfl

theorem isBracket_of_isClosing (h : isClosing c = true) : isBracket c = true := by
  simp only [isClosing, Bool.or_eq_true, decide_eq_true_eq] at h
  rcases h with rfl | rfl <;> rfl

/-- What stands between quotes, and the quotes themselves, are no brackets. -/
theorem not_isBracket_of_quote {n : Nesting} (hn : n.Tidy) (hq : n.quote ≠ none)
    (hc : n.within c = true → isBracket c = false) : isBracket c = false := by
  cases hw : n.within c with
  | true => exact hc hw
  | false =>
    have hopen : n.quote.isSome = true := Option.isSome_iff_ne_none.2 hq
    exact isBracket_of_isQuote (Nesting.isQuote_of_closes hn hw hopen)

/-- The depth of a scan does not depend on quotes without brackets between them. -/
theorem depth_step {n : Nesting} (hn : n.Tidy) (hc : n.within c = true → isBracket c = false) :
    (n.step c).depth = deepen n.depth c := by
  cases hq : n.quote with
  | none =>
    by_cases hquote : isQuote c = true
    · rw [deepen_of_not_isBracket (isBracket_of_isQuote hquote)]
      simp only [isQuote, Bool.or_eq_true, decide_eq_true_eq] at hquote
      simp [Nesting.step, hq, hquote]
    · simp only [isQuote, Bool.or_eq_true, decide_eq_true_eq] at hquote
      simp only [Nesting.step, hq, if_neg hquote, deepen]
      split_ifs <;> rfl
  | some q =>
    rw [deepen_of_not_isBracket (not_isBracket_of_quote hn (by simp [hq]) hc)]
    simp only [Nesting.step, hq]
    split_ifs <;> rfl

/-- A bracket that closes another one still does if quotes are letters. -/
theorem isTop_letter {n : Nesting} (hn : n.Tidy) (hc : n.within c = true → isBracket c = false)
    (h : (n.isTop && isClosing c) = false) :
    ((inside n.depth).isTop && isClosing (letter c)) = false := by
  have hletter : isClosing (letter c) = isClosing c := by
    simp only [isClosing, letter_eq_iff (c := c) (m := ']') rfl (by decide),
      letter_eq_iff (c := c) (m := '}') rfl (by decide)]
  rw [hletter]
  cases hq : n.quote with
  | none =>
    have htop : (inside n.depth).isTop = n.isTop := by
      rw [Nesting.isTop, Nesting.isTop, hq]
      rfl
    rw [htop]
    exact h
  | some q =>
    have hbracket := not_isBracket_of_quote hn (by simp [hq]) hc
    have hclosing : isClosing c = false := by
      rw [Bool.eq_false_iff]
      exact fun hcl => Bool.eq_false_iff.1 hbracket (isBracket_of_isClosing hcl)
    rw [hclosing, Bool.and_false]

/-- A text without brackets between quotes closes no other brackets if quotes are letters. -/
theorem clear_unquoted {n : Nesting} (hn : n.Tidy)
    (hq : ∀ c ∈ Text.quoted n t, isBracket c = false) (h : Clear isClosing n t) :
    Clear isClosing (inside n.depth) (unquoted t) ∧
      (inside n.depth).scan (unquoted t) = inside (n.scan t).depth := by
  induction t generalizing n with
  | nil => exact ⟨trivial, rfl⟩
  | cons c t ih =>
    have hc : n.within c = true → isBracket c = false := fun hw =>
      hq c (by rw [(Text.sift_cons hw t).2]; exact List.mem_cons_self ..)
    have hrest : ∀ d ∈ Text.quoted (n.step c) t, isBracket d = false := by
      intro d hd
      refine hq d ?_
      rw [Text.quoted, Text.sift]
      split_ifs
      · exact List.mem_cons_of_mem _ hd
      · exact hd
    obtain ⟨hclear, hscan⟩ := ih (hn.step c) hrest h.2
    rw [depth_step hn hc] at hclear hscan
    rw [unquoted, List.map_cons, Text.clear_cons, Nesting.scan_cons, step_letter, ← unquoted]
    exact ⟨⟨isTop_letter hn hc h.1, hclear⟩, hscan⟩

/-- The inside of a bracket that the end of a text closes is closed, but for braces. -/
theorem closed_of_body {name body : Text} (hname : IsWord name)
    (hends : Selector.body? ('@' :: (name ++ '[' :: (body ++ [']']))) = some body)
    (hbrace : Clear (· = '}') .outside body) : Closed isClosing body := by
  have hcut : Text.cut '[' ('@' :: (name ++ '[' :: (body ++ [']']))) =
      some ('@' :: name, body ++ [']']) := by
    refine Text.cut_eq_some_iff.2 ⟨by simp, ?_⟩
    rw [List.mem_cons, not_or]
    exact ⟨by decide, fun hm => Bool.noConfusion (hname.plain _ hm)⟩
  have hends : (Text.breakTop (· = ']') .outside (body ++ [']'])).1 = body := by
    rw [Selector.body?, hcut] at hends
    exact Option.some.inj hends
  have hclear := Text.clear_breakTop (· = ']') .outside (body ++ [']'])
  have htop := Text.isTop_of_breakTop (p := (· = ']')) (s := .outside) (t := body ++ [']'])
  have happend := Text.breakTop_append (· = ']') .outside (body ++ [']'])
  rw [hends] at hclear htop happend
  rw [List.append_cancel_left_eq] at happend
  refine ⟨Text.clear_or.2 ⟨hclear, hbrace⟩, ?_⟩
  exact (Nesting.tidy_outside.scan body).eq_outside (htop (by simp [happend]))

/-- Whether no bracket stands between quotes in a selector, and it closes no brace that it does not
    open. -/
def HasPlainQuotes (t : Text) : Prop :=
  ∀ body ∈ Selector.body? t, Clear (· = '}') .outside body ∧
    ∀ c ∈ Text.quoted .outside body, isBracket c = false

/-- Such a selector closes its brackets also when quotes are letters. -/
theorem IsSelector.closed_unquoted (h : IsSelector t) (hb : HasPlainQuotes t) :
    Closed (· = ',') (unquoted t) := by
  cases h with
  | @bare name hname => exact hname.closed_append (p := ['@']) (by decide)
  | @listed name body hname _ hends =>
    obtain ⟨hbrace, hquoted⟩ := hb body hends
    have hclosed := closed_of_body hname hends hbrace
    obtain ⟨hclear, hscan⟩ := clear_unquoted Nesting.tidy_outside hquoted hclosed.1
    rw [hclosed.2] at hscan
    have hfront : Closed (· = ',') (unquoted ('@' :: name)) :=
      hname.closed_append (p := ['@']) (by decide)
    have hbody : Closed (· = ',') ('[' :: (unquoted body ++ [']'])) :=
      Text.closed_enclosed (.inl rfl) rfl ⟨hclear, hscan⟩ rfl
    have hsplit : unquoted ('@' :: (name ++ '[' :: (body ++ [']']))) =
        unquoted ('@' :: name) ++ '[' :: (unquoted body ++ [']']) := by
      simp [unquoted, letter, isQuote]
    rw [hsplit]
    exact hfront.append hbody

/-! ## Lists -/

/-- A selector and the separators behind it. -/
abbrev Listed : Type :=
  Text × List Text

/-- The entries that a selector and its separators are written as. -/
def Listed.entries (l : Listed) : List Text :=
  l.1 :: l.2.map separatorEntry

/-- The items that a selector and its separators are. -/
def Listed.items (l : Listed) : List Item :=
  .selector l.1 :: (l.2.map separatorMeant).map .separator

/-- The text of a list of selectors. -/
def listText (ls : List Listed) : Text :=
  Text.join [','] (ls.flatMap Listed.entries)

/-- Whether selectors and separators can stand in a list. -/
def Listed.WellFormed (l : Listed) : Prop :=
  IsSelector l.1 ∧ ∀ s ∈ l.2, IsWord s

variable {ls : List Listed}

/-- Selectors without brackets between quotes stay whole. -/
theorem staysWhole_of_hasPlainQuotes (h : ∀ l ∈ ls, l.WellFormed)
    (hq : ∀ l ∈ ls, HasPlainQuotes l.1) : StaysWhole (ls.flatMap Listed.entries) := by
  have hclosed : ∀ e ∈ ls.flatMap Listed.entries, Closed (· = ',') (unquoted e) := by
    intro e he
    obtain ⟨l, hl, he⟩ := List.mem_flatMap.1 he
    rcases List.mem_cons.1 he with rfl | he
    · exact (h l hl).1.closed_unquoted (hq l hl)
    · obtain ⟨s, hs, rfl⟩ := List.mem_map.1 he
      exact closed_separatorEntry ((h l hl).2 s hs)
  exact ⟨fun e he => (hclosed e he).1, fun e he => (hclosed e (List.dropLast_subset _ he)).2⟩

/-- The items of a list whose entries stay whole. -/
theorem items_listText (h : ∀ l ∈ ls, l.WellFormed) (hw : StaysWhole (ls.flatMap Listed.entries)) :
    items (listText ls) = ls.flatMap Listed.items := by
  induction ls with
  | nil => rfl
  | cons l ls ih =>
    obtain ⟨t, ss⟩ := l
    obtain ⟨⟨ht, hss⟩, hls⟩ := List.forall_mem_cons.1 h
    rw [List.flatMap_cons, Listed.entries, List.cons_append, staysWhole_cons,
      staysWhole_words_append hss] at hw
    obtain ⟨rest, rfl⟩ := ht.exists_cons
    rw [listText, List.flatMap_cons, Listed.entries, List.cons_append,
      items_join_cons ht.notMem hw.1 hw.2.1, items_join_words hss, ← listText, ih hls hw.2.2,
      item?_at, ht.trimmed]
    rfl

theorem notMem_listText (h : ∀ l ∈ ls, l.WellFormed) : '\\' ∉ listText ls := by
  refine Text.notMem_join (by decide) fun e he => ?_
  obtain ⟨l, hl, he⟩ := List.mem_flatMap.1 he
  rcases List.mem_cons.1 he with rfl | he
  · exact (h l hl).1.notMem
  · obtain ⟨s, hs, rfl⟩ := List.mem_map.1 he
    exact notMem_separatorEntry ((h l hl).2 s hs)

/-- The first item of a list that begins like a selector is its first entry, as far as it goes. -/
theorem exists_head_items {rest : Text} (h : '\\' ∉ '@' :: rest) : ∃ p v, rest = p ++ v ∧
    Clear (· = ',') .outside (unquoted ('@' :: p)) ∧
    (v ≠ [] → Nesting.outside.scan (unquoted ('@' :: p)) = .outside) ∧
    (items ('@' :: rest)).head? = some (.selector (Text.trim ('@' :: p))) := by
  rcases clear_or_exists_comma 0 ('@' :: rest) with hclear | ⟨p, u, ht, hclear, hscan⟩
  · refine ⟨rest, [], (List.append_nil _).symm, hclear, absurd rfl, ?_⟩
    rw [items_eq, split, splitFrom_of_clear h hclear, List.filterMap_cons, item?_at]
    rfl
  · cases p with
    | nil =>
      rw [List.nil_append, List.cons.injEq] at ht
      exact absurd ht.1 (by decide)
    | cons c p =>
      rw [List.cons_append, List.cons.injEq] at ht
      obtain ⟨rfl, rfl⟩ := ht
      refine ⟨p, ',' :: u, rfl, hclear, fun _ => hscan, ?_⟩
      rw [← List.cons_append] at h ⊢
      have hp : '\\' ∉ '@' :: p := fun hm => h (List.mem_append_left _ hm)
      rw [items_eq, split, splitFrom_append hp hclear hscan,
        List.filterMap_cons, item?_at]
      rfl

/-- What follows a selector in a list begins with a comma. -/
theorem exists_join_cons (r : Text) (es : List Text) : ∃ w,
    Text.join [','] (('@' :: r) :: es) = '@' :: (r ++ w) ∧
      (w = [] ∧ es = [] ∨ ∃ u, w = ',' :: u) := by
  rcases eq_or_ne es [] with rfl | hne
  · exact ⟨[], by rw [List.append_nil]; rfl, .inl ⟨rfl, rfl⟩⟩
  · exact ⟨_, Text.join_cons_of_ne_nil ',' _ hne, .inr ⟨_, rfl⟩⟩

/-- A selector that is the first item of a list stays whole in it. -/
theorem whole_of_head_items {r : Text} (h : '\\' ∉ Text.join [','] (('@' :: r) :: es))
    (hhead : ∀ x, (items (Text.join [','] (('@' :: r) :: es))).head? = some (.selector x) →
      x = '@' :: r) :
    Clear (· = ',') .outside (unquoted ('@' :: r)) ∧
      (es ≠ [] → Nesting.outside.scan (unquoted ('@' :: r)) = .outside) := by
  obtain ⟨w, hw, hne⟩ := exists_join_cons r es
  rw [hw] at h hhead
  obtain ⟨p, v, hpv, hclear, hscan, hitem⟩ := exists_head_items h
  obtain ⟨r', b, htrim, hb, hp⟩ := Text.exists_trim_cons (c := '@') rfl p
  obtain rfl : r' = r := by simpa [htrim] using hhead _ hitem
  subst hp
  rw [List.append_assoc, List.append_cancel_left_eq] at hpv
  obtain rfl : b = [] := by
    rcases hne with ⟨rfl, -⟩ | ⟨u, rfl⟩
    · exact (List.append_eq_nil_iff.1 hpv.symm).1
    · exact Text.eq_nil_of_blank_append hb (by decide) hpv.symm
  rw [List.append_nil] at hclear hscan
  refine ⟨hclear, fun hes => hscan ?_⟩
  rw [List.nil_append] at hpv
  rcases hne with ⟨-, rfl⟩ | ⟨u, rfl⟩
  · exact absurd rfl hes
  · exact hpv ▸ List.cons_ne_nil _ _

end Entry

namespace Part

open Entry

variable {items : List Item} {ls : List Listed}

/-- What selectors and their separators mean: each selector has the last of its separators. -/
def meant (ls : List Listed) : List (Text × Option Text) :=
  ls.map fun l => (l.1, l.2.getLast?.map separatorMeant)

theorem selectors_separators_append (ss : List Text) (items : List Item) :
    selectors (ss.map .separator ++ items) = selectors items := by
  induction ss with
  | nil => rfl
  | cons s ss ih => exact ih

/-- The last separator in front of a selector counts. -/
theorem separatorOf_append (ss : List Text) (h : separatorOf items = none) :
    separatorOf (ss.map .separator ++ items) = ss.getLast? := by
  induction ss with
  | nil => exact h
  | cons s ss ih =>
    rw [List.map_cons, List.cons_append, separatorOf, ih, List.getLast?_cons]

theorem separatorOf_flatMap_items (ls : List Listed) :
    separatorOf (ls.flatMap Listed.items) = none := by
  cases ls <;> rfl

theorem selectors_flatMap_items (ls : List Listed) :
    selectors (ls.flatMap Listed.items) = meant ls := by
  induction ls with
  | nil => rfl
  | cons l ls ih =>
    rw [List.flatMap_cons, Listed.items, List.cons_append, selectors,
      separatorOf_append _ (separatorOf_flatMap_items ls), selectors_separators_append, ih,
      List.getLast?_map]
    rfl

theorem any_isSeparator_flatMap_items (ls : List Listed) :
    (ls.flatMap Listed.items).any isSeparator = ls.any (·.2 ≠ []) := by
  induction ls with
  | nil => rfl
  | cons l ls ih =>
    obtain ⟨t, ss⟩ := l
    rw [List.flatMap_cons, List.any_append, ih, List.any_cons]
    cases ss <;> rfl

theorem head_of_selectors {x t : Text} {o : Option Text} {rest : List (Text × Option Text)}
    (hhead : items.head? = some (.selector x)) (h : selectors items = (t, o) :: rest) : x = t := by
  cases items with
  | nil => simp at hhead
  | cons i items =>
    rw [List.head?_cons, Option.some.injEq] at hhead
    rw [hhead, selectors, List.cons.injEq, Prod.mk.injEq] at h
    exact h.1.1

/-- A list that gives its selectors back has them in one piece. -/
theorem staysWhole_of_selectors (h : ∀ l ∈ ls, l.WellFormed)
    (heq : selectors (Entry.items (listText ls)) = meant ls) :
    StaysWhole (ls.flatMap Listed.entries) := by
  induction ls with
  | nil => exact ⟨List.forall_mem_nil _, List.forall_mem_nil _⟩
  | cons l ls ih =>
    obtain ⟨t, ss⟩ := l
    obtain ⟨⟨ht, hss⟩, hls⟩ := List.forall_mem_cons.1 h
    rw [listText, List.flatMap_cons, Listed.entries, List.cons_append] at heq
    rw [List.flatMap_cons, Listed.entries, List.cons_append, staysWhole_cons,
      staysWhole_words_append hss]
    have hbackslash := notMem_listText h
    rw [listText, List.flatMap_cons, Listed.entries, List.cons_append] at hbackslash
    obtain ⟨r, rfl⟩ := ht.exists_cons
    have hwhole := whole_of_head_items hbackslash fun _ hx => head_of_selectors hx heq
    rw [items_join_cons ht.notMem hwhole.1 hwhole.2, items_join_words hss, item?_at,
      ht.trimmed] at heq
    have hrest : selectors (Entry.items (listText ls)) = meant ls := by
      rw [← selectors_separators_append (ss.map separatorMeant)]
      exact (List.cons.inj heq).2
    exact ⟨hwhole.1, hwhole.2, ih hls hrest⟩

/-- A list of selectors and separators is read back as it is meant exactly if all its entries stay
    whole, as they do if no selector has brackets between quotes. -/
theorem selectors_join_iff (ls : List Listed) (h : ∀ l ∈ ls, l.WellFormed) :
    ((selectors (Entry.items (listText ls)) = meant ls ∧
        (Entry.items (listText ls)).any isSeparator = ls.any (·.2 ≠ [])) ↔
      StaysWhole (ls.flatMap Listed.entries)) ∧
    ((∀ l ∈ ls, HasPlainQuotes l.1) → StaysWhole (ls.flatMap Listed.entries)) := by
  refine ⟨⟨?_, fun hw => ?_⟩, staysWhole_of_hasPlainQuotes h⟩
  · rintro ⟨heq, -⟩
    exact staysWhole_of_selectors h heq
  · rw [items_listText h hw]
    exact ⟨selectors_flatMap_items ls, any_isSeparator_flatMap_items ls⟩

/-- A comma between quotes splits no selector. -/
theorem selectors_join_quoted_comma :
    (∀ l ∈ ([("@a[name=\"x,y\",tag=z]", ["|", ""]), ("@p", [])] : List Listed), l.WellFormed) ∧
    selectors (Entry.items (listText [("@a[name=\"x,y\",tag=z]", ["|", ""]), ("@p", [])])) =
      ([("@a[name=\"x,y\",tag=z]", some ","), ("@p", none)] : List (Text × Option Text)) := by
  have h : ∀ l ∈ ([("@a[name=\"x,y\",tag=z]", ["|", ""]), ("@p", [])] : List Listed),
      l.WellFormed := by
    refine List.forall_mem_cons.2 ⟨⟨?_, ?_⟩,
      List.forall_mem_singleton.2 ⟨.bare ⟨by decide, by decide⟩, List.forall_mem_nil _⟩⟩
    · exact .of_eq (n := "a") (b := "name=\"x,y\",tag=z") ⟨by decide, by decide⟩ (by decide)
        (by decide) (by decide)
    · exact List.forall_mem_cons.2 ⟨⟨by decide, by decide⟩,
        List.forall_mem_singleton.2 ⟨by decide, by decide⟩⟩
  obtain ⟨hiff, -⟩ := selectors_join_iff _ h
  exact ⟨h, (hiff.2 ⟨by decide, by decide⟩).1⟩

/-- A bracket between quotes that closes none splits its selector. -/
theorem selectors_join_ne :
    (∀ l ∈ ([("@a[name=\"]\",tag=x]", []), ("@p", [])] : List Listed), l.WellFormed) ∧
    selectors (Entry.items (listText [("@a[name=\"]\",tag=x]", []), ("@p", [])])) ≠
      meant [("@a[name=\"]\",tag=x]", []), ("@p", [])] := by
  refine ⟨List.forall_mem_cons.2 ⟨⟨?_, List.forall_mem_nil _⟩,
    List.forall_mem_singleton.2 ⟨.bare ⟨by decide, by decide⟩, List.forall_mem_nil _⟩⟩, by decide⟩
  exact .of_eq (n := "a") (b := "name=\"]\",tag=x") ⟨by decide, by decide⟩ (by decide)
    (by decide) (by decide)

end Part

end CrossEdition
