import CrossEdition.Proofs.Message.Sessions

/-!
# Where typed text lands

Positions count the visible characters of a message. A text typed at a position is found there
afterwards, and behind everything if the position lies behind everything. Only the arguments of a
component of the active kind take no text: it goes to the end of the content in front of them.

Results:
* `visible_spliceComponent`, `visibleText_spliceMessage`: where a component and a message take a
  text.
* `landing_eq_min_iff`: when that is the place asked for.
* `visible_apply`: the visible text of a buffer after typing.
-/

namespace CrossEdition

namespace Buffer

variable {t u new : Text} {c : Component} {cs before after : List Component}
  {active : ComponentKind} {position : Nat}

/-! ## Texts put into texts -/

theorem splice_append_left (h : position ≤ t.length) (u new : Text) :
    splice (t ++ u) position new = splice t position new ++ u := by
  rw [splice, splice, List.take_append_of_le_length h, List.drop_append_of_le_length h]
  simp only [List.append_assoc]

theorem splice_append_right (t u : Text) (position : Nat) (new : Text) :
    splice (t ++ u) (t.length + position) new = t ++ splice u position new := by
  rw [splice, splice, List.take_length_add_append, List.drop_length_add_append]
  simp only [List.append_assoc]

theorem splice_length (t new : Text) : splice t t.length new = t ++ new := by
  rw [splice, List.take_length, List.drop_length, List.append_nil]

/-! ## One component -/

/-- Arguments take a text at any position that lies in them. -/
theorem flatten_spliceArguments {arguments : List Text} (new : Text)
    (h : position < arguments.flatten.length) :
    ∃ spliced, spliceArguments new arguments position = some spliced ∧
      spliced.flatten = splice arguments.flatten position new := by
  induction arguments generalizing position with
  | nil => exact absurd h (Nat.not_lt_zero _)
  | cons a arguments ih =>
    rw [List.flatten_cons, List.length_append] at h
    rw [spliceArguments, List.flatten_cons]
    split_ifs with hp
    · refine ⟨_, rfl, ?_⟩
      rw [List.flatten_cons, splice_append_left hp.le]
    · obtain ⟨k, rfl⟩ := Nat.exists_eq_add_of_le (Nat.not_lt.1 hp)
      have hk : k < arguments.flatten.length := by omega
      obtain ⟨spliced, hsome, hflat⟩ := ih hk
      refine ⟨a :: spliced, ?_, ?_⟩
      · rw [Nat.add_sub_cancel_left, hsome]
        rfl
      · rw [List.flatten_cons, hflat, splice_append_right]

/-- Where a component takes a text: a component of the active kind takes it into its content. -/
def placeIn (active : ComponentKind) (c : Component) (position : Nat) : Nat :=
  if c.kind = active then min position c.content.length else position

theorem visible_spliceComponent (active : ComponentKind) (new : Text)
    (h : position < c.visible.length) :
    (spliceComponent active new c position).visible =
      splice c.visible (placeIn active c position) new := by
  rw [Component.visible, List.length_append] at h
  rw [spliceComponent, placeIn]
  by_cases hk : c.kind = active
  · rw [if_pos (.inl hk), if_pos hk]
    exact (splice_append_left (Nat.min_le_right ..) _ _).symm
  rw [if_neg hk]
  by_cases hp : position < c.content.length
  · rw [if_pos (.inr hp), Nat.min_eq_left hp.le]
    exact (splice_append_left hp.le _ _).symm
  · rw [if_neg (not_or.2 ⟨hk, hp⟩)]
    obtain ⟨k, rfl⟩ := Nat.exists_eq_add_of_le (Nat.not_lt.1 hp)
    have hrest : k < c.arguments.flatten.length := by omega
    obtain ⟨spliced, hsome, hflat⟩ := flatten_spliceArguments new hrest
    rw [Nat.add_sub_cancel_left, hsome]
    show c.content ++ spliced.flatten = splice (c.content ++ c.arguments.flatten) _ new
    rw [hflat, splice_append_right]

/-! ## Messages -/

/-- The visible text of a message. -/
def visibleText (cs : List Component) : Text :=
  cs.flatMap Component.visible

theorem visibleText_cons (c : Component) (cs : List Component) :
    visibleText (c :: cs) = c.visible ++ visibleText cs := rfl

theorem visibleText_append (cs ds : List Component) :
    visibleText (cs ++ ds) = visibleText cs ++ visibleText ds :=
  List.flatMap_append

/-- Where a message takes a text that is typed at a position. -/
def landing (active : ComponentKind) : List Component → Nat → Nat
  | [], _ => 0
  | c :: rest, position =>
    if position < c.visible.length then placeIn active c position
    else c.visible.length + landing active rest (position - c.visible.length)

/-- Behind everything a text goes to the end. -/
theorem landing_of_length_le (h : (visibleText cs).length ≤ position) :
    landing active cs position = (visibleText cs).length := by
  induction cs generalizing position with
  | nil => rfl
  | cons c cs ih =>
    rw [visibleText_cons, List.length_append] at h ⊢
    rw [landing, if_neg (by omega), ih (by omega)]

/-- Components in front of a position do not count. -/
theorem landing_append (before : List Component) (cs : List Component) (k : Nat) :
    landing active (before ++ cs) ((visibleText before).length + k) =
      (visibleText before).length + landing active cs k := by
  induction before with
  | nil =>
    show landing active cs (0 + k) = 0 + landing active cs k
    rw [Nat.zero_add, Nat.zero_add]
  | cons c before ih =>
    rw [visibleText_cons, List.length_append, List.cons_append, landing, if_neg (by omega),
      Nat.add_assoc, Nat.add_sub_cancel_left, ih, Nat.add_assoc]

theorem visibleText_spliceMessage (active : ComponentKind) (new : Text)
    (h : position < (visibleText cs).length) :
    ∃ ds, spliceMessage active new cs position = some ds ∧
      visibleText ds = splice (visibleText cs) (landing active cs position) new := by
  induction cs generalizing position with
  | nil => exact absurd h (Nat.not_lt_zero _)
  | cons c cs ih =>
    rw [visibleText_cons, List.length_append] at h
    rw [spliceMessage, landing, visibleText_cons]
    split_ifs with hp
    · refine ⟨_, rfl, ?_⟩
      have hle : placeIn active c position ≤ c.visible.length := by
        unfold placeIn
        split_ifs <;> omega
      rw [visibleText_cons, visible_spliceComponent active new hp, splice_append_left hle]
    · obtain ⟨k, rfl⟩ := Nat.exists_eq_add_of_le (Nat.not_lt.1 hp)
      rw [Nat.add_sub_cancel_left]
      have hk : k < (visibleText cs).length := by omega
      obtain ⟨ds, hsome, hvisible⟩ := ih hk
      refine ⟨c :: ds, by rw [hsome]; rfl, ?_⟩
      rw [visibleText_cons, hvisible, splice_append_right]

theorem spliceMessage_of_length_le (new : Text) (h : (visibleText cs).length ≤ position) :
    spliceMessage active new cs position = none := by
  induction cs generalizing position with
  | nil => rfl
  | cons c cs ih =>
    rw [visibleText_cons, List.length_append] at h
    rw [spliceMessage, if_neg (by omega), ih (by omega)]
    rfl

theorem visible_plain (kind : ComponentKind) (t : Text) : (Component.plain kind t).visible = t :=
  List.append_nil t

theorem visibleText_appendText (active : ComponentKind) (new : Text) (cs : List Component) :
    visibleText (appendText active new cs) = visibleText cs ++ new := by
  fun_induction appendText active new cs with
  | case1 => simp [visibleText, visible_plain]
  | case2 c h => simp [visibleText, Component.visible, h.2]
  | case3 c h => simp [visibleText, visible_plain]
  | case4 c rest _ ih => rw [visibleText_cons, ih, visibleText_cons, List.append_assoc]

/-- The visible text of a message after typing. -/
theorem visibleText_typed (active : ComponentKind) (new : Text) (cs : List Component)
    (position : Nat) :
    visibleText ((spliceMessage active new cs position).getD (appendText active new cs)) =
      splice (visibleText cs) (landing active cs position) new := by
  by_cases h : position < (visibleText cs).length
  · obtain ⟨ds, hsome, hvisible⟩ := visibleText_spliceMessage active new h
    rw [hsome, Option.getD_some, hvisible]
  · have hle := Nat.not_lt.1 h
    rw [spliceMessage_of_length_le new hle, Option.getD_none, visibleText_appendText,
      landing_of_length_le hle, splice_length]

/-! ## The place asked for -/

/-- Whether a position lies inside the arguments of a component of the active kind, and not in
    front of them. -/
def InArguments (active : ComponentKind) (cs : List Component) (position : Nat) : Prop :=
  ∃ before c after, cs = before ++ c :: after ∧ c.kind = active ∧
    (visibleText before).length + c.content.length < position ∧
    position < (visibleText before).length + c.visible.length

theorem InArguments.cons (h : InArguments active cs position) (c : Component) :
    InArguments active (c :: cs) (c.visible.length + position) := by
  obtain ⟨before, d, after, rfl, hk, hlo, hhi⟩ := h
  refine ⟨c :: before, d, after, rfl, hk, ?_, ?_⟩ <;>
    rw [visibleText_cons, List.length_append] <;> omega

theorem landing_of_not_inArguments (h : ¬InArguments active cs position) :
    landing active cs position = min position (visibleText cs).length := by
  induction cs generalizing position with
  | nil => exact (Nat.min_zero _).symm
  | cons c cs ih =>
    rw [landing, visibleText_cons, List.length_append]
    split_ifs with hp
    · unfold placeIn
      split_ifs with hk
      · have hcontent : ¬c.content.length < position := by
          intro hlt
          refine h ⟨[], c, cs, rfl, hk, ?_, ?_⟩
          · show 0 + c.content.length < position
            omega
          · show position < 0 + c.visible.length
            omega
        omega
      · omega
    · obtain ⟨k, rfl⟩ := Nat.exists_eq_add_of_le (Nat.not_lt.1 hp)
      rw [Nat.add_sub_cancel_left, ih fun hin => h (hin.cons c)]
      omega

/-- Inside the arguments of a component of the active kind a text goes in front of them. -/
theorem landing_of_inArguments (hk : c.kind = active)
    (hlo : (visibleText before).length + c.content.length < position)
    (hhi : position < (visibleText before).length + c.visible.length) :
    landing active (before ++ c :: after) position =
      (visibleText before).length + c.content.length := by
  obtain ⟨k, rfl⟩ := Nat.exists_eq_add_of_le (by omega : (visibleText before).length ≤ position)
  rw [landing_append, landing, if_pos (by omega), placeIn, if_pos hk, Nat.min_eq_right (by omega)]

/-- A text lands at the place asked for, or at the end, exactly outside the arguments of components
    of the active kind. -/
theorem landing_eq_min_iff :
    landing active cs position = min position (visibleText cs).length ↔
      ¬InArguments active cs position := by
  refine ⟨?_, landing_of_not_inArguments⟩
  rintro h ⟨before, c, after, rfl, hk, hlo, hhi⟩
  rw [landing_of_inArguments hk hlo hhi, visibleText_append, visibleText_cons, List.length_append,
    List.length_append] at h
  omega

/-! ## Buffers -/

theorem visible_of_read {buffer : Text} (h : Buffer.read buffer = pure cs) :
    visible buffer = pure (visibleText cs) := by
  rw [visible, h]
  rfl

/-- After typing into a buffer of plain text and components its visible text is the one in front
    with the new text in it, where it lands. That is the position asked for, or the end if it lies
    behind everything, exactly if the position is not inside the arguments of a component of the
    active kind. -/
theorem visible_apply {buffer : Text} {s : Step} (h : s.Valid) (hb : Regular buffer) :
    ∃ cs v typed, Buffer.read buffer = pure cs ∧ visible buffer = pure v ∧
      s.apply buffer = pure typed ∧
      visible typed = pure (splice v (landing s.kind cs s.position) s.text) ∧
      (landing s.kind cs s.position = min s.position v.length ↔
        ¬InArguments s.kind cs s.position) := by
  obtain ⟨cs, hread, hcs⟩ := hb.read
  have htyped := typed_getD s.kind s.text cs s.position
  obtain ⟨-, hback⟩ := regular_write (htyped.writable h.unmarked hcs)
  refine ⟨cs, visibleText cs, _, hread, visible_of_read hread, h.apply_eq hread, ?_,
    landing_eq_min_iff⟩
  rw [visible_of_read hback, visibleText_typed]

/-- A score typed between the characters of an argument is found between them. -/
theorem visible_apply_into_argument :
    let c : Component := ⟨.translate, "key", ["ab"]⟩
    let buffer : Text := ("Hi " : Text) ++ (componentText c ++ [])
    let s : Step := ⟨7, "x", .score⟩
    (visible (s.apply buffer).value).value = "Hi keyaxb" ∧
      ∃ cs v typed, Buffer.read buffer = pure cs ∧ visible buffer = pure v ∧
        s.apply buffer = pure typed ∧
        visible typed = pure (splice v (landing s.kind cs s.position) s.text) ∧
        (landing s.kind cs s.position = min s.position v.length ↔
          ¬InArguments s.kind cs s.position) := by
  intro c buffer s
  have hc : Writable c := ⟨by decide, by decide, by decide⟩
  have hb : Regular buffer := .plain (by decide) (.component hc .nil)
  have hs : s.Valid := ⟨by decide, by decide, by decide⟩
  exact ⟨by decide +kernel, visible_apply hs hb⟩

/-- A text of the kind that is typed there goes in front of the argument instead. -/
theorem visible_apply_translate_argument :
    ¬∀ (buffer : Text) (s : Step), s.Valid → Regular buffer →
      ∃ v typed, visible buffer = pure v ∧ s.apply buffer = pure typed ∧
        visible typed = pure (splice v (min s.position v.length) s.text) := by
  intro h
  let c : Component := ⟨.translate, "ab", ["cd"]⟩
  let s : Step := ⟨3, "X", .translate⟩
  have hc : Writable c := ⟨by decide, by decide, by decide⟩
  obtain ⟨v, typed, hv, htyped, hvisible⟩ := h (componentText c ++ []) s
    ⟨by decide, by decide, by decide⟩ (.component hc .nil)
  have hfront : (visible (componentText c ++ [])).value = "abcd" := by decide +kernel
  have hafter : (visible (s.apply (componentText c ++ [])).value).value = "abXcd" := by
    decide +kernel
  rw [hv] at hfront
  rw [htyped, Noted.value_pure, hvisible] at hafter
  obtain rfl : v = "abcd" := hfront
  exact absurd hafter (by decide)

end Buffer

end CrossEdition
