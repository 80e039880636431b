import CrossEdition.Proofs.Chat.JavaMessage
import CrossEdition.Proofs.Chat.Rendering

/-!
# What a message for Java shows

The parts of a message are put into one tree, in which a part could lend its style to those
behind it. It does not: read back and shown, the message is its parts one after the other,
the texts in the styles of their runs and all other parts in their own.

Results:
* `forall₂_components`: the components of a part show its pieces.
* `seen_assemble`: putting components together changes neither their order nor their styles.
* `render_encode`: what the text of a message shows.
-/

namespace CrossEdition

/-! ## Pieces of parts -/

/-- The pieces that a part shows in Java. -/
def Part.nodes (mode : MnMode) : Part → List ChatNode
  | .text t => (Formatting.runs mode t).map .ofRun
  | .translate key arguments =>
    let runs := Formatting.runs mode key
    [⟨.translate (Formatting.runText runs) (arguments.map (JavaMessage.argument mode)),
      (runs.head?.map (·.style)).getD .plain⟩]
  | .score name objective => [⟨.score name objective, .plain⟩]
  | .selector conversion separator => [⟨.selector conversion.java separator, .plain⟩]

namespace JavaMessage

variable {key : Text} {j : Json} {js : List Json} {ns : List ChatNode}

/-! ## Styles -/

theorem lookup_flag (key : Text) (on : Bool) :
    (if on then [(key, Json.bool true)] else []).lookup key =
      if on then some (.bool true) else none := by
  cases on <;> simp

theorem lookup_flag_of_ne {other : Text} (h : other ≠ key) (on : Bool) :
    (if on then [(other, Json.bool true)] else []).lookup key = none := by
  cases on <;> simp [Text.lookup_cons, h]

theorem lookup_toList {α : Type} (key : Text) (f : α → Json) (a : Option α) :
    (a.map fun a => (key, f a)).toList.lookup key = a.map f := by
  cases a <;> simp

theorem lookup_toList_of_ne {α : Type} {other : Text} (h : other ≠ key) (f : α → Json)
    (a : Option α) : (a.map fun a => (other, f a)).toList.lookup key = none := by
  cases a <;> simp [Text.lookup_cons, h]

theorem get?_color (s : Style) :
    (Json.object (styleEntries s)).get? "color" = s.color.map fun c => .string c.name := by
  simp (disch := decide) only [Json.get?, styleEntries, List.lookup_append, lookup_flag_of_ne,
    lookup_toList, Option.or_none]

/-- The flags that are on have an entry. -/
theorem get?_flags (s : Style) :
    (Json.object (styleEntries s)).get? "bold" = (if s.bold then some (.bool true) else none) ∧
    (Json.object (styleEntries s)).get? "italic" =
      (if s.italic then some (.bool true) else none) ∧
    (Json.object (styleEntries s)).get? "underlined" =
      (if s.underlined then some (.bool true) else none) ∧
    (Json.object (styleEntries s)).get? "strikethrough" =
      (if s.strikethrough then some (.bool true) else none) ∧
    (Json.object (styleEntries s)).get? "obfuscated" =
      (if s.obfuscated then some (.bool true) else none) := by
  simp (disch := decide) only [Json.get?, styleEntries, List.lookup_append, lookup_flag,
    lookup_flag_of_ne, lookup_toList_of_ne, Option.or_none, Option.none_or, and_self]

/-- The keys that give no style have no entry. -/
theorem get?_of_notMem_styleKeys (h : key ∉ styleKeys) (s : Style) :
    (Json.object (styleEntries s)).get? key = none := by
  simp only [styleKeys, List.mem_cons, List.not_mem_nil, or_false, not_or] at h
  obtain ⟨hcolor, hbold, hitalic, hunderlined, hstrikethrough, hobfuscated⟩ := h
  simp only [Json.get?, styleEntries, List.lookup_append, lookup_toList_of_ne (Ne.symm hcolor),
    lookup_flag_of_ne (Ne.symm hbold), lookup_flag_of_ne (Ne.symm hitalic),
    lookup_flag_of_ne (Ne.symm hunderlined), lookup_flag_of_ne (Ne.symm hstrikethrough),
    lookup_flag_of_ne (Ne.symm hobfuscated), Option.or_none]

/-- A flag whose entry is there exactly if it is on. -/
theorem chatFlag_of_get? {on : Bool} (h : j.get? key = if on then some (.bool true) else none) :
    Json.chatFlag false j key = on := by
  rw [Json.chatFlag, h]
  cases on <;> rfl

theorem color_styleEntries (s : Style) :
    (((Json.object (styleEntries s)).text? "color").bind Color.ofName?).or none = s.color := by
  rw [Json.text?, get?_color]
  cases s.color with
  | none => rfl
  | some c => exact congrArg (Option.or · none) (Color.ofName?_name c)

/-- The entries for a style give this style. -/
theorem chatStyle_styleEntries (s : Style) :
    Json.chatStyle .plain (.object (styleEntries s)) = s := by
  obtain ⟨hbold, hitalic, hunderlined, hstrikethrough, hobfuscated⟩ := get?_flags s
  simp only [Json.chatStyle, Style.plain, color_styleEntries, chatFlag_of_get? hbold,
    chatFlag_of_get? hitalic, chatFlag_of_get? hunderlined, chatFlag_of_get? hstrikethrough,
    chatFlag_of_get? hobfuscated]

/-- A component without a style of its own is shown in that of its parent. -/
theorem chatStyle_of_hasStyle (inherited : Style) (h : hasStyle j = false) :
    Json.chatStyle inherited j = inherited := by
  simp only [hasStyle, List.any_eq_false, Option.not_isSome_iff_eq_none] at h
  exact Json.chatStyle_congr (k := .object []) inherited h

/-! ## Components of parts -/

/-- A content and the style of its component stand under different keys. -/
theorem notMem_styleKeys_of_mem : ∀ key ∈ Json.contentKeys, key ∉ styleKeys := by
  decide

/-- A content is found in front of the entries for a style. -/
theorem get?_append_styleEntries (h : key ∉ styleKeys) (front : List (Text × Json)) (s : Style) :
    (Json.object (front ++ styleEntries s)).get? key = (Json.object front).get? key := by
  have happend : (Json.object (front ++ styleEntries s)).get? key =
      ((Json.object front).get? key).or ((Json.object (styleEntries s)).get? key) :=
    List.lookup_append
  rw [happend, get?_of_notMem_styleKeys h, Option.or_none]

/-- A key that is that of no content is not found among contents. -/
theorem get?_of_notMem_contentKeys {front : List (Text × Json)}
    (hfront : ∀ e ∈ front, e.1 ∈ Json.contentKeys) (hkey : key ∉ Json.contentKeys) :
    (Json.object front).get? key = none := by
  refine List.lookup_eq_none_iff.2 fun e he => ?_
  exact bne_iff_ne.2 (ne_of_mem_of_not_mem (hfront e he) hkey).symm

/-- A component of the entries for a content and those for a style. -/
theorem isLeaf_append_styleEntries (front : List (Text × Json)) {c : ChatContent}
    (hc : (Json.object front).chatContent? = some c)
    (hfront : ∀ e ∈ front, e.1 ∈ Json.contentKeys) (s : Style) :
    (Json.object (front ++ styleEntries s)).IsLeaf ⟨c, s⟩ := by
  refine ⟨⟨_, rfl⟩, ?_, ?_, ?_⟩
  · exact (Json.chatContent?_congr fun key hkey =>
      get?_append_styleEntries (notMem_styleKeys_of_mem key hkey) front s).trans hc
  · refine (Json.chatStyle_congr .plain fun key hkey => ?_).trans (chatStyle_styleEntries s)
    have hkey : key ∉ Json.contentKeys := fun h => notMem_styleKeys_of_mem key h hkey
    have hfront := get?_of_notMem_contentKeys hfront hkey
    rw [Json.get?, List.lookup_append, show front.lookup key = none from hfront, Option.none_or]
    rfl
  · rw [get?_append_styleEntries (by decide)]
    exact get?_of_notMem_contentKeys hfront (by decide)

theorem isLeaf_runObject (r : Formatting.Run) : (runObject r).IsLeaf (.ofRun r) :=
  isLeaf_append_styleEntries [("text", .string r.text)] rfl
    (by simp [Json.contentKeys]) r.style

theorem isLeaf_translateObject (mode : MnMode) (key : Text) (arguments : List Text) :
    (translateObject mode key arguments).IsLeaf
      ⟨.translate (Formatting.runText (Formatting.runs mode key))
          (arguments.map (argument mode)),
        ((Formatting.runs mode key).head?.map (·.style)).getD .plain⟩ := by
  rw [translateObject]
  rcases eq_or_ne arguments [] with rfl | h
  · exact isLeaf_append_styleEntries [("translate", _)] rfl
      (by simp [Json.contentKeys]) _
  · rw [if_neg h]
    exact isLeaf_append_styleEntries [("translate", _), ("with", .array _)] rfl
      (by simp [Json.contentKeys]) _

theorem isLeaf_scoreObject (name objective : Text) :
    (scoreObject name objective).IsLeaf ⟨.score name objective, .plain⟩ :=
  isLeaf_append_styleEntries
    [("score", .object [("name", .string name), ("objective", .string objective)])] rfl
    (by simp [Json.contentKeys]) .plain

theorem isLeaf_selector (selector : Text) (separator : Option Text) :
    (Json.object (("selector", .string selector)
      :: (separator.map fun s => (("separator" : Text), Json.string s)).toList)).IsLeaf
      ⟨.selector selector separator, .plain⟩ := by
  cases separator with
  | none =>
    exact isLeaf_append_styleEntries [("selector", .string selector)] rfl
      (by simp [Json.contentKeys]) .plain
  | some s =>
    exact isLeaf_append_styleEntries
      [("selector", .string selector), ("separator", .string s)] rfl
      (by simp [Json.contentKeys]) .plain

/-- The components of a part show its pieces. -/
theorem forall₂_components (mode : MnMode) (p : Part) :
    List.Forall₂ Json.IsLeaf (components mode p) (p.nodes mode) := by
  cases p with
  | text t =>
    refine List.forall₂_map_left_iff.2 (List.forall₂_map_right_iff.2 ?_)
    exact List.forall₂_same.2 fun r _ => isLeaf_runObject r
  | translate key arguments => exact .cons (isLeaf_translateObject mode key arguments) .nil
  | score name objective => exact .cons (isLeaf_scoreObject name objective) .nil
  | selector conversion separator => exact .cons (isLeaf_selector _ separator) .nil

/-! ## Putting components together -/

theorem isLeaf_empty : empty.IsLeaf ⟨.text [], .plain⟩ :=
  isLeaf_append_styleEntries [("text", .string [])] rfl (by simp [Json.contentKeys]) .plain

/-- Putting components together changes neither their order nor their styles. -/
theorem seen_assemble (h : List.Forall₂ Json.IsLeaf js ns) :
    ChatNode.seen ((assemble js).render .plain) = ChatNode.seen ns := by
  cases h with
  | nil =>
    rw [assemble, isLeaf_empty.render]
    rfl
  | @cons first n rest ns hfirst hrest =>
    cases hrest with
    | nil => rw [assemble, hfirst.render]
    | cons hsecond hrest =>
      simp only [assemble]
      split_ifs with hstyle
      · rw [isLeaf_empty.render_insert, Json.render_flatMap (.cons hfirst (.cons hsecond hrest))]
        rfl
      · have hn : n.style = .plain := by
          rw [← hfirst.style, chatStyle_of_hasStyle .plain (Bool.eq_false_iff.2 hstyle)]
        rw [hfirst.render_insert, hn, Json.render_flatMap (.cons hsecond hrest)]

end JavaMessage

/-! ## Pieces without text -/

theorem Formatting.text_ne_nil_of_mem_group {cs : List (Char × Style)} :
    ∀ r ∈ group cs, r.text ≠ [] := by
  induction cs with
  | nil => simp [group]
  | cons c cs ih =>
    obtain ⟨c, s⟩ := c
    unfold group
    split
    · simp
    · next run runs hruns =>
      rw [hruns] at ih
      obtain ⟨hrun, hruns⟩ := List.forall_mem_cons.1 ih
      split_ifs
      · exact List.forall_mem_cons.2 ⟨List.cons_ne_nil _ _, hruns⟩
      · exact List.forall_mem_cons.2 ⟨List.cons_ne_nil _ _, ih⟩

theorem ChatNode.isEmpty_ofRun {r : Formatting.Run} (h : r.text ≠ []) :
    (ofRun r).isEmpty = false := by
  obtain ⟨t, s⟩ := r
  cases t with
  | nil => exact absurd rfl h
  | cons c t => rfl

/-- Runs of text are never empty. -/
theorem ChatNode.seen_runs (mode : MnMode) (t : Text) :
    seen ((Formatting.runs mode t).map ofRun) = (Formatting.runs mode t).map ofRun := by
  refine List.filter_eq_self.2 (List.forall_mem_map.2 fun r hr => ?_)
  rw [isEmpty_ofRun (Formatting.text_ne_nil_of_mem_group r hr)]
  rfl

theorem Part.seen_nodes (mode : MnMode) (p : Part) :
    ChatNode.seen (p.nodes mode) = p.nodes mode := by
  cases p with
  | text t => exact ChatNode.seen_runs mode t
  | translate | score | selector => rfl

/-! ## Messages -/

/-- A component whose parts are all text is shown as its content. -/
theorem Part.filterMap_text? (settings : Settings) (c : Component)
    (h : ∀ p ∈ (ofComponent settings c).value, (JavaMessage.text? p).isSome) :
    (ofComponent settings c).value.filterMap JavaMessage.text? = [c.content] := by
  unfold ofComponent at h ⊢
  cases hk : c.kind with
  | text => rfl
  | translate => simp [hk, JavaMessage.text?] at h
  | score =>
    cases hs : Entry.scores c.content with
    | nil => rfl
    | cons => simp [hk, hs, JavaMessage.text?] at h
  | selector =>
    cases hs : selectors (Entry.items c.content) with
    | nil => simp [hs, JavaMessage.text?]
    | cons => simp [hk, hs, JavaMessage.text?] at h

theorem Part.ofComponents_cons (settings : Settings) (c : Component) (cs : List Component) :
    (ofComponents settings (c :: cs)).value =
      (ofComponent settings c).value ++ (ofComponents settings cs).value :=
  rfl

/-- Components whose parts are all text are shown as their contents. -/
theorem Part.flatten_filterMap_text? (settings : Settings) (cs : List Component)
    (h : ∀ p ∈ (ofComponents settings cs).value, (JavaMessage.text? p).isSome) :
    ((ofComponents settings cs).value.filterMap JavaMessage.text?).flatten =
      cs.flatMap (·.content) := by
  induction cs with
  | nil => rfl
  | cons c cs ih =>
    rw [ofComponents_cons] at h ⊢
    obtain ⟨hc, hrest⟩ := List.forall_mem_append.1 h
    rw [List.filterMap_append, filterMap_text? settings c hc, List.flatten_append,
      List.flatten_singleton, ih hrest, List.flatMap_cons]

namespace JavaMessage

theorem forall₂_flatMap_components (mode : MnMode) (ps : List Part) :
    List.Forall₂ Json.IsLeaf (ps.flatMap (components mode)) (ps.flatMap (Part.nodes mode)) := by
  refine List.rel_flatMap (R := Eq) (List.forall₂_same.2 fun _ _ => rfl) ?_
  rintro p _ rfl
  exact forall₂_components mode p

theorem seen_ofParts (mode : MnMode) (ps : List Part) :
    ChatNode.seen ((ofParts mode ps).render .plain) =
      if ∀ p ∈ ps, (text? p).isSome then
        (Formatting.runs mode (ps.filterMap text?).flatten).map .ofRun
      else ps.flatMap (Part.nodes mode) := by
  simp only [ofParts, List.all_eq_true]
  split_ifs
  · exact (seen_assemble (forall₂_components mode (.text _))).trans (ChatNode.seen_runs mode _)
  · rw [seen_assemble (forall₂_flatMap_components mode ps), ChatNode.seen, List.filter_flatMap]
    exact List.flatMap_congr fun p _ => Part.seen_nodes mode p

/-- What the text of a message shows, read back: if all its parts are text, the runs of the
    contents of its components in a row; and else its parts one after the other, each text in
    its own runs, and no score and no selector in any style. -/
theorem render_encode (settings : Settings) (cs : List Component) :
    ∃ j, Json.read (encode settings cs).value.1 = .ok j ∧
      ChatNode.seen (j.render .plain) =
        if ∀ p ∈ (Part.ofComponents settings cs).value, (text? p).isSome then
          (Formatting.runs settings.mnMode (cs.flatMap (·.content))).map .ofRun
        else (Part.ofComponents settings cs).value.flatMap (Part.nodes settings.mnMode) := by
  refine ⟨_, Json.read_print (isComponent_ofParts settings.mnMode _).whole, ?_⟩
  rw [seen_ofParts]
  split_ifs with h
  · rw [Part.flatten_filterMap_text? settings cs h]
  · rfl

end JavaMessage

end CrossEdition
