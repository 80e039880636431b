import CrossEdition.Proofs.Chat.ShownMessage
import CrossEdition.Proofs.Chat.Symbols

/-!
# Texts next to each other

In a message for Java that is all text, formatting runs on from one component to the next. As
soon as there is a score, a selector or a translated text, each text starts in plain style. So
two texts in a row show what they show as one text in the first case, and in the second only if
the style behind the first text does not matter for the second one.

Results:
* `styled_eq_iff`: two styles in front of a text differ at its first visible character or not at
  all.
* `chatPieces_ofParts`: what is seen of a message.
* `chatPieces_joined_iff`: when two texts in a row show what they show as one.
-/

namespace CrossEdition

/-! ## The style behind a text -/

namespace Formatting

variable {mode : MnMode}

/-- The style behind symbols, from a style on. -/
def styleBehind (s : Style) : List Symbol → Style
  | [] => s
  | .visible _ :: rest => styleBehind s rest
  | .code k :: rest => styleBehind (k.apply s) rest

/-- The style of the first visible character of a text, from a style on. -/
def firstStyle (mode : MnMode) (s : Style) (t : Text) : Option Style :=
  (styled s (symbols mode t)).head?.map (·.2)

theorem styled_append (s : Style) (xs ys : List Symbol) :
    styled s (xs ++ ys) = styled s xs ++ styled (styleBehind s xs) ys := by
  induction xs generalizing s with
  | nil => rfl
  | cons x xs ih =>
    cases x with
    | visible c => rw [List.cons_append, styled, ih, styled, styleBehind, List.cons_append]
    | code k => rw [List.cons_append, styled, ih, styled, styleBehind]

/-- Two styles in front of symbols make a difference for the first visible character, or none at
    all. -/
theorem styled_eq_iff (s s' : Style) (ys : List Symbol) : styled s ys = styled s' ys ↔
    (styled s ys).head?.map (·.2) = (styled s' ys).head?.map (·.2) := by
  induction ys generalizing s s' with
  | nil => simp [styled]
  | cons y ys ih =>
    cases y with
    | visible c =>
      simp only [styled, List.head?_cons, Option.map_some, Option.some.injEq, List.cons.injEq,
        Prod.mk.injEq, true_and]
      exact ⟨And.left, fun h => ⟨h, h ▸ rfl⟩⟩
    | code k => exact ih (k.apply s) (k.apply s')

/-- Two texts in a row show what they show as one text exactly if the second shows the same behind
    the first as on its own. -/
theorem styled_joined_iff {a b : Text} (ha : endsInside mode a = false) :
    styled .plain (symbols mode a) ++ styled .plain (symbols mode b) =
        styled .plain (symbols mode (a ++ b)) ↔
      firstStyle mode .plain b = firstStyle mode (styleBehind .plain (symbols mode a)) b := by
  rw [symbols_append ha, styled_append, List.append_cancel_left_eq, styled_eq_iff]
  rfl

end Formatting

/-! ## Pieces of a message -/

/-- A piece of what is seen of a message: a character, or something else than text. -/
inductive ChatPiece where
  | character (c : Char) (style : Style)
  | other (content : ChatContent) (style : Style)

/-- What is seen of a node. -/
def ChatNode.pieces : ChatNode → List ChatPiece
  | ⟨.text t, s⟩ => t.map (.character · s)
  | ⟨content, s⟩ => [.other content s]

/-- What is seen of a message. -/
def Json.chatPieces (j : Json) : List ChatPiece :=
  (j.render .plain).flatMap ChatNode.pieces

/-- What is seen of a text. -/
def Formatting.pieces (mode : MnMode) (t : Text) : List ChatPiece :=
  (styled .plain (symbols mode t)).map fun (c, s) => .character c s

theorem ChatNode.pieces_of_isEmpty {n : ChatNode} (h : n.isEmpty = true) : n.pieces = [] := by
  obtain ⟨content, s⟩ := n
  unfold isEmpty at h
  split at h
  · next heq =>
    cases heq
    rfl
  · exact absurd h Bool.false_ne_true

/-- Nodes without text do not count. -/
theorem ChatNode.flatMap_pieces_seen (ns : List ChatNode) :
    (seen ns).flatMap pieces = ns.flatMap pieces := by
  induction ns with
  | nil => rfl
  | cons n ns ih =>
    rw [seen] at ih
    rw [seen, List.filter_cons, List.flatMap_cons, ← ih]
    split_ifs with h
    · rw [List.flatMap_cons]
    · rw [pieces_of_isEmpty (by simpa using h), List.nil_append]

theorem Formatting.flatMap_pieces_group (cs : List (Char × Style)) :
    ((group cs).map ChatNode.ofRun).flatMap ChatNode.pieces =
      cs.map fun (c, s) => .character c s := by
  induction cs with
  | nil => rfl
  | cons p cs ih =>
    obtain ⟨c, s⟩ := p
    rw [List.map_cons, ← ih, group]
    cases group cs with
    | nil => rfl
    | cons run runs =>
      simp only
      split_ifs with hs
      · subst hs
        rfl
      · rfl

/-- The runs of a text show its characters. -/
theorem Formatting.flatMap_pieces_runs (mode : MnMode) (t : Text) :
    ((runs mode t).map ChatNode.ofRun).flatMap ChatNode.pieces = pieces mode t :=
  flatMap_pieces_group _

/-- Different characters or styles are different pieces. -/
theorem Formatting.pieces_append_eq_iff {mode : MnMode} {a b : Text} :
    pieces mode a ++ pieces mode b = pieces mode (a ++ b) ↔
      styled .plain (symbols mode a) ++ styled .plain (symbols mode b) =
        styled .plain (symbols mode (a ++ b)) := by
  have hinj : Function.Injective fun p : Char × Style => ChatPiece.character p.1 p.2 := by
    rintro ⟨c, s⟩ ⟨d, r⟩ h
    cases h
    rfl
  rw [pieces, pieces, pieces, ← List.map_append]
  exact (List.map_injective_iff.2 hinj).eq_iff

/-! ## Messages -/

theorem Part.ofComponents_append (settings : Settings) (cs ds : List Component) :
    (ofComponents settings (cs ++ ds)).value =
      (ofComponents settings cs).value ++ (ofComponents settings ds).value := by
  simp [ofComponents]

namespace JavaMessage

variable {mode : MnMode} {a b : Text}

/-- The text of a message is read back as the component of its parts. -/
theorem read_encode (settings : Settings) (cs : List Component) :
    Json.read (encode settings cs).value.1 =
      .ok (ofParts settings.mnMode (Part.ofComponents settings cs).value) :=
  Json.read_print (isComponent_ofParts settings.mnMode _).whole

/-- What is seen of a message: the characters of its texts in a row if it is all text, and else
    what is seen of its parts one by one. -/
theorem chatPieces_ofParts (mode : MnMode) (ps : List Part) : (ofParts mode ps).chatPieces =
    if ∀ p ∈ ps, (text? p).isSome then Formatting.pieces mode (ps.filterMap text?).flatten
    else ps.flatMap fun p => (p.nodes mode).flatMap ChatNode.pieces := by
  rw [Json.chatPieces, ← ChatNode.flatMap_pieces_seen, seen_ofParts]
  split_ifs
  · exact Formatting.flatMap_pieces_runs mode _
  · exact List.flatMap_assoc

theorem flatMap_pieces_text (mode : MnMode) (t : Text) :
    ((Part.text t).nodes mode).flatMap ChatNode.pieces = Formatting.pieces mode t :=
  Formatting.flatMap_pieces_runs mode t

/-- More text among the parts of a message does not change whether it is all text. -/
theorem forall_isSome_text?_insert (ps qs : List Part) (ts : List Text) :
    (∀ p ∈ ps ++ (ts.map Part.text ++ qs), (text? p).isSome) ↔
      ∀ p ∈ ps ++ qs, (text? p).isSome := by
  simp only [List.forall_mem_append, List.forall_mem_map]
  exact and_congr_right fun _ => and_iff_right fun _ _ => rfl

/-- When two texts in a row are seen as one, among the parts of a message. -/
theorem chatPieces_ofParts_joined_iff (ha : Formatting.endsInside mode a = false)
    (ps qs : List Part) :
    (ofParts mode (ps ++ .text a :: .text b :: qs)).chatPieces =
        (ofParts mode (ps ++ .text (a ++ b) :: qs)).chatPieces ↔
      (∀ p ∈ ps ++ qs, (text? p).isSome) ∨
        Formatting.firstStyle mode .plain b =
          Formatting.firstStyle mode
            (Formatting.styleBehind .plain (Formatting.symbols mode a)) b := by
  have hapart := forall_isSome_text?_insert ps qs [a, b]
  have hjoined := forall_isSome_text?_insert ps qs [a ++ b]
  simp only [List.map_cons, List.map_nil, List.cons_append, List.nil_append] at hapart hjoined
  rw [chatPieces_ofParts, chatPieces_ofParts]
  simp only [hapart, hjoined]
  by_cases h : ∀ p ∈ ps ++ qs, (text? p).isSome
  · simp only [if_pos h]
    refine iff_of_true (congrArg (Formatting.pieces mode) ?_) (.inl h)
    simp [text?]
  · simp only [if_neg h, List.flatMap_append, List.flatMap_cons, flatMap_pieces_text,
      List.append_cancel_left_eq]
    rw [← List.append_assoc, List.append_cancel_right_eq, Formatting.pieces_append_eq_iff,
      Formatting.styled_joined_iff ha, or_iff_right h]

/-- Two texts in a row, of which the first does not end inside a code, are seen in a message as one
    text exactly if the rest of the message is all text, or if the second text begins behind the
    first in the style it has on its own. -/
theorem chatPieces_joined_iff (settings : Settings) (before after : List Component) {a b : Text}
    (ha : Formatting.endsInside settings.mnMode a = false) (as bs cs : List Text) :
    ∃ apart joined,
      Json.read (encode settings (before ++ ⟨.text, a, as⟩ :: ⟨.text, b, bs⟩ :: after)).value.1 =
          .ok apart ∧
        Json.read (encode settings (before ++ ⟨.text, a ++ b, cs⟩ :: after)).value.1 =
          .ok joined ∧
        (apart.chatPieces = joined.chatPieces ↔
          (∀ p ∈ (Part.ofComponents settings (before ++ after)).value, (text? p).isSome) ∨
            Formatting.firstStyle settings.mnMode .plain b =
              Formatting.firstStyle settings.mnMode
                (Formatting.styleBehind .plain (Formatting.symbols settings.mnMode a)) b) := by
  refine ⟨_, _, read_encode settings _, read_encode settings _, ?_⟩
  rw [Part.ofComponents_append, Part.ofComponents_append, Part.ofComponents_append]
  exact chatPieces_ofParts_joined_iff ha _ _

/-- A reset in front of the second text makes it independent of the first. -/
theorem chatPieces_joined_iff_reset :
    Formatting.endsInside .font "§ca" = false ∧ ∃ apart joined,
      Json.read (encode .standard
          [⟨.text, "§ca", []⟩, ⟨.text, "§rb", []⟩, ⟨.score, "p:k", []⟩]).value.1 = .ok apart ∧
        Json.read (encode .standard [⟨.text, "§ca§rb", []⟩, ⟨.score, "p:k", []⟩]).value.1 =
          .ok joined ∧
        apart.chatPieces = joined.chatPieces := by
  have ha : Formatting.endsInside .font "§ca" = false := by decide
  obtain ⟨apart, joined, hapart, hjoined, h⟩ :=
    chatPieces_joined_iff .standard [] [⟨.score, "p:k", []⟩] ha (b := "§rb") [] [] []
  exact ⟨ha, apart, joined, hapart, hjoined, h.2 (.inr (by decide))⟩

/-- Beside a score, red ends with its text. -/
theorem chatPieces_joined_ne : ∃ apart joined,
    Json.read (encode .standard
        [⟨.text, "§ca", []⟩, ⟨.text, "b", []⟩, ⟨.score, "p:k", []⟩]).value.1 = .ok apart ∧
      Json.read (encode .standard [⟨.text, "§cab", []⟩, ⟨.score, "p:k", []⟩]).value.1 =
        .ok joined ∧
      apart.chatPieces ≠ joined.chatPieces := by
  have ha : Formatting.endsInside .font "§ca" = false := by decide
  refine ⟨_, _, read_encode _ _, read_encode _ _, ?_⟩
  exact (chatPieces_ofParts_joined_iff ha [] [.score "p" "k"]).not.2 (by decide)

end JavaMessage

end CrossEdition
