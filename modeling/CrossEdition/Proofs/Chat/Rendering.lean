import CrossEdition.Chat.JavaMessage
import Mathlib.Tactic.Common

/-!
# What chat components show

A chat component shows its own content and then its children, and each of them inherits the
style of its parent unless it sets one itself.

Results:
* `render_object`: a component, its content and its children.
* `IsLeaf.render_insert`: children that are put into a component show behind its content.
-/

namespace CrossEdition

/-! ## Chat components -/

/-- The colors of chat. -/
def Color.all : List Color :=
  [.black, .darkBlue, .darkGreen, .darkAqua, .darkRed, .darkPurple, .gold, .gray, .darkGray,
    .blue, .green, .aqua, .red, .lightPurple, .yellow, .white]

/-- The color with this name. -/
def Color.ofName? (name : Text) : Option Color :=
  all.find? (·.name = name)

theorem Color.ofName?_name (c : Color) : ofName? c.name = some c := by
  cases c <;> decide

/-- What a chat component shows by itself. -/
inductive ChatContent where
  | text (text : Text)
  | translate (key : Text) (arguments : List Json)
  | score (name objective : Text)
  | selector (selector : Text) (separator : Option Text)

/-- A piece of a shown message: a content and the style it is shown in. -/
structure ChatNode where
  content : ChatContent
  style : Style

namespace ChatNode

/-- Whether nothing is to be seen of a piece. -/
def isEmpty : ChatNode → Bool
  | ⟨.text [], _⟩ => true
  | _ => false

/-- A run of text. -/
def ofRun (r : Formatting.Run) : ChatNode :=
  ⟨.text r.text, r.style⟩

/-- The pieces without empty text. -/
def seen (ns : List ChatNode) : List ChatNode :=
  ns.filter fun n => !n.isEmpty

end ChatNode

namespace Json

/-- The content of a string entry. -/
def text? (j : Json) (key : Text) : Option Text :=
  (j.get? key).bind string?

/-- What a component shows by itself. -/
def chatContent? (j : Json) : Option ChatContent :=
  ((j.text? "text").map .text)
    |>.or ((j.text? "translate").map fun key =>
      .translate key (((j.get? "with").bind items?).getD []))
    |>.or ((j.get? "score").bind fun score =>
      (score.text? "name").bind fun name => (score.text? "objective").map (.score name))
    |>.or ((j.text? "selector").map fun selector => .selector selector (j.text? "separator"))

/-- The flag that a component sets or inherits. -/
def chatFlag (inherited : Bool) (j : Json) (key : Text) : Bool :=
  match j.get? key with
  | some (.bool on) => on
  | _ => inherited

/-- The style of a component: what it sets itself, and else what it inherits. -/
def chatStyle (inherited : Style) (j : Json) : Style where
  color := ((j.text? "color").bind Color.ofName?).or inherited.color
  bold := chatFlag inherited.bold j "bold"
  italic := chatFlag inherited.italic j "italic"
  underlined := chatFlag inherited.underlined j "underlined"
  strikethrough := chatFlag inherited.strikethrough j "strikethrough"
  obfuscated := chatFlag inherited.obfuscated j "obfuscated"

/-- The children of a component. -/
def chatChildren (j : Json) : List Json :=
  ((j.get? "extra").bind items?).getD []

/-- The content of a component itself, in its style. -/
def chatNode? (inherited : Style) (j : Json) : Option ChatNode :=
  j.chatContent?.map (⟨·, chatStyle inherited j⟩)

mutual

/-- What a component shows that inherits a style: its own content and then its children. A
    string is a component of plain text. -/
def render (inherited : Style) : Json → List ChatNode
  | .string t => [⟨.text t, inherited⟩]
  | .object entries =>
    (chatNode? inherited (.object entries)).toList
      ++ renderExtra (chatStyle inherited (.object entries)) entries
  | .null | .bool _ | .number _ | .array _ => []

/-- What the first entry for children shows. -/
def renderExtra (style : Style) : List (Text × Json) → List ChatNode
  | [] => []
  | (key, value) :: rest =>
    if key = "extra" then renderItems style value else renderExtra style rest

/-- What the children in an array show. -/
def renderItems (style : Style) : Json → List ChatNode
  | .array items => renderAll style items
  | _ => []

/-- What children show one after the other. -/
def renderAll (style : Style) : List Json → List ChatNode
  | [] => []
  | item :: rest => render style item ++ renderAll style rest

end

variable {inherited style : Style} {j value : Json} {entries : List (Text × Json)} {key : Text}
  {n : ChatNode}

/-! ## Entries -/

/-- An entry that is put in is not found under other keys. -/
theorem get?_insert_of_ne {new : Text} (h : key ≠ new) :
    (j.insert new value).get? key = j.get? key := by
  cases j with
  | object entries =>
    change (entries ++ [(new, value)]).lookup key = entries.lookup key
    rw [List.lookup_append, Text.lookup_cons, if_neg (Ne.symm h)]
    exact Option.or_none
  | _ => rfl

/-- The keys that say what a component shows by itself. -/
def contentKeys : List Text :=
  ["text", "translate", "with", "score", "selector", "separator"]

theorem chatContent?_congr {k : Json} (h : ∀ key ∈ contentKeys, j.get? key = k.get? key) :
    j.chatContent? = k.chatContent? := by
  simp only [contentKeys, List.forall_mem_cons] at h
  obtain ⟨htext, htranslate, hwith, hscore, hselector, hseparator, -⟩ := h
  simp only [chatContent?, text?, htext, htranslate, hwith, hscore, hselector, hseparator]

theorem chatStyle_congr {k : Json} (inherited : Style)
    (h : ∀ key ∈ JavaMessage.styleKeys, j.get? key = k.get? key) :
    chatStyle inherited j = chatStyle inherited k := by
  simp only [JavaMessage.styleKeys, List.forall_mem_cons] at h
  obtain ⟨hcolor, hbold, hitalic, hunderlined, hstrikethrough, hobfuscated, -⟩ := h
  simp only [chatStyle, chatFlag, text?, hcolor, hbold, hitalic, hunderlined, hstrikethrough,
    hobfuscated]

theorem chatContent?_insert_extra (j value : Json) :
    (j.insert "extra" value).chatContent? = j.chatContent? :=
  chatContent?_congr fun _ hkey => get?_insert_of_ne (ne_of_mem_of_not_mem hkey (by decide))

theorem chatStyle_insert_extra (inherited : Style) (j value : Json) :
    chatStyle inherited (j.insert "extra" value) = chatStyle inherited j :=
  chatStyle_congr inherited fun _ hkey =>
    get?_insert_of_ne (ne_of_mem_of_not_mem hkey (by decide))

/-! ## Children -/

theorem renderAll_eq (style : Style) (items : List Json) :
    renderAll style items = items.flatMap (render style) := by
  induction items with
  | nil => rfl
  | cons item items ih => rw [renderAll, ih, List.flatMap_cons]

theorem renderItems_eq (style : Style) (j : Json) :
    renderItems style j = (j.items?.getD []).flatMap (render style) := by
  cases j with
  | array items => exact renderAll_eq style items
  | _ => rfl

theorem renderExtra_eq (style : Style) (entries : List (Text × Json)) :
    renderExtra style entries = (chatChildren (.object entries)).flatMap (render style) := by
  induction entries with
  | nil => rfl
  | cons e entries ih =>
    obtain ⟨key, value⟩ := e
    have hget : (object ((key, value) :: entries)).get? "extra" =
        if key = "extra" then some value else (object entries).get? "extra" :=
      Text.lookup_cons ..
    rw [renderExtra, chatChildren, hget]
    split_ifs
    · exact renderItems_eq style value
    · exact ih

/-- A component shows its own content and then its children in its style. -/
theorem render_object (inherited : Style) (entries : List (Text × Json)) :
    render inherited (.object entries) = (chatNode? inherited (.object entries)).toList
      ++ (chatChildren (.object entries)).flatMap
        (render (chatStyle inherited (.object entries))) := by
  rw [render, renderExtra_eq]

/-! ## Components without children -/

/-- Whether a value is a component without children that shows one piece. -/
structure IsLeaf (j : Json) (n : ChatNode) : Prop where
  isObject : ∃ entries, j = .object entries
  content : j.chatContent? = some n.content
  style : chatStyle .plain j = n.style
  extra : j.get? "extra" = none

theorem IsLeaf.render (h : IsLeaf j n) : j.render .plain = [n] := by
  obtain ⟨⟨entries, rfl⟩, hc, hs, he⟩ := h
  rw [render_object, chatNode?, chatChildren, hc, hs, he]
  rfl

/-- Children that are put into a component show behind its content, in its style. -/
theorem IsLeaf.render_insert (h : IsLeaf j n) (children : List Json) :
    (j.insert "extra" (.array children)).render .plain =
      n :: children.flatMap (Json.render n.style) := by
  obtain ⟨⟨entries, rfl⟩, hc, hs, he⟩ := h
  have hinsert : (object entries).insert "extra" (.array children) =
      .object (entries ++ [(("extra" : Text), Json.array children)]) := rfl
  have hchildren : (Json.insert _ _ (.array children)).get? "extra" = _ := get?_insert he
  rw [hinsert] at hchildren ⊢
  rw [render_object, chatNode?, chatChildren, hchildren, ← hinsert, chatContent?_insert_extra,
    chatStyle_insert_extra, hc, hs]
  rfl

theorem render_flatMap {js : List Json} {ns : List ChatNode} (h : List.Forall₂ IsLeaf js ns) :
    js.flatMap (Json.render .plain) = ns := by
  induction h with
  | nil => rfl
  | cons h _ ih => rw [List.flatMap_cons, ih, h.render, List.singleton_append]

end Json

end CrossEdition
