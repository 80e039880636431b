import CrossEdition.Chat.BedrockMessage
import CrossEdition.Proofs.Chat.ShownMessage

/-!
# What both editions get

Java gets the parts of a message as a tree, Bedrock as a flat list, and each edition leaves out
other empty texts. Whatever is no text is in both messages, in the same order: translated texts
with as many arguments, the same scores, and for each selector the two sides of one conversion.
No object in either message has a key twice.

Results:
* `JavaMessage.distinctKeys_ofParts`, `BedrockMessage.distinctKeys_ofParts`: no key comes twice.
* `JavaMessage.chatEntries_ofParts`, `BedrockMessage.rawtextEntries_ofParts`: the entries of a
  message are its parts.
* `counterparts_encode`: the entries of the two messages, read back, correspond one by one.
-/

namespace CrossEdition

/-! ## Entries of messages -/

/-- What of a message is no text. -/
inductive ChatEntry where
  | translate (arguments : Nat)
  | score (name objective : Option Text)
  | selector (selector : Option Text)
deriving DecidableEq, Repr

namespace Json

/-- Whether no object in a value has a key twice. -/
inductive DistinctKeys : Json → Prop
  | null : DistinctKeys .null
  | bool (b : Bool) : DistinctKeys (.bool b)
  | number (x : Double) : DistinctKeys (.number x)
  | string (t : Text) : DistinctKeys (.string t)
  | array {items : List Json} (h : ∀ j ∈ items, DistinctKeys j) : DistinctKeys (.array items)
  | object {entries : List (Text × Json)} (hkeys : (entries.map (·.1)).Nodup)
      (h : ∀ e ∈ entries, DistinctKeys e.2) : DistinctKeys (.object entries)

/-- The entry that a component is, if it has a key that texts do not have. Its arguments are
    counted as its edition keeps them. -/
def entryOf? (arguments : Json → Option Json) (j : Json) : Option ChatEntry :=
  ((j.get? "translate").map fun _ => .translate (((arguments j).bind items?).getD []).length)
    |>.or ((j.get? "score").map fun score => .score (score.text? "name") (score.text? "objective"))
    |>.or ((j.get? "selector").map fun selector => .selector selector.string?)

/-- Java's arguments. -/
def chatArguments (j : Json) : Option Json :=
  j.get? "with"

/-- Bedrock's arguments, which are a list of their own. -/
def rawtextArguments (j : Json) : Option Json :=
  (j.get? "with").bind (get? "rawtext")

/-- The entries of a message for Java: the root and then its children. -/
def chatEntries (j : Json) : List ChatEntry :=
  (j :: j.chatChildren).filterMap (entryOf? chatArguments)

/-- The entries of a message for Bedrock. -/
def rawtextEntries (j : Json) : List ChatEntry :=
  (((j.get? "rawtext").bind items?).getD []).filterMap (entryOf? rawtextArguments)

variable {j k value : Json} {key : Text} {entries : List (Text × Json)}

theorem distinctKeys_single (key : Text) (h : value.DistinctKeys) :
    (single key value).DistinctKeys :=
  .object (List.nodup_singleton key) (List.forall_mem_singleton.2 h)

/-- A new key does not repeat another. -/
theorem DistinctKeys.insert (h : j.DistinctKeys) (hv : value.DistinctKeys)
    (hkey : j.get? key = none) : (j.insert key value).DistinctKeys := by
  cases h with
  | @object entries hkeys he =>
    refine .object ?_ (List.forall_mem_append.2 ⟨he, List.forall_mem_singleton.2 hv⟩)
    rw [List.map_append, List.nodup_append]
    refine ⟨hkeys, List.nodup_singleton key, ?_⟩
    rintro k hk l hl rfl
    obtain ⟨e, hm, rfl⟩ := List.mem_map.1 hk
    have hne := List.lookup_eq_none_iff.1 hkey e hm
    rw [List.mem_singleton.1 hl] at hne
    exact absurd hne (by simp)
  | null => exact .null
  | bool b => exact .bool b
  | number x => exact .number x
  | string t => exact .string t
  | array h => exact .array h

/-- The keys that say which entry a component is. -/
def entryKeys : List Text :=
  ["translate", "with", "score", "selector"]

theorem entryOf?_congr (h : ∀ key ∈ entryKeys, j.get? key = k.get? key) :
    j.entryOf? chatArguments = k.entryOf? chatArguments := by
  simp only [entryKeys, List.forall_mem_cons] at h
  obtain ⟨htranslate, hwith, hscore, hselector, -⟩ := h
  simp only [entryOf?, chatArguments, htranslate, hwith, hscore, hselector]

theorem entryOf?_insert_extra (j value : Json) :
    (j.insert "extra" value).entryOf? chatArguments = j.entryOf? chatArguments :=
  entryOf?_congr fun _ hkey => get?_insert_of_ne (ne_of_mem_of_not_mem hkey (by decide))

end Json

namespace Part

/-- The entry that a part is on one side of its conversion, if it is no text. -/
def entryOf? (side : Conversion → Text) : Part → Option ChatEntry
  | .text _ => none
  | .translate _ arguments => some (.translate arguments.length)
  | .score name objective => some (.score (some name) (some objective))
  | .selector conversion _ => some (.selector (some (side conversion)))

theorem isSome_entryOf? (side : Conversion → Text) (p : Part) :
    (p.entryOf? side).isSome = (JavaMessage.text? p).isNone := by
  cases p <;> rfl

end Part

/-! ## Java -/

namespace JavaMessage

open Json (DistinctKeys chatArguments chatEntries)

variable {mode : MnMode} {j : Json} {js : List Json}

/-- A component with the entries for a content in front of those for a style. -/
inductive IsStyled : Json → Prop
  | intro (front : List (Text × Json)) (s : Style) (hkeys : (front.map (·.1)).Nodup)
      (hfront : ∀ e ∈ front, e.1 ∈ Json.contentKeys ∧ e.2.DistinctKeys) :
      IsStyled (.object (front ++ styleEntries s))

theorem styleKeys_sublist (s : Style) : ((styleEntries s).map (·.1)).Sublist styleKeys := by
  have hflag : ∀ (key : Text) (on : Bool),
      ((if on then [(key, Json.bool true)] else []).map (·.1)).Sublist [key] := by
    intro key on
    cases on with
    | false => exact List.nil_sublist _
    | true => exact List.Sublist.refl _
  have hcolor : (((s.color.map fun c => (("color" : Text), Json.string c.name)).toList).map
      (·.1)).Sublist [("color" : Text)] := by
    cases s.color with
    | none => exact List.nil_sublist _
    | some c => exact List.Sublist.refl _
  simp only [styleEntries, List.map_append]
  exact ((((hcolor.append (hflag _ _)).append (hflag _ _)).append (hflag _ _)).append
    (hflag _ _)).append (hflag _ _)

theorem IsStyled.distinctKeys (h : IsStyled j) : j.DistinctKeys := by
  obtain ⟨front, s, hkeys, hfront⟩ := h
  have hstyle := styleKeys_sublist s
  refine .object ?_ (List.forall_mem_append.2 ⟨fun e he => (hfront e he).2, fun e he => ?_⟩)
  · rw [List.map_append, List.nodup_append]
    refine ⟨hkeys, hstyle.nodup (by decide), ?_⟩
    rintro key hc _ hs rfl
    obtain ⟨e, he, rfl⟩ := List.mem_map.1 hc
    exact notMem_styleKeys_of_mem e.1 (hfront e he).1 (hstyle.subset hs)
  · rcases value_styleEntries s e he with ⟨t, ht⟩ | hb
    · exact ht ▸ .string t
    · exact hb ▸ .bool true

theorem IsStyled.get?_extra (h : IsStyled j) : j.get? "extra" = none := by
  obtain ⟨front, s, -, hfront⟩ := h
  rw [get?_append_styleEntries (by decide)]
  exact get?_of_notMem_contentKeys (fun e he => (hfront e he).1) (by decide)

theorem IsStyled.chatChildren_insert (h : IsStyled j) (children : List Json) :
    (j.insert "extra" (.array children)).chatChildren = children := by
  have hextra := h.get?_extra
  obtain ⟨front, s, -, -⟩ := h
  rw [Json.chatChildren, Json.get?_insert hextra]
  rfl

/-- Putting components together repeats no key. -/
theorem distinctKeys_assemble (h : ∀ j ∈ js, IsStyled j) : (assemble js).DistinctKeys := by
  have hempty : empty.DistinctKeys := Json.distinctKeys_single "text" (.string [])
  unfold assemble
  split
  · exact hempty
  · exact (h _ (List.mem_singleton_self _)).distinctKeys
  · next first rest _ =>
    have hall : ∀ j ∈ first :: rest, j.DistinctKeys := fun j hj => (h j hj).distinctKeys
    have hfirst := h first (List.mem_cons_self ..)
    split_ifs
    · exact hempty.insert (.array hall) rfl
    · exact hfirst.distinctKeys.insert (.array (List.forall_mem_cons.1 hall).2) hfirst.get?_extra

/-- Putting components together loses, doubles and moves none of their entries. -/
theorem chatEntries_assemble (h : ∀ j ∈ js, IsStyled j) :
    (assemble js).chatEntries = js.filterMap (Json.entryOf? chatArguments) := by
  have hempty : empty.entryOf? chatArguments = none := rfl
  unfold assemble
  split
  · rfl
  · next part =>
    rw [chatEntries, Json.chatChildren, (h part (List.mem_singleton_self _)).get?_extra]
    rfl
  · next first rest _ =>
    split_ifs
    · rw [chatEntries, List.filterMap_cons, Json.entryOf?_insert_extra, hempty]
      rfl
    · rw [chatEntries, (h first (List.mem_cons_self ..)).chatChildren_insert, List.filterMap_cons,
        Json.entryOf?_insert_extra, List.filterMap_cons]

/-! ### Components of parts -/

/-- A content under one key. -/
theorem IsStyled.single {key : Text} {value : Json} (hkey : key ∈ Json.contentKeys)
    (hv : value.DistinctKeys) (s : Style) : IsStyled (.object ((key, value) :: styleEntries s)) :=
  .intro [(key, value)] s (List.nodup_singleton key) (List.forall_mem_singleton.2 ⟨hkey, hv⟩)

/-- A content under one key, with more of it under another. -/
theorem IsStyled.pair {key other : Text} {value more : Json} (hne : key ≠ other)
    (hkey : key ∈ Json.contentKeys) (hother : other ∈ Json.contentKeys)
    (hv : value.DistinctKeys) (hmore : more.DistinctKeys) (s : Style) :
    IsStyled (.object ((key, value) :: (other, more) :: styleEntries s)) :=
  .intro [(key, value), (other, more)] s (List.nodup_cons.2 ⟨by simpa using hne,
    List.nodup_singleton other⟩) (List.forall_mem_cons.2 ⟨⟨hkey, hv⟩,
      List.forall_mem_singleton.2 ⟨hother, hmore⟩⟩)

theorem isStyled_runObject (r : Formatting.Run) : IsStyled (runObject r) :=
  .single (by decide) (.string _) r.style

theorem distinctKeys_argument (mode : MnMode) (t : Text) : (argument mode t).DistinctKeys := by
  have hruns : ∀ rs : List Formatting.Run, (assemble (rs.map runObject)).DistinctKeys := fun rs =>
    distinctKeys_assemble (List.forall_mem_map.2 fun r _ => isStyled_runObject r)
  unfold argument
  split
  · exact .string _
  · next run _ =>
    split_ifs
    · exact .string _
    · exact hruns [run]
  · exact hruns _

/-- An entry does not depend on the style of its component. -/
theorem entryOf?_append_styleEntries (front : List (Text × Json)) (s : Style) :
    (Json.object (front ++ styleEntries s)).entryOf? chatArguments =
      (Json.object front).entryOf? chatArguments := by
  have hkeys : ∀ key ∈ Json.entryKeys, key ∉ styleKeys := by
    decide
  exact Json.entryOf?_congr fun key hkey => get?_append_styleEntries (hkeys key hkey) front s

theorem distinctKeys_score (name objective : Text) :
    (Json.object [("name", .string name), ("objective", .string objective)]).DistinctKeys := by
  refine .object (by simp) ?_
  exact List.forall_mem_cons.2 ⟨.string name, List.forall_mem_singleton.2 (.string objective)⟩

theorem isStyled_components (mode : MnMode) (p : Part) : ∀ j ∈ components mode p, IsStyled j := by
  cases p with
  | text t => exact List.forall_mem_map.2 fun r _ => isStyled_runObject r
  | translate key arguments =>
    refine List.forall_mem_singleton.2 ?_
    rw [translateObject]
    split_ifs
    · exact .single (by decide) (.string _) _
    · exact .pair (by decide) (by decide) (by decide) (.string _)
        (.array (List.forall_mem_map.2 fun t _ => distinctKeys_argument mode t)) _
  | score name objective =>
    exact List.forall_mem_singleton.2
      (.single (by decide) (distinctKeys_score name objective) .plain)
  | selector conversion separator =>
    refine List.forall_mem_singleton.2 ?_
    cases separator with
    | none => exact .single (by decide) (.string _) .plain
    | some s => exact .pair (by decide) (by decide) (by decide) (.string _) (.string s) .plain

/-- The components of a part hold its entry. -/
theorem filterMap_components (mode : MnMode) (p : Part) :
    (components mode p).filterMap (Json.entryOf? chatArguments) =
      (p.entryOf? Conversion.java).toList := by
  cases p with
  | text t =>
    refine List.filterMap_eq_nil_iff.2 (List.forall_mem_map.2 fun r _ => ?_)
    exact entryOf?_append_styleEntries [("text", .string r.text)] r.style
  | translate key arguments =>
    rw [components, translateObject, ← List.cons_append, List.filterMap_cons,
      entryOf?_append_styleEntries]
    by_cases h : arguments = []
    · rw [if_pos h, h]
      rfl
    · have hwith : ∀ shown : Json, (Json.object [("translate", shown),
          ("with", .array (arguments.map (argument mode)))]).entryOf? chatArguments =
            some (.translate (arguments.map (argument mode)).length) := fun _ => rfl
      rw [if_neg h, hwith, List.length_map]
      rfl
  | score name objective => rfl
  | selector conversion separator => cases separator <;> rfl

/-! ### Messages -/

theorem isStyled_flatMap_components (mode : MnMode) (ps : List Part) :
    ∀ j ∈ ps.flatMap (components mode), IsStyled j := by
  intro j hj
  obtain ⟨p, -, hp⟩ := List.mem_flatMap.1 hj
  exact isStyled_components mode p j hp

theorem distinctKeys_ofParts (mode : MnMode) (ps : List Part) :
    (ofParts mode ps).DistinctKeys := by
  unfold ofParts
  split_ifs
  · exact distinctKeys_assemble (isStyled_components mode (.text _))
  · exact distinctKeys_assemble (isStyled_flatMap_components mode ps)

/-- The entries of a message are its parts. -/
theorem chatEntries_ofParts (mode : MnMode) (ps : List Part) :
    (ofParts mode ps).chatEntries = ps.filterMap (Part.entryOf? Conversion.java) := by
  unfold ofParts
  split_ifs with h
  · rw [← components, chatEntries_assemble (isStyled_components mode (.text _)),
      filterMap_components]
    refine (List.filterMap_eq_nil_iff.2 fun p hp => ?_).symm
    rw [← Option.not_isSome_iff_eq_none, Part.isSome_entryOf?,
      Option.isNone_eq_false_iff.2 (List.all_eq_true.1 h p hp)]
    exact Bool.false_ne_true
  · rw [chatEntries_assemble (isStyled_flatMap_components mode ps), List.filterMap_flatMap,
      List.filterMap_eq_flatMap_toList]
    exact List.flatMap_congr fun p _ => filterMap_components mode p

end JavaMessage

/-! ## Bedrock -/

namespace BedrockMessage

open Json (rawtextArguments rawtextEntries)

variable {mode : MnMode}

/-- Whether a value is printed without loss and repeats no key. -/
def IsSound (j : Json) : Prop :=
  j.Whole ∧ j.DistinctKeys

theorem isSound_string (t : Text) : IsSound (.string t) :=
  ⟨.string t, .string t⟩

theorem isSound_array {items : List Json} (h : ∀ j ∈ items, IsSound j) : IsSound (.array items) :=
  ⟨.array fun j hj => (h j hj).1, .array fun j hj => (h j hj).2⟩

theorem isSound_object {entries : List (Text × Json)} (hkeys : (entries.map (·.1)).Nodup)
    (h : ∀ e ∈ entries, IsSound e.2) : IsSound (.object entries) :=
  ⟨.object fun e he => (h e he).1, .object hkeys fun e he => (h e he).2⟩

theorem isSound_single (key : Text) {value : Json} (h : IsSound value) :
    IsSound (.single key value) :=
  isSound_object (List.nodup_singleton key) (List.forall_mem_singleton.2 h)

theorem isSound_item {p : Part} : ∀ j ∈ item? mode p, IsSound j := by
  intro j hj
  cases p with
  | text t =>
    rw [item?] at hj
    split_ifs at hj
    · exact absurd hj (Option.not_mem_none j)
    · rw [← Option.some.inj hj]
      exact isSound_single "text" (isSound_string _)
  | translate key arguments =>
    rw [← Option.some.inj hj, translateObject]
    split_ifs
    · exact isSound_single "translate" (isSound_string _)
    · refine isSound_object (by simp) (List.forall_mem_cons.2 ⟨isSound_string _,
        List.forall_mem_singleton.2 (isSound_single "rawtext" (isSound_array ?_))⟩)
      exact List.forall_mem_map.2 fun t _ => isSound_single "text" (isSound_string _)
  | score name objective =>
    rw [← Option.some.inj hj]
    exact ⟨(JavaMessage.isComponent_scoreObject name objective).whole,
      Json.distinctKeys_single "score" (JavaMessage.distinctKeys_score name objective)⟩
  | selector conversion separator =>
    rw [← Option.some.inj hj]
    exact isSound_single "selector" (isSound_string _)

/-- A message is printed without loss and repeats no key. -/
theorem isSound_ofParts (mode : MnMode) (ps : List Part) : IsSound (ofParts mode ps) := by
  refine isSound_single "rawtext" (isSound_array ?_)
  unfold items
  split
  · exact List.forall_mem_singleton.2 (isSound_single "text" (isSound_string []))
  · next found hfound =>
    intro j hj
    obtain ⟨p, -, hp⟩ := List.mem_filterMap.1 hj
    exact isSound_item j hp

/-- The item of a part holds its entry. -/
theorem entryOf?_item (mode : MnMode) (p : Part) :
    (item? mode p).bind (Json.entryOf? rawtextArguments) = p.entryOf? Conversion.bedrock := by
  cases p with
  | text t =>
    rw [item?]
    split_ifs <;> rfl
  | translate key arguments =>
    rw [item?, Option.bind_some, translateObject]
    by_cases h : arguments = []
    · rw [if_pos h, h]
      rfl
    · have hwith : ∀ shown : Json, (Json.object [("translate", shown), ("with", .single "rawtext"
          (.array (arguments.map (textObject mode))))]).entryOf? rawtextArguments =
            some (.translate (arguments.map (textObject mode)).length) := fun _ => rfl
      rw [if_neg h, hwith, List.length_map]
      rfl
  | score name objective => rfl
  | selector conversion separator => rfl

/-- The entries of a message are its parts. -/
theorem rawtextEntries_ofParts (mode : MnMode) (ps : List Part) :
    (ofParts mode ps).rawtextEntries = ps.filterMap (Part.entryOf? Conversion.bedrock) := by
  have hitems : (ofParts mode ps).rawtextEntries =
      (items mode ps).filterMap (Json.entryOf? rawtextArguments) := rfl
  have hfound : (ps.filterMap (item? mode)).filterMap (Json.entryOf? rawtextArguments) =
      ps.filterMap (Part.entryOf? Conversion.bedrock) := by
    rw [List.filterMap_filterMap]
    exact List.filterMap_congr fun p _ => entryOf?_item mode p
  rw [hitems, ← hfound, items]
  split
  · next h =>
    rw [h]
    rfl
  · rfl

theorem encode_value (settings : Settings) (cs : List Component) :
    (encode settings cs).value.1 =
      (ofParts settings.mnMode (Part.ofComponents settings cs).value).print := by
  simp only [encode, Noted.value_bind]
  split_ifs <;> rfl

end BedrockMessage

/-! ## Both messages -/

/-- The entries that the two editions have for one part. -/
inductive Counterparts (settings : Settings) : ChatEntry → ChatEntry → Prop
  | translate (arguments : Nat) :
      Counterparts settings (.translate arguments) (.translate arguments)
  | score (name objective : Text) : Counterparts settings
      (.score (some name) (some objective)) (.score (some name) (some objective))
  /-- The two sides of one conversion. -/
  | selector {t : Text} {conversion : Conversion}
      (h : (Selector.convertDetected settings t).value = conversion) :
      Counterparts settings (.selector (some conversion.java)) (.selector (some conversion.bedrock))

/-- A selector among the parts of a component is the conversion of some text. -/
theorem Part.exists_convertDetected {settings : Settings} {component : Component}
    {c : Conversion} {separator : Option Text}
    (h : selector c separator ∈ (ofComponent settings component).value) :
    ∃ t, (Selector.convertDetected settings t).value = c := by
  unfold ofComponent at h
  cases hk : component.kind with
  | text => simp [hk] at h
  | translate => simp [hk] at h
  | score =>
    cases hs : Entry.scores component.content with
    | nil => simp [hk, hs] at h
    | cons => simp [hk, hs] at h
  | selector =>
    simp only [hk, Noted.value_bind] at h
    split at h
    · exact absurd (List.mem_singleton.1 h) (by simp)
    · rw [Noted.value_all, List.map_map] at h
      obtain ⟨⟨t, _⟩, -, ht⟩ := List.mem_map.1 h
      exact ⟨t, (Part.selector.inj ht).1⟩

theorem Part.mem_ofComponents {settings : Settings} {cs : List Component} {p : Part} :
    p ∈ (ofComponents settings cs).value ↔ ∃ c ∈ cs, p ∈ (ofComponent settings c).value := by
  induction cs with
  | nil => simp [ofComponents]
  | cons c cs ih => rw [ofComponents_cons, List.mem_append, ih, List.exists_mem_cons_iff]

theorem Part.forall₂_entries {settings : Settings} {ps : List Part}
    (h : ∀ c separator, selector c separator ∈ ps →
      ∃ t, (Selector.convertDetected settings t).value = c) :
    List.Forall₂ (Counterparts settings) (ps.filterMap (entryOf? Conversion.java))
      (ps.filterMap (entryOf? Conversion.bedrock)) := by
  induction ps with
  | nil => exact .nil
  | cons p ps ih =>
    have hrest := ih fun c separator hc => h c separator (List.mem_cons_of_mem p hc)
    cases p with
    | text t => exact hrest
    | translate key arguments => exact .cons (.translate arguments.length) hrest
    | score name objective => exact .cons (.score name objective) hrest
    | selector c separator =>
      obtain ⟨t, ht⟩ := h c separator (List.mem_cons_self ..)
      exact .cons (.selector ht) hrest

/-- Both messages are read back, and no object in them has a key twice. What of them is no text
    corresponds one by one, and it is all that the parts of the message hold. -/
theorem counterparts_encode (settings : Settings) (cs : List Component) :
    ∃ java bedrock, Json.read (JavaMessage.encode settings cs).value.1 = .ok java ∧
      Json.read (BedrockMessage.encode settings cs).value.1 = .ok bedrock ∧
      java.DistinctKeys ∧ bedrock.DistinctKeys ∧
      List.Forall₂ (Counterparts settings) java.chatEntries bedrock.rawtextEntries ∧
      java.chatEntries.length =
        (Part.ofComponents settings cs).value.countP fun p => (JavaMessage.text? p).isNone := by
  obtain ⟨hwhole, hkeys⟩ := BedrockMessage.isSound_ofParts settings.mnMode
    (Part.ofComponents settings cs).value
  refine ⟨_, _, Json.read_print (JavaMessage.isComponent_ofParts settings.mnMode _).whole,
    (congrArg Json.read (BedrockMessage.encode_value settings cs)).trans (Json.read_print hwhole),
    JavaMessage.distinctKeys_ofParts _ _, hkeys, ?_, ?_⟩
  · rw [JavaMessage.chatEntries_ofParts, BedrockMessage.rawtextEntries_ofParts]
    refine Part.forall₂_entries fun c separator hc => ?_
    obtain ⟨component, -, hc⟩ := Part.mem_ofComponents.1 hc
    exact Part.exists_convertDetected hc
  · rw [JavaMessage.chatEntries_ofParts, List.length_filterMap_eq_countP]
    simp only [Part.isSome_entryOf?]

end CrossEdition
