import CrossEdition.Proofs.Adaptation.Idempotence
import CrossEdition.Proofs.Item.RoundTrip
import CrossEdition.Proofs.Snbt.Nesting

/-!
# Items converted to Java and back

A selector that looks for items only is taken over to Java as `nbt` parameters, one for the
inventory and one for the equipment, and what Bedrock makes of these is one `hasitem`
parameter again. Both ways the parameters are texts, so they hold printed trees that are found
again in the parameter list.

Results:
* `toJava_hasitem`, `toBedrock_nbt`: the stages that convert items are all that happens.
* `hasitem_roundTrip`: clauses that both editions can express come back, the worn ones last.
-/

namespace CrossEdition

/-! ## Parameters that hold trees -/

/-- A parameter that holds a printed tree. -/
inductive Parameter.HoldsTree : Parameter → Prop
  | mk {name : Text} {sep : Char} {tag : Tag} (hk : IsKeyword name) (hs : isInert sep = true)
      (hb : tag.IsBranch) (hc : Snbt.ClosedValues tag) :
      HoldsTree (.ofTexts name (Snbt.print sep tag))

namespace Parameter

variable {p : Parameter}

theorem HoldsTree.wellFormed (h : p.HoldsTree) : p.WellFormed isSeparator := by
  cases h with
  | @mk name sep tag hk hs hb hc =>
    refine wellFormed_of_isKeyword separates_isSeparator hk ?_
    rw [Snbt.trim_print sep hb]
    exact Snbt.closed_print hs tag hc

theorem HoldsTree.reread (h : p.HoldsTree) : p.reread = p := by
  cases h with
  | @mk name sep tag hk hs hb hc =>
    have hread := Value.read_print sep hb
    rw [ofTexts, Parameter.reread, hread, Value.reread, Value.text, hread]

end Parameter

namespace Selector

variable {s : Selector} {v : Variable} {ps : List Parameter}

/-- A selector with such parameters is read back from its text. -/
theorem read_text_of_holdsTree (hv : v ∈ Variable.known) (h : ∀ p ∈ ps, p.HoldsTree) :
    read (Selector.mk v ps).text = pure ⟨v, ps⟩ := by
  have hw : (Selector.mk v ps).WellFormed isSeparator :=
    ⟨Variable.readable_of_known hv, fun p hp => (h p hp).wellFormed⟩
  have hreread : ps.map Parameter.reread = ps := by
    rw [List.map_congr_left fun p hp => (h p hp).reread, List.map_id']
  rw [hw.read_text (by decide) (by decide), Selector.reread]
  simp only [hreread]

/-! ## Stages -/

/-- Of a selector that looks for items only, Java gets the compounds that look for them. -/
theorem toJava_hasitem (hh : s.head.isBedrockOnly = false) (hne : s.parameters ≠ [])
    (h : ∀ p ∈ s.parameters, p.name = "hasitem") : (toJava s).value = { s with
      parameters := (Item.toNbt ((s.values "hasitem").map Value.text)).value.map
        (.ofTexts "nbt") } := by
  have hname : Dialect.dropReason? "hasitem" .java = none ∧ ("hasitem" : Text) ≠ "m" ∧
      ("hasitem" : Text) ≠ "c" ∧ ∀ pair ∈ rangePairs, ("hasitem" : Text) ≠ pair.min ∧
        ("hasitem" : Text) ≠ pair.max := by
    decide
  obtain ⟨hd, hm, hc, hp⟩ := hname
  have h₁ : replaceVariable s = pure s := by
    rw [replaceVariable, if_neg (by rw [hh]; exact Bool.false_ne_true)]
  have h₂ : dropExclusive .java s = pure s := dropExclusive_of_none fun p hp => by rw [h p hp, hd]
  have h₃ : rangePairs.foldl (fun s pair => s.joinRange pair) s = s := by
    refine foldl_joinRange_eq_self fun p hq pair hpair => ?_
    obtain ⟨hmin, hmax⟩ := hp pair hpair
    simp only [isBound, h p hq, hmin, hmax, decide_false, Bool.or_self, Bool.false_and]
  have h₄ : displace gamemodeOfMode s = pure s :=
    displace_eq_pure fun p hp => gamemodeOfMode_of_ne (by rw [h p hp]; exact hm)
  have h₅ : splitCount s = pure s :=
    splitCount_of_nil (Parameter.valuesOf_eq_nil_iff.2 fun p hp => by rw [h p hp]; exact hc)
  have hhas : s.has "hasitem" = true := by
    obtain ⟨p, hp⟩ := List.exists_mem_of_ne_nil _ hne
    exact has_iff.2 ⟨p, hp, h p hp⟩
  have herase : (s.erase "hasitem").parameters = [] :=
    List.filter_eq_nil_iff.2 fun p hp => by simp [h p hp]
  have h₆ : (itemsToNbt s).value = { s with
      parameters := (Item.toNbt ((s.values "hasitem").map Value.text)).value.map
        (.ofTexts "nbt") } := by
    rw [itemsToNbt, if_pos hhas, Noted.value_bind, Noted.value_pure, append, herase]
    rfl
  have h₇ : (displace positiveScores (itemsToNbt s).value).value = (itemsToNbt s).value := by
    refine displace_eq_self fun p hp => positiveScores_value.2 fun hs => ?_
    rw [h₆] at hp
    obtain ⟨t, -, rfl⟩ := List.mem_map.1 hp
    exact absurd hs.1 (show ¬ ("nbt" : Text) = "scores" by decide)
  rw [h₆] at h₇
  simp only [toJava, h₁, h₂, h₃, h₄, h₅, Noted.pure_bind, Noted.value_bind, h₆, h₇]

/-- Of a selector that holds `nbt` only, Bedrock gets the items that are found in it, if all of
    it says something. -/
theorem toBedrock_nbt {found : List Item.Findings} (h : ∀ p ∈ s.parameters, p.name = "nbt")
    (hf : s.parameters.map (fun p => (findingsOf p).value) = found.map some) :
    (toBedrock s).value = { s with
      parameters := (ItemClause.parameter? (found.flatMap (·.items))).toList
        ++ found.flatMap (·.extras) } := by
  have hname : Dialect.dropReason? "nbt" .bedrock = none ∧ ("nbt" : Text) ≠ "gamemode" ∧
      ("nbt" : Text) ≠ "sort" ∧ ("nbt" : Text) ≠ "limit" ∧
      ∀ pair ∈ rangePairs, ("nbt" : Text) ≠ pair.java := by
    decide
  obtain ⟨hd, hg, hs, hl, hp⟩ := hname
  have h₁ : dropExclusive .bedrock s = pure s :=
    dropExclusive_of_none fun p hp => by rw [h p hp, hd]
  have h₂ : (rangePairs.foldlM (fun (s : Selector) pair => s.splitRange pair) s).value = s := by
    refine foldlM_splitRange_eq_self fun p hq pair hpair => ?_
    rw [splitRule_value, if_neg (by rw [h p hq]; exact hp pair hpair)]
  have h₃ : displace modeOfGamemode s = pure s :=
    displace_eq_pure fun p hp => modeOfGamemode_of_ne (by rw [h p hp]; exact hg)
  have h₄ : joinLimit s = pure s :=
    joinLimit_of_nil (Parameter.valuesOf_eq_nil_iff.2 fun p hp => by rw [h p hp]; exact hs)
      (Parameter.valuesOf_eq_nil_iff.2 fun p hp => by rw [h p hp]; exact hl)
  have hkept : s.parameters.filter (fun p => (findingsOf p).value.isNone) = [] := by
    refine List.filter_eq_nil_iff.2 fun p hp => ?_
    have hm := List.mem_map_of_mem (f := fun p => (findingsOf p).value) hp
    rw [hf] at hm
    obtain ⟨f, -, hv⟩ := List.mem_map.1 hm
    simp [← hv]
  have hfound : s.parameters.filterMap (fun p => (findingsOf p).value) = found := by
    have hid := congrArg (List.filterMap id) hf
    simpa [List.filterMap_map, Function.comp_def] using hid
  have h₅ : (gatherItems s).value = { s with
      parameters := (ItemClause.parameter? (found.flatMap (·.items))).toList
        ++ found.flatMap (·.extras) } := by
    simp only [gatherItems, hkept, hfound, List.nil_append]
  simp only [toBedrock, h₁, h₂, h₃, h₄, h₅, Noted.pure_bind, Noted.value_bind]

/-! ## There and back -/

variable {cs : List ItemClause} {asHull : Bool}

/-- Nothing merges if the repetition of each name has a meaning. -/
theorem adapt_of_keepAll {target : Dialect} {r : Selector}
    (hs : ∀ p ∈ s.parameters, mergeRule p.name = .keepAll) (hr : (inTerms target s).value = r)
    (hk : ∀ p ∈ r.parameters, mergeRule p.name = .keepAll) :
    (adapt target asHull s).value = r := by
  have hmerge : ∀ s : Selector, (∀ p ∈ s.parameters, mergeRule p.name = .keepAll) →
      s.mergeDuplicates asHull = s := fun s h =>
    congrArg (Selector.mk s.head) (Parameter.mergeDuplicates_eq_self fun p hp =>
      Parameter.mergedValue?_of_keepAll (h p hp))
  rw [adapt_eq, hmerge s hs, Noted.value_bind, hr, Noted.value_pure, hmerge r hk]

/-- The selector that looks for clauses in Bedrock. -/
def lookingFor (tag : Tag) : Selector :=
  ⟨.allPlayers, [.ofTexts "hasitem" (Snbt.print '=' tag)]⟩

/-- The selector that looks for the items of clauses in Java. -/
def lookingInData (cs : List ItemClause) : Selector :=
  ⟨.allPlayers, (Item.trees cs).map fun tag => .ofTexts "nbt" (Snbt.print ':' tag)⟩

theorem isBranch_of_mem_trees {tag : Tag} (h : tag ∈ Item.trees cs) : tag.IsBranch := by
  rcases List.mem_append.1 h with h | h
  · split_ifs at h
    · simp at h
    · rw [List.mem_singleton.1 h]
      trivial
  · split_ifs at h
    · simp at h
    · rw [List.mem_singleton.1 h]
      trivial

theorem holdsTree_lookingFor {tag : Tag} (hb : tag.IsBranch) (hc : Snbt.ClosedValues tag) :
    ∀ p ∈ (lookingFor tag).parameters, p.HoldsTree := by
  intro p hp
  rw [List.mem_singleton.1 hp]
  exact .mk (by decide) (by decide) hb hc

/-- Portable clauses in Java's terms. -/
theorem adapt_lookingFor (h : ∀ c ∈ cs, c.Portable) :
    (adapt .java asHull (lookingFor (.list (cs.map ItemClause.tag)))).value = lookingInData cs := by
  have hnames : mergeRule "hasitem" = .keepAll ∧ mergeRule "nbt" = .keepAll := by
    decide
  have hvalues : ((lookingFor (.list (cs.map ItemClause.tag))).values "hasitem").map Value.text =
      [Snbt.print '=' (.list (cs.map ItemClause.tag))] := by
    rw [values, lookingFor, Parameter.valuesOf_cons, Parameter.name_ofTexts, if_pos rfl,
      List.map_cons, Parameter.value_ofTexts, Value.read_print '=' (show (Tag.list _).IsBranch from trivial)]
    rfl
  refine adapt_of_keepAll (fun p hp => ?_) ?_ fun p hp => ?_
  · rw [List.mem_singleton.1 hp]
    exact hnames.1
  · rw [inTerms, toJava_hasitem rfl (by simp [lookingFor]) (by simp [lookingFor]), hvalues,
      Item.toNbt_of_portable h, List.map_map]
    rfl
  · obtain ⟨tag, -, rfl⟩ := List.mem_map.1 hp
    exact hnames.2

/-- The clauses that are not worn in front of those that are. -/
def wornLast (cs : List ItemClause) : List ItemClause :=
  cs.filter (fun c => !Item.isWorn c) ++ cs.filter Item.isWorn

theorem mem_wornLast {c : ItemClause} : c ∈ wornLast cs ↔ c ∈ cs := by
  cases hw : Item.isWorn c <;> simp [wornLast, hw]

/-- The items of portable clauses in Bedrock's terms. -/
theorem adapt_lookingInData (h : ∀ c ∈ cs, c.Portable)
    (hd : ((cs.filter Item.isWorn).map (·.location)).Nodup) (hne : cs ≠ []) :
    (adapt .bedrock asHull (lookingInData cs)).value =
      lookingFor (ItemClause.tagOf (wornLast cs)) := by
  have hnames : mergeRule "hasitem" = .keepAll ∧ mergeRule "nbt" = .keepAll := by
    decide
  have hnew : wornLast cs ≠ [] := by
    obtain ⟨c, hc⟩ := List.exists_mem_of_ne_nil _ hne
    exact List.ne_nil_of_mem (mem_wornLast.2 hc)
  obtain ⟨found, hf, hitems, hextras⟩ := Item.findings?_trees h hd
  refine adapt_of_keepAll (fun p hp => ?_) ?_ fun p hp => ?_
  · obtain ⟨tag, -, rfl⟩ := List.mem_map.1 hp
    exact hnames.2
  · have hnbt : ∀ p ∈ (lookingInData cs).parameters, p.name = "nbt" := by
      intro p hp
      obtain ⟨tag, -, rfl⟩ := List.mem_map.1 hp
      rfl
    have hfound : (lookingInData cs).parameters.map (fun p => (findingsOf p).value) =
        found.map some := by
      rw [← hf, lookingInData, List.map_map]
      refine List.map_congr_left fun tag ht => ?_
      rw [Function.comp, Parameter.ofTexts, Value.read_print ':' (isBranch_of_mem_trees ht),
        findingsOf_compound]
    rw [inTerms, toBedrock_nbt hnbt hfound, hitems, hextras, List.append_nil, ← wornLast,
      ItemClause.parameter?_eq_print hnew]
    rfl
  · rw [List.mem_singleton.1 hp]
    exact hnames.1

theorem closed_list (h : ∀ c ∈ cs, c.Portable) :
    Snbt.ClosedValues (.list (cs.map ItemClause.tag)) :=
  Snbt.closedItems_iff.2 fun tag ht => by
    obtain ⟨c, hc, rfl⟩ := List.mem_map.1 ht
    exact (h c hc).closed

theorem closed_tagOf (h : ∀ c ∈ cs, c.Portable) : Snbt.ClosedValues (ItemClause.tagOf cs) := by
  match cs with
  | [c] => exact (h c (by simp)).closed
  | [] => exact closed_list h
  | _ :: _ :: _ => exact closed_list h

theorem text_lookingFor {tag : Tag} (hb : tag.IsBranch) :
    (lookingFor tag).text = "@a[hasitem=" ++ Snbt.print '=' tag ++ "]" := by
  have hopen : ("@a[hasitem=" : Text) = "@a" ++ '[' :: ("hasitem" ++ ['=']) := by
    decide
  have hclose : ("]" : Text) = [']'] := by
    decide
  have htext : (lookingFor tag).list = "hasitem" ++ '=' :: Snbt.print '=' tag := by
    show ("hasitem" : Text) ++ '=' :: (Value.read (Snbt.print '=' tag)).text = _
    rw [Value.read_print '=' hb, Value.text]
  rw [text_eq (by simp [lookingFor]), htext, hopen, hclose]
  show ("@a" : Text) ++ _ = _
  simp only [List.append_assoc, List.cons_append, List.nil_append]

theorem print_list (cs : List ItemClause) :
    Snbt.print '=' (.list (cs.map ItemClause.tag)) =
      "[" ++ Text.join "," (cs.map ItemClause.text) ++ "]" := by
  have htext : Snbt.print '=' ∘ ItemClause.tag = ItemClause.text :=
    funext fun c => (ItemClause.text_eq_print c).symm
  rw [Snbt.print, Snbt.printItems_eq_join, List.map_map, htext]
  rfl

/-- Clauses that both editions can express come back from Java with the same items, locations
    and slots, those of worn items behind the others. No two of them may be worn at the same
    place. -/
theorem hasitem_roundTrip (settings settings' : Settings) (h : ∀ c ∈ cs, c.Portable)
    (hne : cs ≠ []) (hd : ((cs.filter Item.isWorn).map (·.location)).Nodup) :
    let t : Text := "@a[hasitem=[" ++ Text.join "," (cs.map ItemClause.text) ++ "]]"
    let back := (filter .bedrock settings' (filter .java settings t).value).value
    ∃ p : Parameter, (read back).value = ⟨.allPlayers, [p]⟩ ∧ p.name = "hasitem" ∧
      (Item.clauses p.value.text).value.map ItemClause.ofEntries? = (wornLast cs).map some := by
  intro t back
  have hlast : ∀ c ∈ wornLast cs, c.Portable := fun c hc => h c (mem_wornLast.1 hc)
  have ht : t = (lookingFor (.list (cs.map ItemClause.tag))).text := by
    have hopen : ("@a[hasitem=[" : Text) = "@a[hasitem=" ++ "[" := by
      decide
    have hclose : ("]]" : Text) = "]" ++ "]" := by
      decide
    show ("@a[hasitem=[" : Text) ++ _ ++ "]]" = _
    rw [text_lookingFor (show (Tag.list _).IsBranch from trivial), print_list, hopen, hclose]
    simp only [List.append_assoc]
  have hread : read t = pure (lookingFor (.list (cs.map ItemClause.tag))) := by
    rw [ht]
    exact read_text_of_holdsTree (by decide) (holdsTree_lookingFor trivial (closed_list h))
  have hreadJava : read (lookingInData cs).text = pure (lookingInData cs) := by
    refine read_text_of_holdsTree (by decide) fun p hp => ?_
    obtain ⟨tag, htag, rfl⟩ := List.mem_map.1 hp
    exact .mk (by decide) (by decide) (isBranch_of_mem_trees htag) (Item.closed_of_mem_trees htag)
  have hback : back = (lookingFor (ItemClause.tagOf (wornLast cs))).text := by
    show (filter .bedrock settings' (filter .java settings t).value).value = _
    rw [filter_value, filter_value, hread, Noted.value_pure, adapt_lookingFor h, hreadJava,
      Noted.value_pure, adapt_lookingInData h hd hne]
  have hnew : wornLast cs ≠ [] := by
    obtain ⟨c, hc⟩ := List.exists_mem_of_ne_nil _ hne
    exact List.ne_nil_of_mem (mem_wornLast.2 hc)
  refine ⟨.ofTexts "hasitem" (Snbt.print '=' (ItemClause.tagOf (wornLast cs))), ?_, rfl, ?_⟩
  · have hreadBack := read_text_of_holdsTree (v := .allPlayers) (by decide)
      (holdsTree_lookingFor (ItemClause.isBranch_tagOf _) (closed_tagOf hlast))
    rw [hback]
    exact congrArg Noted.value hreadBack
  · rw [Parameter.value_ofTexts, Value.read_print '=' (ItemClause.isBranch_tagOf _), Value.text,
      ItemClause.clauses_print hnew fun c hc =>
        ⟨(hlast c hc).fieldsAreWords, (hlast c hc).item.isWord⟩, Noted.value_pure, List.map_map]
    exact List.map_congr_left fun c _ => ItemClause.ofEntries?_fields c

/-- A worn item in front, a namespace, and the last slot. -/
theorem hasitem_roundTrip_worn_first :
    let cs : List ItemClause := [⟨"helmet", none, some "slot.armor.head", none⟩,
      ⟨"mod:blade", none, some Item.mainhand, none⟩,
      ⟨"egg", none, some Item.inventory, some (Text.ofNat (2 ^ 53))⟩]
    let t : Text := "@a[hasitem=[" ++ Text.join "," (cs.map ItemClause.text) ++ "]]"
    let java := (filter .java .standard t).value
    let back := (filter .bedrock .standard java).value
    java = "@a[nbt=\x7bInventory:[\x7bSlot:0b,id:\"mod:blade\"\x7d,\x7bSlot:9007199254740992b,"
        ++ "id:\"minecraft:egg\"\x7d]\x7d,"
        ++ "nbt=\x7bequipment:\x7bhead:\x7bid:\"minecraft:helmet\"\x7d\x7d\x7d]" ∧
      ∃ p : Parameter, (read back).value = ⟨.allPlayers, [p]⟩ ∧ p.name = "hasitem" ∧
        (Item.clauses p.value.text).value.map ItemClause.ofEntries? = (wornLast cs).map some := by
  intro cs t java back
  have h : ∀ c ∈ cs, c.Portable := by
    refine List.forall_mem_cons.2 ⟨⟨rfl, by decide, ?_⟩, List.forall_mem_cons.2
      ⟨⟨rfl, by decide, .mainhand⟩, List.forall_mem_singleton.2
        ⟨rfl, by decide, .inventory (by decide)⟩⟩⟩
    exact @Item.IsPlace.worn ("head", "slot.armor.head") (by decide)
  exact ⟨by decide +kernel,
    hasitem_roundTrip .standard .standard h (List.cons_ne_nil _ _) (by decide +kernel)⟩

end Selector

end CrossEdition
