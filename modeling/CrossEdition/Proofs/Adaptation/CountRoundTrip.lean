import CrossEdition.Proofs.Adaptation.Counts

/-!
# Limits and orders to Bedrock and back

A limit with an order and a count say the same: the sign of the count is the order. Going to
the other edition and back keeps both, however the number is spelled, up to one spelling: the
minus sign for the furthest is put in front of the limit as it is written, and in front of a
plus sign it makes no number.

Results:
* `value?_countText`: the count that is written for a limit and an order.
* `Picking.adapt_bedrock`: Bedrock has one count for a limit and an order.
* `Picking.adapt_java`: Java has a limit and an order for one count.
* `count_roundTrip`: what comes back, in both directions.
-/

namespace CrossEdition

namespace Selector

variable {s : Selector} {v : Variable} {limit order t : Text} {count : Value} {k : Nat} {n : Int}

/-! ## Counts in writing -/

/-- The order that the sign of a count stands for. -/
def orderOf (n : Int) : Text :=
  if n < 0 then "furthest" else "nearest"

theorem isPositiveCount_of_value (h : Numeral.value? t = some (.ofInt k)) (hk : 0 < k)
    (hlt : k ≤ 2 ^ 53) : isPositiveCount t = true :=
  isPositiveCount_iff.2 ⟨_, h, Double.one_le_ofInt hk hlt,
    Double.isWhole_ofInt (by rwa [Int.natAbs_natCast])⟩

theorem exists_value_of_isPositiveCount (h : isPositiveCount t = true)
    (hlt : ∀ x ∈ Numeral.value? t, x.lt (.ofInt (2 ^ 53)) = true) :
    ∃ k : Nat, 0 < k ∧ k < 2 ^ 53 ∧ Numeral.value? t = some (.ofInt k) := by
  obtain ⟨x, hx, hone, hw⟩ := isPositiveCount_iff.1 h
  obtain ⟨k, hk, hk', he⟩ := Double.exists_eq_ofInt hw hone (hlt x hx)
  exact ⟨k, hk, hk', by rw [hx, he]⟩

/-- The count that is written for a limit and an order has the magnitude of the limit and the
    sign of the order, unless it is no number. -/
theorem value?_countText (h : Numeral.value? limit = some (.ofInt k)) (hk : 0 < k)
    (hlt : k ≤ 2 ^ 53) (hnum : ¬(order = "furthest" ∧ (Text.trim limit).head? = some '+')) :
    Numeral.value? (countText limit order) =
      some (.ofInt (if order = "furthest" then -k else k)) := by
  have hle : (k : Int).natAbs ≤ 2 ^ 53 := by
    rwa [Int.natAbs_natCast]
  obtain ⟨a, ha, hpos⟩ := exists_scaled_of_isPositiveCount (isPositiveCount_of_value h hk hlt)
  obtain ⟨hminus, hplus⟩ := Numeral.head_normalize ha hpos
  have hn := Numeral.isNumeral_normalize (Numeral.isNumeral_trim h)
  have hs : Numeral.scaled? (Numeral.normalize limit) = some ((k : Int) * (unitsPerOne : Int)) := by
    rw [Numeral.scaled_normalize, Numeral.scaled?, h, Option.bind_some, Double.scaled?_ofInt hle]
  have hv : Numeral.value? (Numeral.normalize limit) = some (.ofInt k) := by
    obtain ⟨x, hx, hsx⟩ := Option.bind_eq_some_iff.1 hs
    rw [hx, Double.eq_ofInt_of_scaled hsx (by omega) hle]
  rw [countText]
  split_ifs with ho
  · rw [(Numeral.value?_minus hn ⟨hminus, fun hh => hnum ⟨ho, hplus.1 hh⟩⟩).2, hv, Option.map_some,
      Double.neg_ofInt hle (by omega)]
  · exact hv

theorem reread_countText (h : isPositiveCount limit = true) (order : Text) :
    (Value.read (countText limit order)).reread = .read (countText limit order) := by
  refine congrArg Value.read ?_
  rw [read_countText h]
  split_ifs <;> rfl

/-! ## Selectors with a limit or a count -/

/-- A selector with these limits, orders and counts. -/
structure Picking (limits sorts counts : List Value) (s : Selector) : Prop where
  limit : s.values "limit" = limits
  sort : s.values "sort" = sorts
  c : s.values "c" = counts

namespace Picking

variable {limits sorts counts : List Value}

theorem mergeDuplicates (h : Picking limits sorts counts s) (asHull : Bool)
    (hone : limits.length ≤ 1 ∧ sorts.length ≤ 1 ∧ counts.length ≤ 1) :
    Picking limits sorts counts (s.mergeDuplicates asHull) := by
  have hsame : ∀ {name : Text} {vs : List Value}, s.values name = vs → vs.length ≤ 1 →
      (s.mergeDuplicates asHull).values name = vs := by
    rintro name vs rfl hlen
    exact values_mergeDuplicates_of_length_le asHull hlen
  exact ⟨hsame h.limit hone.1, hsame h.sort hone.2.1, hsame h.c hone.2.2⟩

theorem reread (h : Picking limits sorts counts s) :
    Picking (limits.map Value.reread) (sorts.map Value.reread) (counts.map Value.reread)
      s.reread := by
  refine ⟨?_, ?_, ?_⟩
  · rw [values_reread, h.limit]
  · rw [values_reread, h.sort]
  · rw [values_reread, h.c]

/-- What one stage for each dialect makes is not repeated, so that the last merge does not
    matter to it. -/
theorem of_inTerms {target : Dialect} {asHull : Bool}
    (h : Picking limits sorts counts (inTerms target (s.mergeDuplicates asHull)).value)
    (hone : limits.length ≤ 1 ∧ sorts.length ≤ 1 ∧ counts.length ≤ 1) :
    Picking limits sorts counts (adapt target asHull s).value := by
  rw [adapt_value]
  exact h.mergeDuplicates asHull hone

/-- Values that are read as they are stay as they are. -/
theorem reread_eq (h : Picking limits sorts counts s)
    (hv : ∀ v ∈ limits ++ sorts ++ counts, v.reread = v) :
    Picking limits sorts counts s.reread := by
  have hsame : ∀ {vs : List Value}, (∀ v ∈ vs, v.reread = v) → vs.map Value.reread = vs :=
    fun hvs => (List.map_congr_left hvs).trans (List.map_id _)
  simp only [List.mem_append] at hv
  have hr := h.reread
  rwa [hsame fun v hm => hv v (.inl (.inl hm)), hsame fun v hm => hv v (.inl (.inr hm)),
    hsame fun v hm => hv v (.inr hm)] at hr

/-- Bedrock has one count for a limit and an order. -/
theorem adapt_bedrock (h : Picking [.scalar limit] [.literal order] [] s)
    (hp : isPositiveCount limit = true) (ho : order = "nearest" ∨ order = "furthest")
    (asHull : Bool) :
    Picking [] [] [.read (countText limit order)] (adapt .bedrock asHull s).value ∧
      (adapt .bedrock asHull s).value.head = s.head := by
  have hm := h.mergeDuplicates asHull (by simp)
  have hpick := pickOf_ordered hm.limit hp hm.sort ho
  have hr : Picking [] [] [.read (countText limit order)]
      (toBedrock (s.mergeDuplicates asHull)).value := by
    refine ⟨values_pick_toBedrock (.inr rfl) _, values_pick_toBedrock (.inl rfl) _, ?_⟩
    rw [values_c_toBedrock, hm.c, hpick]
    rfl
  have hhead : (toBedrock (s.mergeDuplicates asHull)).value.head = s.head := by
    rw [head_toBedrock_eq, hpick]
    rfl
  exact ⟨of_inTerms hr (by simp), (head_adapt_eq ..).trans hhead⟩

/-- Java has a limit and an order for one count. -/
theorem adapt_java (h : Picking [] [] [.scalar t] s) (hv : Numeral.value? t = some (.ofInt n))
    (hn : n ≠ 0) (hlt : n.natAbs < 2 ^ 53) (hhead : s.head ≠ .randomPlayer) (asHull : Bool) :
    Picking [.scalar (Text.ofInt n.natAbs)] [.literal (orderOf n)] []
      (adapt .java asHull s).value := by
  have hm := h.mergeDuplicates asHull (by simp)
  have hle := Nat.le_of_lt hlt
  have hzero : (Double.ofInt n).compare? (.zero false) ≠ some .eq := by
    rw [Double.compare?_ofInt_zero hle, ne_eq, Option.some.injEq,
      Std.LawfulEqCmp.compare_eq_iff_eq]
    exact hn
  have hsign : (Double.ofInt n).lt (.zero false) = true ↔ n < 0 := by
    rw [Double.lt, Double.compare?_ofInt_zero hle, decide_eq_true_iff, Option.some.injEq,
      compare_lt_iff_lt]
  obtain ⟨hlimit, hsort⟩ := valuesOf_picksOf (s := s.mergeDuplicates asHull)
    ((value?_greatest_count hm.c).trans hv) hzero
  rw [Double.abs_ofInt hle, Double.text_ofInt (by rwa [Int.natAbs_natCast]),
    Value.read_of_isNumeral (Numeral.isNumeral_ofInt _)] at hlimit
  have horder : Parameter.valuesOf "sort" (picksOf (s.mergeDuplicates asHull)) =
      [.literal (orderOf n)] := by
    rw [hsort, orderOf, show (s.mergeDuplicates asHull).head = s.head from rfl, if_neg hhead]
    simp only [hsign]
    split_ifs <;> rfl
  have hr : Picking [.scalar (Text.ofInt n.natAbs)] [.literal (orderOf n)] []
      (toJava (s.mergeDuplicates asHull)).value := by
    refine ⟨?_, ?_, values_c_toJava _⟩
    · rw [values_pick_toJava (.inl rfl), hm.limit, hlimit]
      rfl
    · rw [values_pick_toJava (.inr rfl), hm.sort, horder]
      rfl
  exact of_inTerms hr (by simp)

/-- Java has neither limits nor orders for a count that is no number. -/
theorem adapt_java_of_literal {u : Text} (h : Picking [] [] [.literal u] s) (asHull : Bool) :
    Picking [] [] [] (adapt .java asHull s).value := by
  have hm := h.mergeDuplicates asHull (by simp)
  have hpicks : picksOf (s.mergeDuplicates asHull) = [] := by
    refine picksOf_eq_nil fun x hx => ?_
    rw [numerals, hm.c] at hx
    exact absurd hx (Option.not_mem_none x)
  have hr : Picking [] [] [] (toJava (s.mergeDuplicates asHull)).value := by
    refine ⟨?_, ?_, values_c_toJava _⟩
    · rw [values_pick_toJava (.inl rfl), hm.limit, hpicks]
      rfl
    · rw [values_pick_toJava (.inr rfl), hm.sort, hpicks]
      rfl
  exact of_inTerms hr (by simp)

end Picking

/-! ## There and back -/

/-- A number in writing holds no marks and no commas, also in the blanks around it. -/
theorem inert_of_value? {x : Double} (h : Numeral.value? t = some x) :
    ∀ c ∈ t, isInert c = true := by
  have hnum := Numeral.isNumeral_trim h
  obtain ⟨a, b, ha, hb, ht⟩ := Text.trim_append t
  intro c hc
  rw [ht, List.mem_append, List.mem_append] at hc
  rcases hc with hc | hc | hc
  · exact isInert_of_isBlank (ha c hc)
  · exact isInert_of_isNumeralChar (Numeral.isNumeralChar_of_isNumeral hnum c hc)
  · exact isInert_of_isBlank (hb c hc)

theorem read_of_value? {x : Double} (h : Numeral.value? t = some x) :
    Value.read t = .scalar (Text.trim t) := by
  rw [← Value.read_trim]
  exact Value.read_of_isNumeral (Numeral.isNumeral_trim h)

/-- The selector with these names and texts. -/
def ofEntries (v : Variable) (entries : List (Text × Text)) : Selector :=
  ⟨v, entries.map fun e => .ofTexts e.1 e.2⟩

theorem pickNames_isKeyword : ∀ name ∈ (["limit", "sort", "c"] : List Text),
    Parameter.IsKeyword name ∧ name ∉ wholeNames := by
  decide

/-- A selector that is written with limits, orders and counts is read as such, and what it is
    adapted to is read back. -/
theorem read_filter_ofEntries (entries : List (Text × Text)) (target : Dialect)
    (settings : Settings) (hv : v.Readable) (hne : entries ≠ [])
    (hname : ∀ e ∈ entries, e.1 ∈ (["limit", "sort", "c"] : List Text))
    (hvalue : ∀ e ∈ entries, ∀ c ∈ e.2, isInert c = true)
    (ht : t = v.text ++ '[' :: (Text.join "," (entries.map fun e => e.1 ++ '=' :: e.2) ++ [']'])) :
    let back := (read (filter target settings t).value).value
    back = (adapt target settings.mergeToHull (ofEntries v entries)).value.reread ∧
      back.WellFormed isSeparator ∧ ∀ p ∈ back.parameters, p.name ∉ wholeNames := by
  have hread : (read t).value = ofEntries v entries := by
    rw [ht]
    exact read_ofTexts hv hne (fun e he => (pickNames_isKeyword _ (hname e he)).1) hvalue
  have hw : (ofEntries v entries).WellFormed isSeparator := by
    refine ⟨hv, fun p hp => ?_⟩
    obtain ⟨e, he, rfl⟩ := List.mem_map.1 hp
    exact Parameter.wellFormed_of_isKeyword separates_isSeparator
      (pickNames_isKeyword _ (hname e he)).1
      (Parameter.closed_trim_of_inert separates_isSeparator (hvalue e he))
  have hn : ∀ p ∈ (ofEntries v entries).parameters, p.name ∉ wholeNames := by
    intro p hp
    obtain ⟨e, he, rfl⟩ := List.mem_map.1 hp
    exact (pickNames_isKeyword _ (hname e he)).2
  have h := read_filter target settings separates_isSeparator (by decide) (by decide) (t := t)
    (hread ▸ hw) (hread ▸ hn)
  rwa [hread] at h

/-- An order is a word. -/
theorem order_spec (ho : order = "nearest" ∨ order = "furthest") :
    (∀ c ∈ order, isInert c = true) ∧ Value.read order = .literal order := by
  rcases ho with rfl | rfl <;> exact ⟨by decide, by decide⟩

theorem reread_limit (n : Int) :
    (Value.scalar (Text.ofInt n)).reread = .scalar (Text.ofInt n) :=
  Value.read_of_isNumeral (Numeral.isNumeral_ofInt n)

theorem orderOf_signed (hk : 0 < k) (ho : order = "nearest" ∨ order = "furthest") :
    orderOf (if order = "furthest" then -(k : Int) else k) = order := by
  rcases ho with rfl | rfl
  · rw [if_neg (by decide), orderOf, if_neg (by omega)]
  · rw [if_pos rfl, orderOf, if_pos (by omega)]

theorem signed_orderOf (n : Int) :
    (if orderOf n = "furthest" then -(n.natAbs : Int) else n.natAbs) = n := by
  unfold orderOf
  by_cases hn : n < 0
  · rw [if_pos hn, if_pos rfl]
    omega
  · rw [if_neg hn, if_neg (by decide)]
    omega

/-- A limit and an order come back from Bedrock, unless a minus sign was put in front of a plus
    sign. -/
theorem order_roundTrip (settings settings' : Settings) (hv : v.Readable) (hr : v ≠ .randomPlayer)
    (h : Numeral.value? limit = some (.ofInt k)) (hk : 0 < k) (hlt : k < 2 ^ 53)
    (ho : order = "nearest" ∨ order = "furthest")
    (ht : t = v.text ++ "[limit=" ++ limit ++ ",sort=" ++ order ++ "]") :
    let bedrock := (filter .bedrock settings t).value
    let back := (read (filter .java settings' bedrock).value).value
    if order = "furthest" ∧ (Text.trim limit).head? = some '+' then Picking [] [] [] back
    else Picking [.scalar (Text.ofInt k)] [.literal order] [] back := by
  intro bedrock back
  have hle := Nat.le_of_lt hlt
  obtain ⟨hinert, hword⟩ := order_spec ho
  obtain ⟨hbedrock, hw, hn⟩ := read_filter_ofEntries (v := v) (t := t)
    [("limit", limit), ("sort", order)] .bedrock settings hv (by simp) (by simp)
    (List.forall_mem_cons.2 ⟨inert_of_value? h, List.forall_mem_singleton.2 hinert⟩)
    (by simp [ht, Text.join])
  obtain ⟨hback, -, -⟩ := read_filter .java settings' separates_isSeparator (by decide) (by decide)
    hw hn
  have hgiven : Picking [.scalar (Text.trim limit)] [.literal order] []
      (ofEntries v [("limit", limit), ("sort", order)]) := by
    rw [← read_of_value? h, ← hword]
    exact ⟨rfl, rfl, rfl⟩
  have h' : Numeral.value? (Text.trim limit) = some (.ofInt k) := by
    rw [Numeral.value?_trim, h]
  have hpos := isPositiveCount_of_value h' hk hle
  obtain ⟨hpick, hhead⟩ := hgiven.adapt_bedrock hpos ho settings.mergeToHull
  have hpick' := hpick.reread_eq (by simpa using reread_countText hpos order)
  have hhead' : (read bedrock).value.head ≠ .randomPlayer := by
    rw [show (read bedrock).value = _ from hbedrock, head_reread, hhead]
    exact hr
  rw [← show (read bedrock).value = _ from hbedrock] at hpick'
  rw [show back = _ from hback]
  rw [read_countText hpos, Text.trim_trim] at hpick'
  by_cases hp : order = "furthest" ∧ (Text.trim limit).head? = some '+'
  · rw [if_pos hp] at hpick' ⊢
    exact (hpick'.adapt_java_of_literal settings'.mergeToHull).reread
  · rw [if_neg hp] at hpick' ⊢
    have hval := value?_countText h' hk hle (Text.trim_trim limit ▸ hp)
    have hj := hpick'.adapt_java hval (by split_ifs <;> omega) (by split_ifs <;> omega) hhead'
      settings'.mergeToHull
    rw [orderOf_signed hk ho, show (if order = "furthest" then -(k : Int) else k).natAbs = k by
      split_ifs <;> simp] at hj
    refine hj.reread_eq ?_
    rw [List.append_nil, List.singleton_append, List.forall_mem_cons, List.forall_mem_singleton]
    exact ⟨reread_limit k, hword⟩

/-- A count comes back from Java. -/
theorem signed_roundTrip (settings settings' : Settings) {u : Text} (hv : v.Readable)
    (hr : v ≠ .randomPlayer) (h : Numeral.value? u = some (.ofInt n)) (hn : n ≠ 0)
    (hlt : n.natAbs < 2 ^ 53) (ht : t = v.text ++ "[c=" ++ u ++ "]") :
    let java := (filter .java settings t).value
    let back := (read (filter .bedrock settings' java).value).value
    ∃ c, back.values "c" = [.scalar c] ∧ Numeral.value? c = some (.ofInt n) := by
  intro java back
  have hle := Nat.le_of_lt hlt
  obtain ⟨hjava, hw, hnames⟩ := read_filter_ofEntries (v := v) (t := t) [("c", u)] .java settings
    hv (by simp) (by simp) (List.forall_mem_singleton.2 (inert_of_value? h))
    (by simp [ht, Text.join])
  obtain ⟨hback, -, -⟩ := read_filter .bedrock settings' separates_isSeparator (by decide)
    (by decide) hw hnames
  have hgiven : Picking [] [] [.scalar (Text.trim u)] (ofEntries v [("c", u)]) := by
    rw [← read_of_value? h]
    exact ⟨rfl, rfl, rfl⟩
  have ho : orderOf n = "nearest" ∨ orderOf n = "furthest" := by
    unfold orderOf
    split_ifs
    · exact .inr rfl
    · exact .inl rfl
  have hj := hgiven.adapt_java (by rw [Numeral.value?_trim, h]) hn hlt hr settings.mergeToHull
  have hj' := hj.reread_eq (by
    rw [List.append_nil, List.singleton_append, List.forall_mem_cons, List.forall_mem_singleton]
    exact ⟨reread_limit _, (order_spec ho).2⟩)
  rw [← show (read java).value = _ from hjava] at hj'
  have hval : Numeral.value? (Text.ofInt n.natAbs) = some (.ofInt n.natAbs) :=
    Numeral.value?_ofInt (by rwa [Int.natAbs_natCast])
  have hpos := isPositiveCount_of_value hval (Int.natAbs_pos.2 hn) hle
  obtain ⟨hb, -⟩ := hj'.adapt_bedrock hpos ho settings'.mergeToHull
  have hb' := hb.reread_eq (by simpa using reread_countText hpos (orderOf n))
  have hplus : ¬(orderOf n = "furthest" ∧
      (Text.trim (Text.ofInt n.natAbs)).head? = some '+') := by
    rw [Numeral.trim_of_isNumeral (Numeral.isNumeral_ofInt _), Text.ofInt, if_neg (by omega)]
    exact fun hp => (Numeral.head_ofNat _).2 hp.2
  rw [← show back = _ from hback, read_countText hpos, if_neg hplus] at hb'
  refine ⟨_, hb'.c, ?_⟩
  rw [value?_countText hval (Int.natAbs_pos.2 hn) hle hplus, signed_orderOf]

/-- A limit with an order comes back from Bedrock, and a count comes back from Java, with the
    same value, however the numbers are spelled and whatever blanks are around them. The one
    exception is a limit with a plus sign and the order of the furthest, which comes back as
    nothing at all. -/
theorem count_roundTrip (settings settings' : Settings) (hv : v.Readable) (hr : v ≠ .randomPlayer) :
    (∀ limit order : Text, isPositiveCount limit = true →
      (∀ x ∈ Numeral.value? limit, x.lt (.ofInt (2 ^ 53)) = true) →
      order = "nearest" ∨ order = "furthest" →
      let bedrock := (filter .bedrock settings
        (v.text ++ "[limit=" ++ limit ++ ",sort=" ++ order ++ "]")).value
      let back := (read (filter .java settings' bedrock).value).value
      if order = "furthest" ∧ (Text.trim limit).head? = some '+' then
        back.values "limit" = [] ∧ back.values "sort" = []
      else ∃ l, back.values "limit" = [.scalar l] ∧ Numeral.compare? l limit = some .eq ∧
        back.values "sort" = [.literal order]) ∧
      ∀ (n : Int) (u : Text), n ≠ 0 → n.natAbs < 2 ^ 53 → Numeral.value? u = some (.ofInt n) →
        let java := (filter .java settings (v.text ++ "[c=" ++ u ++ "]")).value
        let back := (read (filter .bedrock settings' java).value).value
        ∃ c, back.values "c" = [.scalar c] ∧ Numeral.value? c = some (.ofInt n) := by
  refine ⟨fun limit order hp hlt ho => ?_, fun n u hn hlt h =>
    signed_roundTrip settings settings' hv hr h hn hlt rfl⟩
  obtain ⟨k, hk, hk', h⟩ := exists_value_of_isPositiveCount hp hlt
  have hback := order_roundTrip settings settings' hv hr h hk hk' ho rfl
  dsimp only at hback ⊢
  by_cases hplus : order = "furthest" ∧ (Text.trim limit).head? = some '+'
  · rw [if_pos hplus] at hback ⊢
    exact ⟨hback.limit, hback.sort⟩
  · rw [if_neg hplus] at hback ⊢
    refine ⟨Text.ofInt k, hback.limit, ?_, hback.sort⟩
    have hle : (k : Int).natAbs ≤ 2 ^ 53 := by
      rw [Int.natAbs_natCast]
      exact Nat.le_of_lt hk'
    refine Numeral.compare?_eq_some_eq.2 ⟨(k : Int) * (unitsPerOne : Int), ?_, ?_⟩
    · rw [Numeral.scaled?, Numeral.value?_ofInt hle, Option.bind_some, Double.scaled?_ofInt hle]
    · rw [Numeral.scaled?, h, Option.bind_some, Double.scaled?_ofInt hle]

/-- A limit with zeros on both sides, and a count with a plus sign. -/
theorem count_roundTrip_spellings :
    let bedrock := (filter .bedrock .standard "@e[limit= 007.0 ,sort=furthest]").value
    let java := (filter .java .standard "@e[c=+5]").value
    bedrock = "@e[c=-007]" ∧ java = "@e[limit=5,sort=nearest]" ∧
      (∃ l, (read (filter .java .standard bedrock).value).value.values "limit" = [.scalar l] ∧
        Numeral.compare? l " 007.0 " = some .eq ∧
        (read (filter .java .standard bedrock).value).value.values "sort" = [.literal "furthest"]) ∧
      ∃ c, (read (filter .bedrock .standard java).value).value.values "c" = [.scalar c] ∧
        Numeral.value? c = some (.ofInt 5) := by
  intro bedrock java
  obtain ⟨horder, hcount⟩ := count_roundTrip .standard .standard
    (Variable.readable_of_known (v := .allEntities) (by decide)) (by decide)
  refine ⟨by decide +kernel, by decide +kernel, ?_, ?_⟩
  · exact horder " 007.0 " "furthest" (by decide +kernel) (by decide +kernel) (.inr rfl)
  · exact hcount 5 "+5" (by decide) (by decide) (by decide +kernel)

/-- A minus sign in front of a plus sign is no number: Bedrock gets a count that is a word, and
    nothing comes back. -/
theorem count_roundTrip_loses_plus_sign :
    let bedrock := (filter .bedrock .standard "@a[limit=+5,sort=furthest]").value
    isPositiveCount "+5" = true ∧ bedrock = "@a[c=-+5]" ∧
      (filter .java .standard bedrock).value = "@a" := by
  decide +kernel

end Selector

end CrossEdition
