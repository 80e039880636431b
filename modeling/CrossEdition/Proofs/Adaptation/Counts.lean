import CrossEdition.Proofs.Adaptation.Translations
import CrossEdition.Proofs.Decimal.WholeNumbers

/-!
# Counts, limits and orders

Java asks for the nearest or the furthest of a limited number, Bedrock for a positive or a
negative count. One stage for each dialect goes from one to the other, and no other stage
touches the three names.

Results:
* `values_pick_toJava`, `values_c_toJava`: the limits, orders and counts in Java's terms.
* `valuesOf_picksOf`: the limit and the order that a count stands for.
* `pickOf_ordered`, `furthest_of_not_isNumeral`: the count that a limit with an order stands for.
* `read_countText`: how that count is read.
-/

namespace CrossEdition

namespace Selector

variable {s : Selector} {name limit order t : Text} {n : Double}

/-! ## To Java -/

theorem head_replaceVariable_eq_random (s : Selector) :
    (replaceVariable s).value.head = .randomPlayer ↔ s.head = .randomPlayer := by
  unfold replaceVariable
  split_ifs with h
  · refine iff_of_false (by decide) fun hr => ?_
    rw [hr] at h
    exact absurd h (by decide)
  · exact Iff.rfl

/-- No other stage than the one for counts touches limits, orders and counts. -/
theorem values_toJava_eq_splitCount (s : Selector) : ∃ r : Selector, picksOf r = picksOf s ∧
    ∀ name ∈ (["limit", "sort", "c"] : List Text), r.values name = s.values name ∧
      (toJava s).value.values name = (splitCount r).value.values name := by
  have hnames : ∀ name ∈ (["limit", "sort", "c"] : List Text), name ∉ (["scores"] : List Text) ∧
      name ∉ (["hasitem", "nbt"] : List Text) ∧ name ∉ (["m", "gamemode"] : List Text) ∧
      name ∉ quantityNames ∧ name ∉ Dialect.exclusiveNames .java := by
    decide
  generalize hr : (displace gamemodeOfMode (rangePairs.foldl (fun s pair => s.joinRange pair)
    (dropExclusive .java (replaceVariable s).value).value)).value = r
  have hvalues : ∀ name ∈ (["limit", "sort", "c"] : List Text), r.values name = s.values name := by
    intro name hname
    obtain ⟨-, -, hm, hq, hd⟩ := hnames name hname
    rw [← hr, touchesOnly_gamemode.values hm, touchesOnly_joinRange.values_pure hq,
      (touchesOnly_dropExclusive .java).values hd, touchesOnly_replaceVariable.values
        (List.not_mem_nil)]
  have hhead : r.head = .randomPlayer ↔ s.head = .randomPlayer := by
    rw [← head_replaceVariable_eq_random s, ← hr, head_displace, foldl_joinRange apart_rangePairs]
    rfl
  refine ⟨r, by simp only [picksOf, numerals, hvalues "c" (by decide), hhead],
    fun name hname => ⟨hvalues name hname, ?_⟩⟩
  obtain ⟨hs, hi, -⟩ := hnames name hname
  simp only [toJava, Noted.value_bind, touchesOnly_positiveScores.values hs,
    touchesOnly_itemsToNbt.values hi, hr]

/-- In Java's terms the limit and the order for the counts stand behind the others. -/
theorem values_pick_toJava (hname : name = "limit" ∨ name = "sort") (s : Selector) :
    (toJava s).value.values name = s.values name ++ Parameter.valuesOf name (picksOf s) := by
  obtain ⟨hmem, hne⟩ : name ∈ (["limit", "sort", "c"] : List Text) ∧ name ≠ "c" := by
    rcases hname with rfl | rfl <;> decide
  obtain ⟨r, hpicks, hr⟩ := values_toJava_eq_splitCount s
  obtain ⟨hv, hj⟩ := hr name hmem
  rw [hj, splitCount_eq, values_append, hpicks, values_erase_of_ne hne, hv]

/-- In Java's terms there are no counts. -/
theorem values_c_toJava (s : Selector) : (toJava s).value.values "c" = [] := by
  obtain ⟨r, -, hr⟩ := values_toJava_eq_splitCount s
  rw [(hr "c" (by decide)).2, splitCount_eq, values, Parameter.valuesOf_eq_nil_iff]
  intro p hp
  rcases List.mem_append.1 hp with hp | hp
  · exact (mem_erase.1 hp).2
  · rcases isPick_of_mem_picksOf hp with ⟨n, rfl⟩ | rfl | rfl <;>
      (rw [Parameter.name_ofTexts]; decide)

/-- A single count is the greatest of itself. -/
theorem value?_greatest_count (h : s.values "c" = [.scalar t]) :
    (Numeral.greatest? (s.numerals "c")).bind Numeral.value? = Numeral.value? t := by
  rw [numerals, h]
  cases hv : Numeral.value? t <;>
    simp [Value.numeral?, Numeral.greatest?, Numeral.best?, Numeral.valued, hv]

/-- A count other than zero stands for its magnitude as a limit, and its sign for an order. A
    variable that picks at random has no nearest. -/
theorem valuesOf_picksOf
    (h : (Numeral.greatest? (s.numerals "c")).bind Numeral.value? = some n)
    (hzero : n.compare? (.zero false) ≠ some .eq) :
    Parameter.valuesOf "limit" (picksOf s) = [.read n.abs.text] ∧
      Parameter.valuesOf "sort" (picksOf s) =
        if n.lt (.zero false) then [.literal "furthest"]
        else if s.head = .randomPlayer then [] else [.literal "nearest"] := by
  have hread : Value.read "furthest" = .literal "furthest" ∧
      Value.read "nearest" = .literal "nearest" := by
    decide
  rw [picksOf, h, ← hread.1, ← hread.2]
  simp only [if_neg hzero]
  split_ifs <;> exact ⟨rfl, rfl⟩

/-- Other counts stand for nothing. -/
theorem picksOf_eq_nil
    (h : ∀ n ∈ (Numeral.greatest? (s.numerals "c")).bind Numeral.value?,
      n.compare? (.zero false) = some .eq) : picksOf s = [] := by
  rw [picksOf]
  cases hn : (Numeral.greatest? (s.numerals "c")).bind Numeral.value? with
  | none => rfl
  | some n => exact if_pos (h n hn)

/-! ## To Bedrock -/

theorem exists_scaled_of_isPositiveCount (h : isPositiveCount t = true) :
    ∃ a, Numeral.scaled? t = some a ∧ 0 < a := by
  obtain ⟨x, hx, hone, -⟩ := isPositiveCount_iff.1 h
  obtain ⟨a, ha, hpos⟩ := Double.exists_scaled_of_one_le hone
  exact ⟨a, by rw [Numeral.scaled?, hx, Option.bind_some, ha], hpos⟩

/-- A single limit is the greatest of itself, if it is a positive count. -/
theorem limit?_singleton (limit : Text) :
    limit? [.scalar limit] =
      if isPositiveCount limit = true then some (Numeral.normalize limit) else none := by
  rw [limit?, show [Value.scalar limit].filterMap Value.numeral? = [limit] from rfl]
  split_ifs with h
  · obtain ⟨x, hx, -⟩ := isPositiveCount_iff.1 h
    rw [List.filter_cons_of_pos h]
    simp [Numeral.greatest?, Numeral.best?, Numeral.valued, hx]
  · rw [List.filter_cons_of_neg h]
    rfl

/-- The count that Bedrock gets for a limit and an order, in writing. -/
def countText (limit order : Text) : Text :=
  if order = "furthest" then '-' :: Numeral.normalize limit else Numeral.normalize limit

/-- A limit and an order of the nearest or the furthest stand for a count, which has a minus
    sign in front for the furthest. -/
theorem pickOf_ordered {v : Value} (hl : s.values "limit" = [.scalar limit])
    (hp : isPositiveCount limit = true) (hs : s.values "sort" = [v])
    (ho : v.text = "nearest" ∨ v.text = "furthest") :
    pickOf s = (s.head, some (countText limit v.text)) := by
  rw [pickOf, hl, hs, limit?_singleton, if_pos hp, countText]
  simp only [List.getLast?_singleton, Option.map_some, countFor]
  rcases ho with ho | ho
  · rw [if_pos ho, if_neg (by rw [ho]; decide)]
    rfl
  · rw [if_neg (by rw [ho]; decide), if_pos ho, if_pos ho]
    rfl

/-- Only the order of the furthest puts a minus sign in front of a limit. -/
theorem isNumeral_countFor (head : Variable) {sort limit : Option Text}
    (hl : ∀ n ∈ limit, Numeral.isNumeral n = true)
    (h : sort = some ("furthest" : Text) → limit = none) :
    ∀ t ∈ (countFor head sort limit).value.2, Numeral.isNumeral t = true := by
  have hnines : Numeral.isNumeral "9999" = true ∧ Numeral.isNumeral "-9999" = true := by
    decide
  unfold countFor
  split
  · simp only
    split_ifs <;> exact hl
  · next order =>
    split_ifs with hn hf hr hall
    · exact hl
    · cases h (congrArg some hf)
      exact fun t ht => Option.some.inj ht ▸ hnines.2
    · intro t ht
      rw [← Option.some.inj ht]
      cases limit with
      | none => exact hnines.1
      | some n => exact hl n rfl
    all_goals exact hl

/-- A count that is no number stands for a limit with the order of the furthest. -/
theorem furthest_of_not_isNumeral (ht : t ∈ (pickOf s).2) (hn : Numeral.isNumeral t = false) :
    (s.values "sort").getLast?.map Value.text = some ("furthest" : Text) ∧
      limit? (s.values "limit") ≠ none := by
  by_contra hno
  have hnum : Numeral.isNumeral t = true :=
    isNumeral_countFor s.head (fun _ hl => isNumeral_limit? hl)
      (fun hsort => by_contra fun hlimit => hno ⟨hsort, hlimit⟩) t ht
  rw [hn] at hnum
  exact Bool.noConfusion hnum

/-- At most one count is made. -/
theorem made_count (s : Selector) : ((pickOf s).2.map Value.read).toList = [] ∨
    ∃ t, ((pickOf s).2.map Value.read).toList = [.read t] := by
  cases (pickOf s).2 with
  | none => exact .inl rfl
  | some t => exact .inr ⟨t, rfl⟩

/-! ### Reading the count -/

/-- A minus sign in front of a plus sign makes a word. -/
theorem read_minus_plus (h : Numeral.isNumeral t = true) (hp : t.head? = some '+') :
    Value.read ('-' :: t) = .literal ('-' :: t) := by
  have hc : ∀ c ∈ '-' :: t, Numeral.isNumeralChar c = true :=
    List.forall_mem_cons.2 ⟨by decide, Numeral.isNumeralChar_of_isNumeral h⟩
  have hdots : Text.cutDots ('-' :: t) = none := by
    rw [Text.cutDots, Numeral.cutDots_of_isNumeral h]
    · rfl
    · rintro rest h
      exact absurd h (by decide)
  obtain ⟨u, rfl⟩ := List.head?_eq_some_iff.1 hp
  simp only [Value.read, Numeral.trim_of_isNumeralChar hc, if_neg (Value.head_of_isNumeralChar hc),
    hdots, Option.isSome_none, Numeral.not_isNumeral_minus_plus, Bool.false_eq_true, if_false]

/-- The count that is written for a positive limit and an order is a number, unless the limit
    has a plus sign and the order is that of the furthest. -/
theorem read_countText (h : isPositiveCount limit = true) (order : Text) :
    Value.read (countText limit order) =
      if order = "furthest" ∧ (Text.trim limit).head? = some '+' then
        .literal (countText limit order)
      else .scalar (countText limit order) := by
  obtain ⟨a, ha, hpos⟩ := exists_scaled_of_isPositiveCount h
  obtain ⟨hminus, hplus⟩ := Numeral.head_normalize ha hpos
  have hnum := isNumeral_normalize_of_isPositiveCount h
  simp only [← hplus, countText]
  split_ifs with ho hp
  · exact read_minus_plus hnum hp.2
  · exact Value.read_of_isNumeral (Numeral.value?_minus hnum ⟨hminus, fun hh => hp ⟨ho, hh⟩⟩).1
  · exact absurd ‹_ ∧ _›.1 ho
  · exact Value.read_of_isNumeral hnum

theorem numeral?_read_countText (h : isPositiveCount limit = true) (order : Text) :
    (Value.read (countText limit order)).numeral?.isSome = false ↔
      order = "furthest" ∧ (Text.trim limit).head? = some '+' := by
  rw [read_countText h]
  split_ifs with hplus
  · exact iff_of_true rfl hplus
  · exact iff_of_false (Bool.noConfusion ·) hplus

end Selector

end CrossEdition
