import CrossEdition.Json.Printer
import CrossEdition.Proofs.Decimal.WholeNumbers
import CrossEdition.Proofs.Json.Reading

/-!
# Printed values are read back

The printer stays inside the grammar, so the reader gives back what was printed. Numbers
keep their value when they are whole and small enough to have all their digits.

Results:
* `spells_print`: what is printed spells the value.
* `print_whole`: so it is read back as the value, and no control character is in it.
-/

namespace CrossEdition

/-! ## Numbers -/

namespace Text

/-- A positive number begins with no zero. -/
theorem head_ofNat {n : Nat} (h : 0 < n) : (ofNat n).head? ≠ some '0' := by
  induction n using Nat.strongRecOn with
  | _ n ih =>
    unfold ofNat at ih ⊢
    rcases Nat.lt_or_ge n 10 with hn | hn
    · rw [Nat.toDigits_of_lt_base hn]
      have : ∀ m : Fin 10, 0 < m.val → [m.val.digitChar].head? ≠ some '0' := by decide
      exact this ⟨n, hn⟩ h
    · rw [Nat.toDigits_of_base_le (by decide) hn,
        List.head?_append_of_ne_nil _ Nat.toDigits_ne_nil]
      exact ih (n / 10) (by omega) (by omega)

theorem eq_zero_of_head_ofNat {n : Nat} (h : (ofNat n).head? = some '0') : ofNat n = ['0'] := by
  rcases Nat.eq_zero_or_pos n with rfl | hn
  · rfl
  · exact absurd h (head_ofNat hn)

end Text

namespace Json

/-- How the printer spells a whole number. -/
def wholeSpelling (k : Int) : NumberSpelling :=
  ⟨k < 0, Text.ofNat k.natAbs, none, none⟩

theorem text_wholeSpelling (k : Int) : (wholeSpelling k).text = Text.ofInt k := by
  unfold Text.ofInt
  split_ifs with h <;> simp [NumberSpelling.text, wholeSpelling, h]

theorem valid_wholeSpelling (k : Int) : (wholeSpelling k).Valid where
  whole := ⟨Text.ofNat_ne_nil _, fun _ hc => Text.isDigit_of_mem_ofNat hc⟩
  leading := Text.eq_zero_of_head_ofNat
  part := by simp [wholeSpelling]
  exponent := by simp [wholeSpelling]

theorem decimal_wholeSpelling (k : Int) :
    (wholeSpelling k).decimal = ⟨k < 0, k.natAbs, 0⟩ := by
  simp [NumberSpelling.decimal, NumberSpelling.power, wholeSpelling, natOfDigits_ofNat]

theorem toDouble_wholeSpelling (k : Int) :
    (wholeSpelling k).decimal.toDouble = .ofInt k := by
  rw [decimal_wholeSpelling, Decimal.toDouble_whole]

theorem printNumber_ofInt {k : Int} (h : k.natAbs < 2 ^ 53) :
    printNumber (.ofInt k) = Text.ofInt k := by
  rw [← Double.text_ofInt h, Double.ofInt_eq h.le]
  rfl

theorem spells_number {k : Int} (h : k.natAbs < 2 ^ 53) :
    Spells (.number (.ofInt k)) (printNumber (.ofInt k)) := by
  rw [printNumber_ofInt h, ← text_wholeSpelling, ← toDouble_wholeSpelling]
  exact .number (valid_wholeSpelling k)

/-! ## Strings -/

/-- The code of a control character. -/
theorem codeUnit_control {c : Char} (h : c.toNat < 0x20) :
    let digits : Text := ['0', '0', hexDigit (c.toNat / 16), hexDigit (c.toNat % 16)]
    codeUnit digits = c.toNat ∧ ∀ d ∈ digits, IsHexDigit d := by
  have : ∀ n : Fin 0x20,
      codeUnit ['0', '0', hexDigit (n / 16), hexDigit (n % 16)] = n ∧
        ∀ d ∈ (['0', '0', hexDigit (n / 16), hexDigit (n % 16)] : Text),
          d ∈ ("0123456789abcdefABCDEF" : Text) := by decide
  exact this ⟨c.toNat, h⟩

theorem spells_escapeChar (c : Char) : SpellsChar c (escapeChar c) := by
  unfold escapeChar
  split_ifs with h₁ h₂ h₃ h₄ h₅ h₆ h₇ h₈
  · rw [h₁]; exact .short (by decide)
  · rw [h₂]; exact .short (by decide)
  · rw [h₃]; exact .short (by decide)
  · rw [h₄]; exact .short (by decide)
  · rw [h₅]; exact .short (by decide)
  · rw [h₆]; exact .short (by decide)
  · rw [h₇]; exact .short (by decide)
  · obtain ⟨hu, hd⟩ := codeUnit_control h₈
    have hc := SpellsChar.code (by simp) hd (by omega)
    rwa [hu, Char.ofNat_toNat] at hc
  · exact .raw (by omega) h₁ h₂

theorem spells_flatMap (t : Text) : SpellsContent t (t.flatMap escapeChar) := by
  induction t with
  | nil => exact .nil
  | cons c t ih =>
    rw [List.flatMap_cons]
    exact .cons (spells_escapeChar c) ih

theorem spells_printString (t : Text) : SpellsString t (printString t) :=
  ⟨_, spells_flatMap t, rfl⟩

/-! ## Values -/

/-- Whether every number in a value is whole, of magnitude below `2 ^ 53`, and no negative
    zero. -/
inductive Whole : Json → Prop
  | null : Whole .null
  | bool (b : Bool) : Whole (.bool b)
  | number {k : Int} (h : k.natAbs < 2 ^ 53) : Whole (.number (.ofInt k))
  | string (t : Text) : Whole (.string t)
  | array {items : List Json} (h : ∀ j ∈ items, Whole j) : Whole (.array items)
  | object {entries : List (Text × Json)} (h : ∀ e ∈ entries, Whole e.2) : Whole (.object entries)

theorem printItems_eq (items : List Json) : printItems items = Text.join "," (items.map print) := by
  induction items with
  | nil => rfl
  | cons j items ih =>
    cases items with
    | nil => rfl
    | cons k items => simp [printItems, Text.join, ih]

/-- The text of an entry. -/
def printEntry (e : Text × Json) : Text :=
  printString e.1 ++ ':' :: print e.2

theorem printEntries_eq (entries : List (Text × Json)) :
    printEntries entries = Text.join "," (entries.map printEntry) := by
  induction entries with
  | nil => rfl
  | cons e entries ih =>
    cases entries with
    | nil => rfl
    | cons f entries => simp [printEntries, Text.join, ih, printEntry]

/-- An item as the printer writes it. -/
def printedElement (j : Json) : Element :=
  ⟨[], j, print j, []⟩

theorem full_printedElement (j : Json) : (printedElement j).full = print j := by
  simp [Element.full, printedElement]

/-- An entry as the printer writes it. -/
def printedMember (e : Text × Json) : Member :=
  ⟨[], e.1, printString e.1, [], printedElement e.2⟩

theorem full_printedMember (e : Text × Json) : (printedMember e).full = printEntry e := by
  simp [Member.full, printedMember, full_printedElement, printEntry]

theorem spells_array {items : List Json} (h : ∀ j ∈ items, Spells j (print j)) :
    Spells (.array items) (print (.array items)) := by
  rcases eq_or_ne items [] with rfl | hne
  · exact .emptyArray isBlank_nil
  · have hs := @Spells.array (items.map printedElement) (by simpa using hne)
      (List.forall_mem_map.2 fun _ _ => ⟨isBlank_nil, isBlank_nil⟩) (List.forall_mem_map.2 h)
    simp only [List.map_map, Function.comp_def, full_printedElement] at hs
    simpa [print, printItems_eq, printedElement] using hs

theorem spells_object {entries : List (Text × Json)} (h : ∀ e ∈ entries, Spells e.2 (print e.2)) :
    Spells (.object entries) (print (.object entries)) := by
  rcases eq_or_ne entries [] with rfl | hne
  · exact .emptyObject isBlank_nil
  · have hs := @Spells.object (entries.map printedMember) (by simpa using hne)
      (List.forall_mem_map.2 fun _ _ => ⟨isBlank_nil, isBlank_nil, isBlank_nil, isBlank_nil⟩)
      (List.forall_mem_map.2 fun e _ => spells_printString e.1) (List.forall_mem_map.2 h)
    simp only [List.map_map, Function.comp_def, full_printedMember] at hs
    simpa [print, printEntries_eq, printedMember, printedElement] using hs

/-- What is printed spells the value. -/
theorem spells_print {j : Json} (h : j.Whole) : Spells j (print j) := by
  induction h with
  | null => exact .null
  | bool b => cases b <;> exact .bool _
  | number h => exact spells_number h
  | string t => exact .string (spells_printString t)
  | array _ ih => exact spells_array ih
  | object _ ih => exact spells_object ih

/-! ## Control characters -/

/-- Whether a text has no control character. -/
def Printable (t : Text) : Prop :=
  ∀ c ∈ t, 0x20 ≤ c.toNat

theorem printable_append {t u : Text} (ht : Printable t) (hu : Printable u) :
    Printable (t ++ u) := by
  intro c hc
  rcases List.mem_append.1 hc with hc | hc
  · exact ht c hc
  · exact hu c hc

theorem printable_join {ts : List Text} (h : ∀ t ∈ ts, Printable t) :
    Printable (Text.join "," ts) := by
  induction ts with
  | nil => exact fun _ hc => absurd hc List.not_mem_nil
  | cons t ts ih =>
    rcases eq_or_ne ts [] with rfl | hts
    · exact h t (by simp)
    · rw [show Text.join "," (t :: ts) = _ from Text.join_cons_of_ne_nil ',' t hts]
      have hrest := ih fun u hu => h u (by simp [hu])
      exact printable_append (h t (by simp)) (printable_append (t := [',']) (by simp [Printable]) hrest)

theorem printable_ofInt (k : Int) : Printable (Text.ofInt k) := by
  have hd : Printable (Text.ofNat k.natAbs) := by
    intro c hc
    have := Numeral.isDigit_iff.1 (Text.isDigit_of_mem_ofNat hc)
    omega
  unfold Text.ofInt
  split_ifs
  · exact printable_append (t := ['-']) (by simp [Printable]) hd
  · exact hd

theorem printable_printString (t : Text) : Printable (printString t) := by
  have hq : Printable ['"'] := by simp [Printable]
  have ht : Printable (t.flatMap escapeChar) := by
    intro c hc
    obtain ⟨d, -, hd⟩ := List.mem_flatMap.1 hc
    exact escapeChar_printable hd
  exact printable_append (printable_append hq ht) hq

theorem printable_print {j : Json} (h : j.Whole) : Printable (print j) := by
  induction h with
  | null => simp [print, Printable]
  | bool b => cases b <;> simp [print, Printable]
  | @number k h =>
    rw [print, printNumber_ofInt h]
    exact printable_ofInt k
  | string t => exact printable_printString t
  | array _ ih =>
    rw [print, printItems_eq]
    refine printable_append (printable_append (t := ['[']) (by simp [Printable]) ?_)
      (by simp [Printable])
    exact printable_join (List.forall_mem_map.2 ih)
  | object _ ih =>
    rw [print, printEntries_eq]
    refine printable_append (printable_append (t := ['\x7b']) (by simp [Printable]) ?_)
      (by simp [Printable])
    apply printable_join
    refine List.forall_mem_map.2 ?_
    intro e he
    exact printable_append (printable_printString e.1)
      (printable_append (t := [':']) (by simp [Printable]) (ih e he))

/-! ## Round trip -/

/-- What is printed is read back. -/
theorem read_print {j : Json} (h : j.Whole) : read (print j) = .ok j :=
  read_spells (spells_print h)

/-- A value whose numbers are whole and small is printed inside the grammar of JSON and without
    control characters, and the reader gives it back. -/
theorem print_whole {j : Json} (h : j.Whole) :
    Spells j (print j) ∧ (∀ c ∈ print j, 0x20 ≤ c.toNat) ∧ read (print j) = .ok j :=
  ⟨spells_print h, printable_print h, read_print h⟩

/-- Keys may come twice, and strings may hold anything. -/
theorem print_whole_nested :
    let j : Json := .object [("b", .array [.number (.ofInt (-7)), .null]), ("a\n", .string "\x01\"é"),
      ("b", .object [])]
    j.Whole ∧ Spells j (print j) ∧ (∀ c ∈ print j, 0x20 ≤ c.toNat) ∧ read (print j) = .ok j := by
  have h : Whole (.object [("b", .array [.number (.ofInt (-7)), .null]),
      ("a\n", .string "\x01\"é"), ("b", .object [])]) := by
    refine .object ?_
    simp only [List.forall_mem_cons, List.not_mem_nil, false_imp_iff, implies_true, and_true]
    refine ⟨.array ?_, .string _, .object (by simp)⟩
    simp only [List.forall_mem_cons, List.not_mem_nil, false_imp_iff, implies_true, and_true]
    exact ⟨.number (by decide), .null⟩
  exact ⟨h, print_whole h⟩

end Json

end CrossEdition
