import CrossEdition.Snbt.SliceReader
import CrossEdition.Proofs.Json.BytePaths
import CrossEdition.Proofs.Snbt.RoundTrip

/-!
# The reader by slices stays between characters

A step is as wide as the character that it goes over, whatever character separates keys and
values, so the reader by slices goes the way of the reader of texts. It never stands inside a
character or behind the end, no slice fails, and what it reports are places between characters.

Results:
* `slice_ok`, `remaining_ok`, `peek_ok`: what is seen from a place between characters.
* `Agrees`, `Agrees.bind`: readers side by side that end alike, with so many characters left, and
  one step after the other.
* `expect_agrees`, `readQuoted_agrees`, `readKey_agrees`, `readWord_agrees`: the leaves.
* `AgreeWith`, `agreeWith`: trees, entries and items, by induction on the fuel; each character is
  worth two steps.
* `readSlices_on_boundaries`: all positions and all reported offsets are between characters, and
  no slice fails.
-/

namespace CrossEdition

namespace Snbt

open Json (Path Stands)

variable {α β : Type} {t : Text} {s : Path} {c : Cursor} {m n : Nat}

/-! ## Readers side by side -/

/-- Whether a reader by slices of `t` and a reader of `t` end alike: with the same value and at the
    same place, where no more than `n` characters are left, or with the same error, which tells
    of a place between characters and is not for want of fuel. -/
inductive Agrees (t : Text) (n : Nat) {α : Type} :
    EStateM.Result SliceError Path α → Except Error (α × Cursor) → Prop
  | ok {a : α} {s : Path} {c : Cursor} (h : Stands t s c) (hn : c.rest.length ≤ n) :
    Agrees t n (.ok a s) (.ok (a, c))
  | error {e : Error} {s : Path} (hs : ∀ k ∈ s.positions, t.IsBoundary k)
    (he : e.problem ≠ .tooDeep) (ho : t.IsBoundary e.offset) :
    Agrees t n (.error (.ofText e) s) (.error e)

theorem Agrees.pure (h : Stands t s c) (hn : c.rest.length ≤ n) (a : α) :
    Agrees t n ((Pure.pure a : SliceReader α) s) (.ok (a, c)) :=
  .ok h hn

theorem Agrees.fail (h : Stands t s c) {p : Problem} (hp : p ≠ .tooDeep) {offset : Nat}
    (ho : t.IsBoundary offset) :
    Agrees t n ((SliceReader.fail p offset : SliceReader α) s) (.error ⟨p, offset⟩) :=
  .error h.positions hp ho

theorem Agrees.bind {x : SliceReader α} {f : α → SliceReader β} {y : Except Error (α × Cursor)}
    {g : α × Cursor → Except Error (β × Cursor)} (h : Agrees t n (x s) y)
    (hf : ∀ a s₁ c₁, Stands t s₁ c₁ → c₁.rest.length ≤ n → Agrees t m (f a s₁) (g (a, c₁))) :
    Agrees t m ((x >>= f) s) (y >>= g) := by
  rw [show (x >>= f) s = EStateM.bind x f s from rfl, EStateM.bind]
  generalize x s = r at h
  cases h with
  | ok hs hn => exact hf _ _ _ hs hn
  | error hs he ho => exact .error hs he ho

theorem Agrees.map {x : SliceReader α} {y : Except Error (α × Cursor)} (h : Agrees t n (x s) y)
    (f : α → β) :
    Agrees t n ((x >>= fun a => Pure.pure (f a)) s) (y.map fun (a, c) => (f a, c)) := by
  have hbind := h.bind (m := n) (f := fun a => Pure.pure (f a)) (g := fun p => .ok (f p.1, p.2))
    fun a s₁ c₁ h₁ hn => .pure h₁ hn _
  cases y <;> exact hbind

/-- Behind a reader of texts that gives nothing but a place. -/
theorem Agrees.next {x : SliceReader Unit} {f : Unit → SliceReader β} {y : Except Error Cursor}
    {g : Cursor → Except Error (β × Cursor)} (h : Agrees t n (x s) (y.map ((), ·)))
    (hf : ∀ s₁ c₁, Stands t s₁ c₁ → c₁.rest.length ≤ n → Agrees t m (f () s₁) (g c₁)) :
    Agrees t m ((x >>= f) s) (y >>= g) := by
  have hbind := h.bind (m := m) (f := f) (g := fun p => g p.2) fun _ s₁ c₁ h₁ hn => hf s₁ c₁ h₁ hn
  cases y <;> exact hbind

theorem Agrees.mono {r : EStateM.Result SliceError Path α} {y : Except Error (α × Cursor)}
    (h : Agrees t m r y) (hmn : m ≤ n) : Agrees t n r y := by
  cases h with
  | ok h hm => exact .ok h (Nat.le_trans hm hmn)
  | error hs he ho => exact .error hs he ho

/-! ## Steps that cannot fail -/

namespace SliceReader

theorem position_ok (h : Stands t s c) : position s = .ok c.offset s := by
  rw [← h.position]
  rfl

/-- What lies between two places of the reader. -/
theorem slice_ok {c₁ : Cursor} (hc : c.On t) (hc₁ : c₁.On t) {part : Text}
    (hpart : c.rest = part ++ c₁.rest) (s : Path) :
    slice t c.offset c₁.offset s = .ok part s := by
  obtain ⟨before, ht, ho⟩ := hc
  obtain ⟨before₁, ht₁, ho₁⟩ := hc₁
  obtain rfl : before ++ part = before₁ := by
    rw [ht, hpart, ← List.append_assoc] at ht₁
    exact List.append_cancel_right ht₁
  have hslice : t.slice? c.offset c₁.offset = some part :=
    Text.slice?_eq_some_iff.2 ⟨before, c₁.rest, by rw [List.append_assoc, ← hpart, ht], ho, ho₁⟩
  simp only [slice, hslice]
  rfl

theorem remaining_ok (h : Stands t s c) : remaining t s = .ok c.rest s := by
  have hend : Cursor.On t ⟨[], t.byteLength⟩ := ⟨t, (List.append_nil t).symm, rfl⟩
  rw [remaining, bind_of_ok (position_ok h)]
  exact slice_ok h.on hend (List.append_nil c.rest).symm s

theorem peek_ok (h : Stands t s c) : peek t s = .ok c.rest.head? s := by
  rw [peek, bind_of_ok (remaining_ok h)]
  rfl

/-- A step over the next character, by its width. -/
theorem advance_ok (h : Stands t s c) {d : Char} {rest : Text} (hc : c.rest = d :: rest) :
    ∃ s₁, advance d.utf8Size s = .ok () s₁ ∧ Stands t s₁ ⟨rest, c.offset + d.utf8Size⟩ :=
  ⟨_, rfl, h.advance (u := [d]) hc⟩

theorem eat_some (h : Stands t s c) {ch : Char} {c₁ : Cursor} (he : c.eat? ch = some c₁) :
    ∃ s₁, eat t ch s = .ok true s₁ ∧ Stands t s₁ c₁ := by
  have hrest := Cursor.rest_of_eat? he
  have hc₁ : ⟨c₁.rest, c.offset + ch.utf8Size⟩ = c₁ := by
    simpa [Cursor.eat?, hrest] using he
  obtain ⟨s₁, hrun, h₁⟩ := advance_ok h hrest
  refine ⟨s₁, ?_, hc₁ ▸ h₁⟩
  rw [eat, bind_of_ok (peek_ok h), hrest, List.head?_cons, if_pos rfl, bind_of_ok hrun]
  rfl

theorem eat_none (h : Stands t s c) {ch : Char} (he : c.eat? ch = none) :
    eat t ch s = .ok false s := by
  have hhead : c.rest.head? ≠ some ch := by
    intro hd
    obtain ⟨rest, hrest⟩ := List.head?_eq_some_iff.1 hd
    simp [Cursor.eat?, hrest] at he
  rw [eat, bind_of_ok (peek_ok h), if_neg hhead]
  rfl

/-- Each character that is left is worth a step. -/
theorem skipUpTo_ok (h : Stands t s c) (p : Char → Bool) {fuel : Nat}
    (hf : c.rest.length < fuel) :
    ∃ s₁, skipUpTo t p fuel s = .ok () s₁ ∧ Stands t s₁ (c.skip p) := by
  obtain ⟨rest, o⟩ := c
  induction rest generalizing s o fuel with
  | nil =>
    obtain ⟨fuel, rfl⟩ := Nat.exists_eq_add_one.2 (Nat.zero_lt_of_lt hf)
    refine ⟨s, ?_, h⟩
    rw [skipUpTo, bind_of_ok (peek_ok h)]
    rfl
  | cons d rest ih =>
    obtain ⟨fuel, rfl⟩ := Nat.exists_eq_add_one.2 (Nat.zero_lt_of_lt hf)
    rw [skipUpTo, bind_of_ok (peek_ok h)]
    simp only [List.head?_cons]
    by_cases hd : p d = true
    · obtain ⟨s₁, hrun, h₁⟩ := advance_ok h rfl
      rw [if_pos hd, bind_of_ok hrun]
      have hskip : Cursor.skip p ⟨d :: rest, o⟩ = Cursor.skip p ⟨rest, o + d.utf8Size⟩ := by
        simp [Cursor.skip, hd, Nat.add_assoc]
      rw [hskip]
      exact ih _ h₁ (Nat.lt_of_succ_lt_succ hf)
    · refine ⟨s, by rw [if_neg hd]; rfl, ?_⟩
      simpa [Cursor.skip, hd] using h

theorem skip_ok (h : Stands t s c) (p : Char → Bool) :
    ∃ s₁, skip t p s = .ok () s₁ ∧ Stands t s₁ (c.skip p) :=
  skipUpTo_ok h p (Nat.lt_succ_of_le h.on.length_le)

theorem skipBlanks_ok (h : Stands t s c) :
    ∃ s₁, skipBlanks t s = .ok () s₁ ∧ Stands t s₁ (Snbt.skipBlanks c) :=
  skip_ok h Text.isBlank

theorem length_skipBlanks_le (c : Cursor) :
    (Snbt.skipBlanks c).rest.length ≤ c.rest.length :=
  c.length_skip_le Text.isBlank

/-- What is left behind a character that follows blanks. -/
theorem length_of_eat?_skipBlanks {c₁ : Cursor} {ch : Char}
    (h : (Snbt.skipBlanks c).eat? ch = some c₁) : c₁.rest.length < c.rest.length :=
  Nat.lt_of_lt_of_le (Cursor.length_of_eat? h) (length_skipBlanks_le c)

/-! ## Leaves -/

theorem expect_agrees (h : Stands t s c) (ch : Char) :
    Agrees t c.rest.length (expect t ch s) ((Snbt.expect ch c).map ((), ·)) := by
  obtain ⟨s₁, hrun, h₁⟩ := skipBlanks_ok h
  rw [expect, bind_of_ok hrun, Snbt.expect]
  cases he : (Snbt.skipBlanks c).eat? ch with
  | some c₁ =>
    obtain ⟨s₂, hrun, h₂⟩ := eat_some h₁ he
    rw [bind_of_ok hrun]
    exact .pure h₂ (Nat.le_of_lt (length_of_eat?_skipBlanks he)) ()
  | none =>
    rw [bind_of_ok (eat_none h₁ he), if_neg Bool.false_ne_true, bind_of_ok (position_ok h₁)]
    exact .fail h₁ (by simp) h₁.on.isBoundary

theorem elim_map (o : Option α) (f : α → β) (e : Error) :
    (o.map f).elim (.error e) .ok = (o.elim (.error e) .ok : Except Error α).map f := by
  cases o <;> rfl

/-- Each character that is left is worth a step. -/
theorem quotedContent_agrees (h : Stands t s c) (quote : Char) {start fuel : Nat}
    (hstart : t.IsBoundary start) (hf : c.rest.length < fuel) :
    Agrees t c.rest.length (quotedContent t quote start fuel s)
      ((quotedContent? quote c.rest c.offset).elim (.error ⟨.unterminatedString, start⟩) .ok) := by
  induction fuel generalizing s c with
  | zero => exact absurd hf (Nat.not_lt_zero _)
  | succ fuel ih =>
    obtain ⟨rest, o⟩ := c
    rw [quotedContent, bind_of_ok (peek_ok h)]
    cases rest with
    | nil => exact .fail h (by simp) hstart
    | cons d rest =>
      obtain ⟨s₁, hrun, h₁⟩ := advance_ok h rfl
      have hlt : rest.length < fuel := Nat.lt_of_succ_lt_succ hf
      simp only [List.head?_cons]
      rw [bind_of_ok hrun]
      unfold quotedContent?
      split_ifs with hquote hback
      · exact .pure h₁ (Nat.le_succ _) []
      · rw [bind_of_ok (peek_ok h₁)]
        cases rest with
        | nil => exact .fail h₁ (by simp) hstart
        | cons e rest =>
          obtain ⟨s₂, hrun, h₂⟩ := advance_ok h₁ rfl
          simp only [List.head?_cons]
          rw [bind_of_ok hrun, elim_map]
          exact ((ih h₂ (Nat.lt_of_succ_lt hlt)).map _).mono (Nat.le_add_right rest.length 2)
      · rw [elim_map]
        exact ((ih h₁ hlt).map _).mono (Nat.le_succ rest.length)

theorem readQuoted_agrees (h : Stands t s c) {quote : Char} {rest : Text}
    (hc : c.rest = quote :: rest) :
    Agrees t c.rest.length (readQuoted t quote s) (Snbt.readQuoted quote c) := by
  obtain ⟨s₁, hrun, h₁⟩ := advance_ok h hc
  have hcontent := quotedContent_agrees h₁ quote h.on.isBoundary
    (Nat.lt_succ_of_le h₁.on.length_le)
  rw [readQuoted, bind_of_ok (position_ok h), bind_of_ok hrun, Snbt.readQuoted, Cursor.drop_one hc]
  refine Agrees.mono ?_ (show rest.length ≤ c.rest.length by simp [hc])
  cases hq : quotedContent? quote rest (c.offset + quote.utf8Size) <;> simpa [hq] using hcontent

theorem readBareKey_agrees (h : Stands t s c) (p : Char → Bool) :
    Agrees t c.rest.length (readBareKey t p s)
      (if c.rest.takeWhile p = [] then .error ⟨.expectedKey, c.offset⟩
        else .ok (c.rest.takeWhile p, c.skip p)) := by
  obtain ⟨s₁, hrun, h₁⟩ := skip_ok h p
  have hempty : (c.skip p).offset = c.offset ↔ c.rest.takeWhile p = [] := by
    rw [← Text.byteLength_eq_zero_iff, Cursor.skip]
    simp only
    omega
  rw [readBareKey, bind_of_ok (position_ok h), bind_of_ok hrun, bind_of_ok (position_ok h₁)]
  simp only [hempty]
  split_ifs with hnil
  · exact .fail h₁ (by simp) h.on.isBoundary
  · rw [slice_ok h.on h₁.on (c.skip_append p)]
    exact .ok h₁ (c.length_skip_le p)

theorem readKey_agrees (h : Stands t s c) (separator : Char) :
    Agrees t c.rest.length (readKey t separator s) (Snbt.readKey separator c) := by
  obtain ⟨s₁, hrun, h₁⟩ := skipBlanks_ok h
  rw [readKey, bind_of_ok hrun, bind_of_ok (peek_ok h₁), Snbt.readKey]
  refine Agrees.mono ?_ (length_skipBlanks_le c)
  generalize Snbt.skipBlanks c = c₁ at *
  have hbare := readBareKey_agrees h₁ fun d => isBareChar d && d ≠ separator
  cases hrest : c₁.rest with
  | nil => simpa only [hrest, List.head?_nil] using hbare
  | cons d rest =>
    by_cases hdouble : d = '"'
    · subst hdouble
      simpa only [hrest, List.head?_cons] using readQuoted_agrees h₁ hrest
    by_cases hsingle : d = '\''
    · subst hsingle
      simpa only [hrest, List.head?_cons] using readQuoted_agrees h₁ hrest
    simpa [hrest, hdouble, hsingle] using hbare

theorem readWord_agrees (h : Stands t s c) :
    Agrees t c.rest.length (readWord t s) (Snbt.readWord c) := by
  obtain ⟨s₁, hrun, h₁⟩ := skip_ok h isWordChar
  rw [readWord, bind_of_ok (position_ok h), bind_of_ok hrun, bind_of_ok (position_ok h₁),
    bind_of_ok (slice_ok h.on h₁.on (c.skip_append isWordChar) s₁), Snbt.readWord]
  split_ifs
  · exact .fail h₁ (by simp) h.on.isBoundary
  · exact .pure h₁ (c.length_skip_le isWordChar) _

/-! ## Marks -/

theorem skipMark_ok (h : Stands t s c) {mark : Text} (hm : mark.byteLength = 2) :
    ∃ s₁, skipMark t mark s = .ok () s₁ ∧
      Stands t s₁ (if mark.isPrefixOf c.rest then c.drop mark.length else c) := by
  rw [skipMark, bind_of_ok (remaining_ok h)]
  split_ifs with hp
  · obtain ⟨rest, hrest⟩ := List.isPrefixOf_iff_prefix.1 hp
    have hstep := h.drop mark.length
    rw [← hrest, List.take_left, hm] at hstep
    exact ⟨_, rfl, hstep⟩
  · exact ⟨s, rfl, h⟩

theorem skipMarks_ok {marks : List Text} (hm : ∀ mark ∈ marks, mark.byteLength = 2)
    (h : Stands t s c) :
    ∃ s₁, marks.forM (skipMark t) s = .ok () s₁ ∧
      Stands t s₁ (marks.foldl
        (fun c mark => if mark.isPrefixOf c.rest then c.drop mark.length else c) c) := by
  induction marks generalizing s c with
  | nil => exact ⟨s, rfl, h⟩
  | cons mark marks ih =>
    obtain ⟨hmark, hm⟩ := List.forall_mem_cons.1 hm
    obtain ⟨s₁, hrun, h₁⟩ := skipMark_ok h hmark
    obtain ⟨s₂, hruns, h₂⟩ := ih hm h₁
    refine ⟨s₂, ?_, h₂⟩
    change (skipMark t mark >>= fun _ => marks.forM (skipMark t)) s = _
    rw [bind_of_ok hrun]
    exact hruns

theorem skipArrayMarks_ok (h : Stands t s c) :
    ∃ s₁, skipArrayMarks t s = .ok () s₁ ∧ Stands t s₁ (Snbt.skipArrayMarks c) :=
  skipMarks_ok (by decide) h

theorem length_skipArrayMarks_le (c : Cursor) :
    (Snbt.skipArrayMarks c).rest.length ≤ c.rest.length := by
  refine List.foldlRecOn (motive := fun d : Cursor => d.rest.length ≤ c.rest.length) arrayMarks _
    (Nat.le_refl _) fun d hd mark _ => ?_
  split_ifs
  · exact Nat.le_trans (d.length_drop_le _) hd
  · exact hd

/-! ## Trees -/

theorem opening_ok (h : Stands t s c) {d : Char} {rest : Text} (hc : c.rest = d :: rest)
    (hd : Text.isBlank d = false) :
    ∃ s₁, expect t d s = .ok () s₁ ∧ Stands t s₁ (c.drop 1) := by
  have hagrees := expect_agrees h d
  have hexpect : Snbt.expect d c = .ok (c.drop 1) := by
    obtain ⟨_, o⟩ := c
    subst hc
    exact expect_cons hd rest o
  rw [hexpect, Except.map] at hagrees
  generalize expect t d s = r at hagrees ⊢
  cases hagrees with
  | ok h₁ => exact ⟨_, rfl, h₁⟩

/-- What stands between brackets, or nothing. -/
theorem members_agrees (h : Stands t s c) {close : Char} {x : SliceReader α}
    {y : Cursor → Except Error (α × Cursor)} (empty : β) (f : α → β)
    (hxy : ∀ s₁ c₁, Stands t s₁ c₁ → c₁.rest.length ≤ c.rest.length →
      Agrees t c.rest.length (x s₁) (y c₁)) :
    Agrees t c.rest.length
      ((do
        skipBlanks t
        if ← eat t close then return empty else return f (← x) : SliceReader β) s)
      (match (Snbt.skipBlanks c).eat? close with
        | some c => .ok (empty, c)
        | none => do
          let (a, c) ← y (Snbt.skipBlanks c)
          .ok (f a, c)) := by
  obtain ⟨s₁, hrun, h₁⟩ := skipBlanks_ok h
  rw [bind_of_ok hrun]
  cases he : (Snbt.skipBlanks c).eat? close with
  | some c₂ =>
    obtain ⟨s₂, hrun, h₂⟩ := eat_some h₁ he
    rw [bind_of_ok hrun]
    exact .pure h₂ (Nat.le_of_lt (length_of_eat?_skipBlanks he)) empty
  | none =>
    rw [bind_of_ok (eat_none h₁ he), if_neg Bool.false_ne_true]
    exact (hxy s₁ _ h₁ (length_skipBlanks_le c)).bind fun a s₂ c₂ h₂ hn => .pure h₂ hn _

/-- What stands behind a part of a row: a comma and more of them, or the end of the row. -/
theorem row_agrees (h : Stands t s c) (a : α) (close : Char) {x : SliceReader (List α)}
    {y : Cursor → Except Error (List α × Cursor)}
    (hxy : ∀ s₁ c₁, Stands t s₁ c₁ → c₁.rest.length < c.rest.length →
      Agrees t c.rest.length (x s₁) (y c₁)) :
    Agrees t c.rest.length
      ((do
        skipBlanks t
        if ← eat t ',' then return a :: (← x)
        else do
          expect t close
          return [a] : SliceReader (List α)) s)
      (match (Snbt.skipBlanks c).eat? ',' with
        | some c => do
          let (as, c) ← y c
          .ok (a :: as, c)
        | none => do
          let c ← Snbt.expect close (Snbt.skipBlanks c)
          .ok ([a], c)) := by
  obtain ⟨s₁, hrun, h₁⟩ := skipBlanks_ok h
  rw [bind_of_ok hrun]
  cases he : (Snbt.skipBlanks c).eat? ',' with
  | some c₂ =>
    obtain ⟨s₂, hrun, h₂⟩ := eat_some h₁ he
    rw [bind_of_ok hrun]
    exact (hxy s₂ c₂ h₂ (length_of_eat?_skipBlanks he)).bind fun as s₃ c₃ h₃ hn => .pure h₃ hn _
  | none =>
    rw [bind_of_ok (eat_none h₁ he), if_neg Bool.false_ne_true]
    exact (expect_agrees h₁ close).next fun s₂ c₂ h₂ hn =>
      .pure h₂ (Nat.le_trans hn (length_skipBlanks_le c)) _

end SliceReader

/-- Whether the readers of trees agree with so much fuel, and those of entries and of items. -/
structure AgreeWith (t : Text) (separator : Char) (fuel : Nat) : Prop where
  tag : ∀ {s c}, Stands t s c → 2 * c.rest.length < fuel →
    Agrees t c.rest.length (SliceReader.readTag t separator fuel s) (readTag separator fuel c)
  entries : ∀ {s c}, Stands t s c → 2 * c.rest.length + 1 < fuel →
    Agrees t c.rest.length (SliceReader.readEntries t separator fuel s)
      (readEntries separator fuel c)
  items : ∀ {s c}, Stands t s c → 2 * c.rest.length + 1 < fuel →
    Agrees t c.rest.length (SliceReader.readItems t separator fuel s) (readItems separator fuel c)

namespace AgreeWith

open SliceReader (skipBlanks_ok peek_ok position_ok opening_ok skipArrayMarks_ok)

variable {separator : Char} {fuel : Nat}

theorem readItems (ha : AgreeWith t separator fuel) (h : Stands t s c)
    (hf : 2 * c.rest.length < fuel) :
    Agrees t c.rest.length (SliceReader.readItems t separator (fuel + 1) s)
      (Snbt.readItems separator (fuel + 1) c) := by
  rw [SliceReader.readItems, Snbt.readItems]
  refine (ha.tag h hf).bind fun tag s₁ c₁ h₁ hn => ?_
  refine (SliceReader.row_agrees h₁ tag ']' fun s₂ c₂ h₂ hlt => ?_).mono hn
  exact (ha.items h₂ (by omega)).mono (Nat.le_of_lt hlt)

theorem readEntries (ha : AgreeWith t separator fuel) (h : Stands t s c)
    (hf : 2 * c.rest.length < fuel) :
    Agrees t c.rest.length (SliceReader.readEntries t separator (fuel + 1) s)
      (Snbt.readEntries separator (fuel + 1) c) := by
  rw [SliceReader.readEntries, Snbt.readEntries]
  refine (SliceReader.readKey_agrees h separator).bind fun key s₁ c₁ h₁ hn₁ => ?_
  refine (SliceReader.expect_agrees h₁ separator).next fun s₂ c₂ h₂ hn₂ => ?_
  refine (ha.tag h₂ (by omega)).bind fun tag s₃ c₃ h₃ hn₃ => ?_
  refine (SliceReader.row_agrees h₃ (key, tag) '}' fun s₄ c₄ h₄ hlt => ?_).mono (by omega)
  exact (ha.entries h₄ (by omega)).mono (Nat.le_of_lt hlt)

theorem readTag (ha : AgreeWith t separator fuel) (h : Stands t s c)
    (hf : 2 * c.rest.length < fuel + 1) :
    Agrees t c.rest.length (SliceReader.readTag t separator (fuel + 1) s)
      (Snbt.readTag separator (fuel + 1) c) := by
  obtain ⟨s₁, hrun, h₁⟩ := skipBlanks_ok h
  have hle := SliceReader.length_skipBlanks_le c
  rw [SliceReader.readTag, bind_of_ok hrun, bind_of_ok (peek_ok h₁), Snbt.readTag]
  generalize skipBlanks c = c₁ at *
  refine Agrees.mono ?_ hle
  cases hrest : c₁.rest with
  | nil =>
    simp only [List.head?_nil]
    rw [bind_of_ok (position_ok h₁)]
    exact .fail h₁ (by simp) h₁.on.isBoundary
  | cons d rest =>
    have hdrop : (c₁.drop 1).rest.length ≤ rest.length := by rw [Cursor.drop_one hrest]
    have hle₁ : rest.length ≤ (d :: rest).length := Nat.le_succ _
    rw [hrest, List.length_cons] at hle
    -- both readers go by the first character, each in its own match
    by_cases hbrace : d = '{'
    · subst hbrace
      obtain ⟨s₂, hrun, h₂⟩ := opening_ok h₁ hrest (by decide)
      simp only [List.head?_cons]
      rw [bind_of_ok hrun]
      refine Agrees.mono ?_ (Nat.le_trans hdrop hle₁)
      exact SliceReader.members_agrees h₂ (.compound []) Tag.compound fun s₃ c₃ h₃ hn =>
        (ha.entries h₃ (by omega)).mono hn
    by_cases hbracket : d = '['
    · subst hbracket
      obtain ⟨s₂, hrun, h₂⟩ := opening_ok h₁ hrest (by decide)
      obtain ⟨s₃, hrun', h₃⟩ := skipArrayMarks_ok h₂
      have hmarks := SliceReader.length_skipArrayMarks_le (c₁.drop 1)
      simp only [List.head?_cons]
      rw [bind_of_ok hrun, bind_of_ok hrun']
      refine Agrees.mono ?_ (Nat.le_trans (Nat.le_trans hmarks hdrop) hle₁)
      exact SliceReader.members_agrees h₃ (.list []) Tag.list fun s₄ c₄ h₄ hn =>
        (ha.items h₄ (by omega)).mono hn
    by_cases hdouble : d = '"'
    · subst hdouble
      exact (SliceReader.readQuoted_agrees h₁ hrest).bind fun u s₂ c₂ h₂ hn =>
        .pure h₂ (hrest ▸ hn) _
    by_cases hsingle : d = '\''
    · subst hsingle
      exact (SliceReader.readQuoted_agrees h₁ hrest).bind fun u s₂ c₂ h₂ hn =>
        .pure h₂ (hrest ▸ hn) _
    simpa [hrest, hbrace, hbracket, hdouble, hsingle] using SliceReader.readWord_agrees h₁

end AgreeWith

open SliceReader (skipBlanks_ok position_ok)

theorem agreeWith (t : Text) (separator : Char) (fuel : Nat) : AgreeWith t separator fuel := by
  induction fuel with
  | zero =>
    exact ⟨fun _ hf => absurd hf (Nat.not_lt_zero _), fun _ hf => absurd hf (Nat.not_lt_zero _),
      fun _ hf => absurd hf (Nat.not_lt_zero _)⟩
  | succ fuel ih =>
    exact ⟨fun h hf => ih.readTag h hf, fun h hf => ih.readEntries h (by omega),
      fun h hf => ih.readItems h (by omega)⟩

/-! ## Whole inputs -/

theorem agrees_readAll (separator : Char) (t : Text) :
    Agrees t 0 (SliceReader.readAll t separator .start)
      ((read separator t).map fun tag => (tag, ⟨[], t.byteLength⟩)) := by
  have htag := (agreeWith t separator (2 * t.length + 2)).tag (Stands.start t)
    (show 2 * t.length < 2 * t.length + 2 by omega)
  have hread : (read separator t).map (fun tag => (tag, (⟨[], t.byteLength⟩ : Cursor))) =
      readTag separator (2 * t.length + 2) (.start t) >>= fun p =>
        let c := skipBlanks p.2
        (if c.rest = [] then .ok p.1 else .error ⟨.trailingContent, c.offset⟩ :
          Except Error Tag).map fun tag => (tag, ⟨[], t.byteLength⟩) := by
    rw [read]
    cases readTag separator (2 * t.length + 2) (.start t) <;> rfl
  rw [hread, SliceReader.readAll]
  refine htag.bind fun tag s₁ c₁ h₁ _ => ?_
  obtain ⟨s₂, hrun, h₂⟩ := skipBlanks_ok h₁
  have hend := h₂.on.byteLength_eq
  rw [bind_of_ok hrun, bind_of_ok (position_ok h₂)]
  generalize skipBlanks c₁ = c₂ at *
  obtain ⟨rest, o⟩ := c₂
  simp only at hend ⊢
  by_cases hrest : rest = []
  · subst hrest
    rw [Text.byteLength_nil, Nat.add_zero] at hend
    rw [if_pos rfl, if_neg (by omega), hend]
    exact .pure h₂ (Nat.le_refl _) tag
  · have hpos := mt Text.byteLength_eq_zero_iff.1 hrest
    rw [if_neg hrest, if_pos (by omega)]
    exact .fail h₂ (by simp) h₂.on.isBoundary

/-- The reader by slices never stands behind the end or inside a character, whatever separates keys
    and values, and no slice of the input fails. It ends as the reader of texts does, and what is
    reported are places between characters. -/
theorem readSlices_on_boundaries (separator : Char) (t : Text) :
    (∀ n ∈ (readSlices separator t).2, n ≤ t.byteLength ∧ t.IsBoundary n) ∧
      (readSlices separator t).1 ≠ .error .brokenSlice ∧
      (readSlices separator t).1 = (read separator t).mapError .ofText ∧
      ∀ e, read separator t = .error e →
        e.problem ≠ .tooDeep ∧ e.offset ≤ t.byteLength ∧ t.IsBoundary e.offset := by
  have hle : ∀ {ns : List Nat}, (∀ n ∈ ns, t.IsBoundary n) →
      ∀ n ∈ ns, n ≤ t.byteLength ∧ t.IsBoundary n := fun hs n hn => ⟨(hs n hn).le, hs n hn⟩
  have hagrees := agrees_readAll separator t
  rw [readSlices]
  generalize SliceReader.readAll t separator .start = r at *
  cases hr : read separator t with
  | error e =>
    rw [hr] at hagrees
    cases hagrees with
    | error hs he ho =>
      refine ⟨hle hs, by simp, rfl, fun e' he' => ?_⟩
      obtain rfl := Except.error.inj he'
      exact ⟨he, ho.le, ho⟩
  | ok tag =>
    rw [hr] at hagrees
    cases hagrees with
    | ok h => exact ⟨hle h.positions, by simp, rfl, by simp⟩

/-- A separator of three bytes, one step wide, and a mark of two characters. -/
example : (readSlices '→' "\x7ba→[I;1]\x7d").2 = [11, 10, 9, 8, 6, 5, 2, 1, 0] := by
  decide +kernel

end Snbt

end CrossEdition
