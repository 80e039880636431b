import CrossEdition.Proofs.Json.ByteStrings

/-!
# Numbers and words in bytes

A number is cut off a text in parts: what may stand there or not, and what stands behind it. The
reader of bytes steps over the same parts, one after the other, and over single bytes only. What
it then takes for the literal are the bytes of a text.

Results:
* `numberPart_eq`: the parts of a number.
* `scans_number`: the reader steps over all of them.
* `Stands.readNumber`, `Stands.readWord`: numbers and words.
-/

namespace CrossEdition

namespace Json

open ByteReader (get_ok)
open Text (byteLength)

/-! ## Parts -/

/-- A way to cut off the start of a text. -/
abbrev Cut := Text → Text × Text

namespace Cut

/-- Cuts off nothing. -/
def nothing : Cut := fun u => ([], u)

/-- Cuts off all digits. -/
def digits : Cut := fun u => (u.takeWhile Char.isDigit, u.dropWhile Char.isDigit)

/-- Cuts off what `p` does and behind it what `q` does. -/
def andThen (p q : Cut) : Cut := fun u =>
  ((p u).1 ++ (q (p u).2).1, (q (p u).2).2)

/-- Cuts off a character that satisfies `f` and behind it what `q` does. -/
def behind (f : Char → Bool) (q : Cut) : Cut
  | [] => ([], [])
  | d :: rest => if f d then (d :: (q rest).1, (q rest).2) else ([], d :: rest)

theorem behind_cons {f : Char → Bool} {d : Char} (h : f d = true) (q : Cut) (rest : Text) :
    behind f q (d :: rest) = (d :: (q rest).1, (q rest).2) :=
  if_pos h

theorem behind_of_head {f : Char → Bool} {u : Text} (h : ∀ d ∈ u.head?, f d = false) (q : Cut) :
    behind f q u = ([], u) := by
  cases u with
  | nil => rfl
  | cons d rest => exact if_neg (by simp [h d rfl])

end Cut

section Parts

open Cut

theorem fractionPart_eq : fractionPart = behind (· = '.') digits := by
  funext u
  unfold fractionPart
  split
  · rfl
  · next hne =>
    refine (behind_of_head (fun d hd => decide_eq_false ?_) _).symm
    rintro rfl
    obtain ⟨rest, rfl⟩ := List.head?_eq_some_iff.1 hd
    exact hne rest rfl

theorem exponentPart_eq :
    exponentPart = behind (fun c => c = 'e' || c = 'E')
      ((behind (fun c => c = '+' || c = '-') nothing).andThen digits) := by
  funext u
  cases u with
  | nil => rfl
  | cons e rest =>
    by_cases he : e = 'e' ∨ e = 'E'
    · rw [behind_cons (by simpa using he)]
      simp only [exponentPart, if_pos he]
      split
      · rfl
      · rfl
      · next hplus hminus =>
        -- without a sign the digits come at once
        rw [andThen, behind_of_head]
        · rfl
        · intro d hd
          obtain ⟨v, rfl⟩ := List.head?_eq_some_iff.1 hd
          simpa using ⟨fun hd => hplus v (by rw [hd]), fun hd => hminus v (by rw [hd])⟩
    · rw [behind_of_head (by simpa using he)]
      simp only [exponentPart, if_neg he]

/-- A number is a sign, digits, a fraction and an exponent, each of which may be missing. -/
theorem numberPart_eq :
    numberPart = (behind (· = '-') nothing).andThen
      (digits.andThen ((behind (· = '.') digits).andThen exponentPart)) := by
  have hunsigned :
      unsignedPart = digits.andThen ((behind (· = '.') digits).andThen exponentPart) := by
    rw [← fractionPart_eq]
    rfl
  rw [← hunsigned]
  funext u
  by_cases hm : ∃ v, u = '-' :: v
  · obtain ⟨v, rfl⟩ := hm
    rw [numberPart_minus]
    rfl
  · have hhead : ∀ d ∈ u.head?, d ≠ '-' := by
      rintro _ hd rfl
      exact hm (List.head?_eq_some_iff.1 hd)
    rw [numberPart_of_ne hhead, andThen, behind_of_head fun d hd => decide_eq_false (hhead d hd)]
    rfl

end Parts

/-! ## Stepping over parts -/

/-- Whether a reader steps over what `p` cuts off, and over single bytes only. -/
def Scans (t : Text) (x : ByteReader Unit) (p : Cut) : Prop :=
  ∀ s c, Stands t s c → ∃ s₁, x s = .ok () s₁ ∧
    Stands t s₁ ⟨(p c.rest).2, c.offset + (p c.rest).1.length⟩

variable {t : Text}

namespace Scans

variable {x y : ByteReader Unit} {p q : Cut}

theorem nothing : Scans t (pure ()) Cut.nothing :=
  fun _ _ h => ⟨_, rfl, h⟩

theorem digits : Scans t (ByteReader.skip t.utf8 Char.isDigit) Cut.digits := by
  intro s c h
  obtain ⟨s₁, hrun, h₁⟩ := h.skip_ok ofBytes_isDigit
  have hlen : byteLength (c.rest.takeWhile Char.isDigit) = (c.rest.takeWhile Char.isDigit).length :=
    Text.byteLength_eq_length fun d hd => by
      rw [utf8Size_eq, if_pos (ofBytes_isDigit d (List.mem_takeWhile_imp hd))]
  rw [Cursor.skip, hlen] at h₁
  exact ⟨s₁, hrun, h₁⟩

theorem andThen (hx : Scans t x p) (hy : Scans t y q) :
    Scans t (x >>= fun _ => y) (p.andThen q) := by
  intro s c h
  obtain ⟨s₁, hrun, h₁⟩ := hx s c h
  obtain ⟨s₂, hrun', h₂⟩ := hy s₁ _ h₁
  refine ⟨s₂, by rw [bind_of_ok hrun, hrun'], ?_⟩
  simpa [Cut.andThen, Nat.add_assoc] using h₂

theorem behind {f : Char → Bool} (hf : OfBytes f) (hx : Scans t x q) :
    Scans t (ByteReader.optionally t.utf8 f x) (Cut.behind f q) := by
  intro s c h
  by_cases hd : ∃ d ∈ c.rest.head?, f d = true
  · obtain ⟨d, hd, hfd⟩ := hd
    obtain ⟨rest, hc⟩ := List.head?_eq_some_iff.1 hd
    obtain ⟨s₁, hrun, h₁⟩ := h.eat_ok hf hc hfd
    obtain ⟨s₂, hrun', h₂⟩ := hx s₁ _ h₁
    refine ⟨s₂, by rw [ByteReader.optionally, bind_of_ok hrun, if_pos rfl, hrun'], ?_⟩
    rw [hc, Cut.behind_cons hfd, List.length_cons, Nat.add_comm _ 1, ← Nat.add_assoc]
    exact h₂
  · have hnone : ∀ d ∈ c.rest.head?, f d = false := fun d hd' =>
      Bool.eq_false_iff.2 fun hfd => hd ⟨d, hd', hfd⟩
    refine ⟨s, by rw [ByteReader.optionally, bind_of_ok (h.eat_none hf hnone)]; rfl, ?_⟩
    rw [Cut.behind_of_head hnone]
    exact h

end Scans

theorem scans_number : Scans t (ByteReader.scanNumber t.utf8) numberPart := by
  rw [numberPart_eq, exponentPart_eq]
  have hexponent := Scans.andThen (t := t)
    (.behind (ofBytes_or (d := '+') (e := '-') (by decide) (by decide)) .nothing) .digits
  have hfraction := Scans.andThen (t := t) (.behind (ofBytes_eq (d := '.') (by decide)) .digits)
    (.behind (ofBytes_or (d := 'e') (e := 'E') (by decide) (by decide)) hexponent)
  exact .andThen (.behind (ofBytes_eq (by decide)) .nothing) (.andThen .digits hfraction)

/-! ## Numbers -/

variable {s : Path} {c : Cursor}

theorem Stands.readNumber (h : Stands t s c) :
    Agrees t (ByteReader.readNumber t.utf8 s) (Json.readNumber c) := by
  obtain ⟨s₁, hrun, h₁⟩ := scans_number s c h
  obtain ⟨n, -, hcut, hrest⟩ := exists_scanned c.rest
  rw [← hcut] at hrest
  rw [ByteReader.readNumber, bind_of_ok (get_ok s)]
  simp only
  rw [bind_of_ok hrun, bind_of_ok (get_ok s₁), Json.readNumber]
  generalize numberPart c.rest = cut at *
  obtain ⟨literal, rest⟩ := cut
  -- both places count the bytes of the whole text
  have hlen : byteLength literal = literal.length := by
    have hbefore := h.on.byteLength_eq
    have hbehind := h₁.on.byteLength_eq
    simp only at hrest hbehind
    rw [hrest, Text.byteLength_append] at hbefore
    omega
  have hbytes : (t.utf8.drop s.position).take (s₁.position - s.position) = literal.utf8 := by
    rw [h.drop_eq, h₁.position, h.position, Nat.add_sub_cancel_left, hrest, Text.utf8_append,
      ← hlen, ← Text.length_utf8, List.take_left]
  simp only [hbytes, Text.ofUtf8?_utf8]
  cases Decimal.ofText? literal with
  | none => exact h₁.fail (by simp)
  | some d => exact h₁.agrees _

/-! ## Words -/

theorem Stands.readWord (h : Stands t s c) (word : Text) :
    Agrees t (ByteReader.readWord t.utf8 word s) ((Json.readWord word c).map ((), ·)) := by
  rw [ByteReader.readWord, bind_of_ok (h.window?_ok _), Json.readWord]
  by_cases hp : word <+: c.rest
  · obtain ⟨rest, hrest⟩ := hp
    obtain ⟨hlen, htake⟩ := take_utf8 hrest.symm (Text.length_utf8 word).symm
    have hstep := h.drop word.length
    rw [← hrest, List.take_left, ← Text.length_utf8] at hstep
    rw [if_neg hlen, htake, if_pos rfl, if_pos (List.isPrefixOf_iff_prefix.2 ⟨rest, hrest⟩)]
    exact hstep.agrees ()
  · have hword : (if c.rest.byteLength < word.utf8.length then none
        else some (c.rest.utf8.take word.utf8.length)) ≠ some word.utf8 := by
      split_ifs
      · simp
      · intro hw
        have hbytes := List.take_append_drop word.utf8.length c.rest.utf8
        rw [Option.some.inj hw] at hbytes
        exact hp (Text.prefix_of_utf8_append hbytes)
    rw [if_neg hword, if_neg (mt List.isPrefixOf_iff_prefix.1 hp), bind_of_ok (get_ok s),
      h.position]
    exact h.fail (by simp)

/-- A word and what it stands for. -/
theorem Stands.word {α : Type} (h : Stands t s c) (word : Text) (a : α) :
    Agrees t ((ByteReader.readWord t.utf8 word >>= fun _ => pure a) s)
      ((Json.readWord word c).map fun c => (a, c)) := by
  have hword := (h.readWord word).next (f := fun _ => pure a) (g := fun c => .ok (a, c))
    fun s₁ c₁ _ h₁ => h₁.agrees a
  cases hw : Json.readWord word c <;> rw [hw] at hword <;> exact hword

end Json

end CrossEdition
