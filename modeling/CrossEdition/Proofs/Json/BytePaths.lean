import CrossEdition.Json.ByteReader
import CrossEdition.Proofs.Json.Acceptance

/-!
# Paths between characters

The reader of bytes looks at single bytes and moves by numbers of them. On the bytes of a text it
still moves from character to character: every byte that it asks for is a character of its own,
and the first byte of a longer one is none of them. So it can be followed by the reader of texts,
from one place to the same place.

Results:
* `charWidth_firstByte`: a character is as wide as its first byte says.
* `Stands`: the invariant, that the reader came only by places between characters and stands where
  the reader of texts does; `Stands.advance`, `Stands.look`, `Stands.skip`: what keeps it and what
  is seen from there.
* `Agrees`, `Agrees.bind`: readers side by side, and one step after the other.
-/

namespace CrossEdition

namespace Cursor

theorem drop_drop (c : Cursor) (m n : Nat) : (c.drop m).drop n = c.drop (m + n) := by
  simp [drop, List.take_add, Nat.add_assoc]

theorem length_drop_le (c : Cursor) (n : Nat) : (c.drop n).rest.length ≤ c.rest.length := by
  simp [drop]

theorem On.byteLength_eq {t : Text} {c : Cursor} (h : c.On t) :
    t.byteLength = c.offset + c.rest.byteLength := by
  obtain ⟨before, ht, ho⟩ := h
  rw [ht, ho, Text.byteLength_append]

theorem On.isBoundary {t : Text} {c : Cursor} (h : c.On t) : t.IsBoundary c.offset := by
  obtain ⟨before, ht, ho⟩ := h
  exact ⟨before, c.rest, ht, ho⟩

end Cursor

namespace Json

open Text (utf8 byteLength)

/-! ## First bytes -/

theorem toNat_lt (c : Char) : c.toNat < 0x110000 := by
  have h : c.toNat < 0xd800 ∨ 0xdfff < c.toNat ∧ c.toNat < 0x110000 := c.valid
  omega

theorem toNat_firstByte (c : Char) :
    (firstByte c).toNat =
      if c.toNat < 0x80 then c.toNat
      else if c.toNat < 0x800 then 0xc0 + c.toNat / 0x40
      else if c.toNat < 0x10000 then 0xe0 + c.toNat / 0x1000
      else 0xf0 + c.toNat / 0x40000 := by
  have hsmall : ∀ {n : Nat}, n < 0x100 → (Char.ofNat n).toNat = n := fun hn =>
    congrArg Char.toNat (dif_pos (.inl (by omega)))
  have hc := toNat_lt c
  simp only [firstByte]
  split_ifs
  · rfl
  all_goals exact hsmall (by omega)

theorem utf8Size_eq (c : Char) :
    c.utf8Size = if c.toNat < 0x80 then 1 else if c.toNat < 0x800 then 2
      else if c.toNat < 0x10000 then 3 else 4 := by
  simp only [Char.utf8Size, UInt32.le_iff_toNat_le, Nat.lt_succ_iff]
  rfl

/-- A character is as wide as its first byte says. -/
theorem charWidth_firstByte (c : Char) : charWidth (firstByte c) = c.utf8Size := by
  have hc := toNat_lt c
  simp only [charWidth, toNat_firstByte, utf8Size_eq]
  split_ifs <;> omega

theorem exists_utf8EncodeChar (c : Char) :
    ∃ b bs, String.utf8EncodeChar c = b :: bs ∧ byteChar b = firstByte c := by
  have hbyte : ∀ {n m : Nat}, n = m → n < 0x100 → byteChar (UInt8.ofNat n) = Char.ofNat m := by
    rintro n _ rfl hn
    rw [byteChar, UInt8.toNat_ofNat_of_lt' hn]
  have hc := toNat_lt c
  have hv : c.val.toNat = c.toNat := rfl
  simp only [String.utf8EncodeChar, firstByte, hv, Nat.le_iff_lt_add_one, Nat.reduceAdd]
  split_ifs
  · exact ⟨_, _, rfl, by rw [hbyte rfl (by omega), Char.ofNat_toNat]⟩
  all_goals exact ⟨_, _, rfl, hbyte (by omega) (by omega)⟩

/-! ### Single bytes -/

theorem firstByte_of_lt {c : Char} (h : c.toNat < 0x80) : firstByte c = c :=
  if_pos h

/-- A longer character begins with no byte that is a character of its own. -/
theorem lt_of_firstByte_lt {c : Char} (h : (firstByte c).toNat < 0x80) : c.toNat < 0x80 := by
  rw [toNat_firstByte] at h
  split_ifs at h <;> omega

theorem utf8EncodeChar_of_lt {c : Char} (h : c.toNat < 0x80) :
    ∃ b, String.utf8EncodeChar c = [b] ∧ byteChar b = c := by
  obtain ⟨b, bs, he, hb⟩ := exists_utf8EncodeChar c
  have hs : c.utf8Size = 1 := by rw [utf8Size_eq, if_pos h]
  rw [← String.length_utf8EncodeChar, he] at hs
  cases bs with
  | nil => exact ⟨b, he, by rw [hb, firstByte_of_lt h]⟩
  | cons b bs => simp at hs

theorem byteLength_single {c : Char} (h : c.toNat < 0x80) : byteLength [c] = 1 := by
  rw [Text.byteLength_cons, utf8Size_eq, if_pos h, Text.byteLength_nil]

/-- Whether a property holds of single bytes only. -/
def OfBytes (p : Char → Bool) : Prop :=
  ∀ c, p c = true → c.toNat < 0x80

theorem OfBytes.firstByte {p : Char → Bool} (hp : OfBytes p) (c : Char) :
    p (firstByte c) = p c := by
  by_cases hc : c.toNat < 0x80
  · rw [firstByte_of_lt hc]
  · rw [Bool.eq_false_iff.2 fun h => hc (hp c h),
      Bool.eq_false_iff.2 fun h => hc (lt_of_firstByte_lt (hp _ h))]

theorem ofBytes_eq {d : Char} (hd : d.toNat < 0x80) : OfBytes (· = d) := by
  intro c hc
  rwa [of_decide_eq_true hc]

theorem ofBytes_or {d e : Char} (hd : d.toNat < 0x80) (he : e.toNat < 0x80) :
    OfBytes (fun c => c = d || c = e) := by
  intro c hc
  rcases Bool.or_eq_true_iff.1 hc with hc | hc
  · exact ofBytes_eq hd c hc
  · exact ofBytes_eq he c hc

theorem ofBytes_isBlank : OfBytes isBlank := by
  intro c hc
  have hall : ∀ c ∈ ([' ', '\t', '\n', '\r'] : Text), c.toNat < 0x80 := by decide
  exact hall c (isBlank_iff.1 hc)

theorem ofBytes_isDigit : OfBytes Char.isDigit := by
  intro c hc
  exact Nat.lt_of_le_of_lt (Numeral.isDigit_iff.1 hc).2 (by decide)

theorem firstByte_eq_iff {c d : Char} (hd : d.toNat < 0x80) : firstByte c = d ↔ c = d := by
  simpa using (ofBytes_eq hd).firstByte c

theorem head_firstByte_iff {u : Text} {d : Char} (hd : d.toNat < 0x80) :
    u.head?.map firstByte = some d ↔ ∃ rest, u = d :: rest := by
  cases u with
  | nil => simp
  | cons e rest => simp [firstByte_eq_iff hd]

/-! ## Places -/

/-- Whether a reader of the bytes of `t` came only by places between characters, and stands where
    a reader of `t` stands. -/
structure Stands (t : Text) (s : Path) (c : Cursor) : Prop where
  on : c.On t
  position : s.position = c.offset
  earlier : ∀ n ∈ s.earlier, t.IsBoundary n

section Stands

variable {t : Text} {s : Path} {c : Cursor}

theorem Stands.start (t : Text) : Stands t .start (.start t) :=
  ⟨.start t, rfl, by simp [Path.start]⟩

theorem Stands.positions (h : Stands t s c) : ∀ n ∈ s.positions, t.IsBoundary n :=
  List.forall_mem_cons.2 ⟨h.position ▸ h.on.isBoundary, h.earlier⟩

/-- The bytes ahead are those of the text ahead. -/
theorem Stands.drop_eq (h : Stands t s c) : t.utf8.drop s.position = c.rest.utf8 := by
  obtain ⟨before, ht, ho⟩ := h.on
  rw [h.position, ho, ht, Text.utf8_append, ← Text.length_utf8, List.drop_left]

/-- A step over characters is one over all their bytes. -/
theorem Stands.advance (h : Stands t s c) {u rest : Text} (hc : c.rest = u ++ rest) :
    Stands t (s.advance u.byteLength) ⟨rest, c.offset + u.byteLength⟩ := by
  refine ⟨h.on.advance hc, ?_, h.positions⟩
  rw [← h.position]
  rfl

theorem Stands.drop (h : Stands t s c) (n : Nat) :
    Stands t (s.advance (byteLength (c.rest.take n))) (c.drop n) :=
  h.advance (List.take_append_drop n c.rest).symm

theorem Stands.single (h : Stands t s c) {d : Char} {rest : Text} (hc : c.rest = d :: rest)
    (hd : d.toNat < 0x80) : Stands t (s.advance 1) ⟨rest, c.offset + 1⟩ := by
  have hstep := h.advance (u := [d]) hc
  rwa [byteLength_single hd] at hstep

/-- The next byte. -/
theorem Stands.look (h : Stands t s c) :
    t.utf8[s.position]?.map byteChar = c.rest.head?.map firstByte := by
  have hget : t.utf8[s.position]? = c.rest.utf8.head? := by
    rw [← h.drop_eq, List.head?_drop]
  rw [hget]
  cases c.rest with
  | nil => rfl
  | cons d rest =>
    obtain ⟨b, bs, he, hb⟩ := exists_utf8EncodeChar d
    rw [Text.utf8_cons, he, List.cons_append, List.head?_cons, Option.map_some, hb]
    rfl

/-- Two single bytes that are ahead. -/
theorem Stands.look_two_iff (h : Stands t s c) {d e : Char} (hd : d.toNat < 0x80)
    (he : e.toNat < 0x80) :
    c.rest.head?.map firstByte = some d ∧ t.utf8[s.position + 1]?.map byteChar = some e ↔
      ∃ rest, c.rest = d :: e :: rest := by
  constructor
  · rintro ⟨hfirst, hsecond⟩
    obtain ⟨u, hu⟩ := (head_firstByte_iff hd).1 hfirst
    obtain ⟨rest, rfl⟩ := (head_firstByte_iff he).1 ((h.single hu hd).look ▸ hsecond)
    exact ⟨rest, hu⟩
  · rintro ⟨rest, hrest⟩
    exact ⟨(head_firstByte_iff hd).2 ⟨_, hrest⟩,
      (h.single hrest hd).look.trans ((head_firstByte_iff he).2 ⟨_, rfl⟩)⟩

/-- A row of bytes is a row of characters. -/
theorem Stands.skip (h : Stands t s c) {p : Char → Bool} (hp : OfBytes p) :
    Stands t (s.skip p (t.utf8.drop s.position)) (c.skip p) := by
  rw [h.drop_eq]
  obtain ⟨rest, o⟩ := c
  simp only
  induction rest generalizing s o with
  | nil => exact h
  | cons d rest ih =>
    by_cases hd : p d = true
    · obtain ⟨b, he, hb⟩ := utf8EncodeChar_of_lt (hp d hd)
      have hstep := ih _ (h.single rfl (hp d hd))
      rw [Text.utf8_cons, he, List.singleton_append, Path.skip, hb, if_pos hd]
      simpa [Cursor.skip, hd, utf8Size_eq, hp d hd, Nat.add_assoc] using hstep
    · obtain ⟨b, bs, he, hb⟩ := exists_utf8EncodeChar d
      rw [Text.utf8_cons, he, List.cons_append, Path.skip, hb, hp.firstByte, if_neg hd]
      simpa [Cursor.skip, hd] using h

end Stands

/-! ## Readers side by side -/

/-- Whether a reader of the bytes of `t` and a reader of `t` end alike: with the same value and at
    the same place, or with the same error, and that not for want of fuel. -/
inductive Agrees (t : Text) {α : Type} :
    EStateM.Result ByteError Path α → Except Error (α × Cursor) → Prop
  | ok {a : α} {s : Path} {c : Cursor} (h : Stands t s c) : Agrees t (.ok a s) (.ok (a, c))
  | error {e : Error} {s : Path} (he : e ≠ .tooDeep) (hs : ∀ n ∈ s.positions, t.IsBoundary n) :
    Agrees t (.error (.ofText e) s) (.error e)

section Agrees

variable {α β : Type} {t : Text} {s : Path} {c : Cursor}

theorem Stands.agrees (h : Stands t s c) (a : α) :
    Agrees t ((pure a : ByteReader α) s) (.ok (a, c)) :=
  .ok h

theorem Stands.fail (h : Stands t s c) {e : Error} (he : e ≠ .tooDeep) :
    Agrees t ((ByteReader.fail e : ByteReader α) s) (.error e) :=
  .error he h.positions

theorem Agrees.bind {x : ByteReader α} {f : α → ByteReader β} {y : Except Error (α × Cursor)}
    {g : α × Cursor → Except Error (β × Cursor)} (h : Agrees t (x s) y)
    (hf : ∀ a s₁ c₁, y = .ok (a, c₁) → Stands t s₁ c₁ → Agrees t (f a s₁) (g (a, c₁))) :
    Agrees t ((x >>= f) s) (y >>= g) := by
  rw [show (x >>= f) s = EStateM.bind x f s from rfl, EStateM.bind]
  generalize x s = r at h
  cases h with
  | ok hs => exact hf _ _ _ rfl hs
  | error he hs => exact .error he hs

theorem Agrees.map {x : ByteReader α} {y : Except Error (α × Cursor)} (h : Agrees t (x s) y)
    (f : α → β) : Agrees t ((x >>= fun a => pure (f a)) s) (y.map fun (a, c) => (f a, c)) := by
  have hbind := h.bind (f := fun a => pure (f a)) (g := fun p => .ok (f p.1, p.2))
    fun a s₁ c₁ _ hs => hs.agrees _
  cases y <;> exact hbind

/-- Behind a reader of texts that gives nothing but a place. -/
theorem Agrees.next {x : ByteReader Unit} {f : Unit → ByteReader β} {y : Except Error Cursor}
    {g : Cursor → Except Error (β × Cursor)} (h : Agrees t (x s) (y.map ((), ·)))
    (hf : ∀ s₁ c₁, y = .ok c₁ → Stands t s₁ c₁ → Agrees t (f () s₁) (g c₁)) :
    Agrees t ((x >>= f) s) (y >>= g) := by
  have hbind := h.bind (f := f) (g := fun p => g p.2) fun a s₁ c₁ hy hs => by
    obtain ⟨c₂, hread, hc⟩ := exists_of_map_ok hy
    rw [← (Prod.mk.inj hc).2] at hs ⊢
    exact hf s₁ c₂ hread hs
  cases y <;> exact hbind

/-! ## Steps that cannot fail -/

theorem ByteReader.get_ok (s : Path) : (get : ByteReader Path) s = .ok s s :=
  rfl

theorem Stands.look_ok (h : Stands t s c) :
    ByteReader.look t.utf8 0 s = .ok (c.rest.head?.map firstByte) s := by
  rw [← h.look]
  rfl

theorem Stands.advance_ok (h : Stands t s c) {d : Char} {rest : Text} (hc : c.rest = d :: rest)
    (hd : d.toNat < 0x80) :
    ∃ s₁, ByteReader.advance 1 s = .ok () s₁ ∧ Stands t s₁ (c.drop 1) := by
  have hdrop : c.drop 1 = ⟨rest, c.offset + 1⟩ := by
    simp [Cursor.drop, hc, utf8Size_eq, hd]
  exact ⟨_, rfl, hdrop ▸ h.single hc hd⟩

theorem Stands.skip_ok (h : Stands t s c) {p : Char → Bool} (hp : OfBytes p) :
    ∃ s₁, ByteReader.skip t.utf8 p s = .ok () s₁ ∧ Stands t s₁ (c.skip p) :=
  ⟨_, rfl, h.skip hp⟩

theorem Stands.skipBlanks (h : Stands t s c) :
    ∃ s₁, ByteReader.skipBlanks t.utf8 s = .ok () s₁ ∧ Stands t s₁ (Json.skipBlanks c) :=
  h.skip_ok ofBytes_isBlank

theorem Stands.eat_ok (h : Stands t s c) {p : Char → Bool} (hp : OfBytes p) {d : Char}
    {rest : Text} (hc : c.rest = d :: rest) (hd : p d = true) :
    ∃ s₁, ByteReader.eat t.utf8 p s = .ok true s₁ ∧ Stands t s₁ ⟨rest, c.offset + 1⟩ := by
  refine ⟨_, ?_, h.single hc (hp d hd)⟩
  rw [ByteReader.eat, bind_of_ok h.look_ok, hc, List.head?_cons, Option.map_some]
  simp only [hp.firstByte, hd, if_true]
  rfl

theorem Stands.eat_none (h : Stands t s c) {p : Char → Bool} (hp : OfBytes p)
    (hc : ∀ d ∈ c.rest.head?, p d = false) : ByteReader.eat t.utf8 p s = .ok false s := by
  rw [ByteReader.eat, bind_of_ok h.look_ok]
  cases hr : c.rest.head? with
  | none => rfl
  | some d =>
    simp only [Option.map_some, hp.firstByte, hc d hr]
    rfl

/-- A character is eaten by both readers or by none. -/
theorem Stands.eat?_some (h : Stands t s c) {ch : Char} (hch : ch.toNat < 0x80) {c₁ : Cursor}
    (he : c.eat? ch = some c₁) :
    ∃ s₁, ByteReader.eat t.utf8 (· = ch) s = .ok true s₁ ∧ Stands t s₁ c₁ := by
  have hrest := Cursor.rest_of_eat? he
  have hc₁ : ⟨c₁.rest, c.offset + 1⟩ = c₁ := by
    simpa [Cursor.eat?, hrest, utf8Size_eq, hch] using he
  exact hc₁ ▸ h.eat_ok (ofBytes_eq hch) hrest (by simp)

theorem Stands.eat?_none (h : Stands t s c) {ch : Char} (hch : ch.toNat < 0x80)
    (he : c.eat? ch = none) : ByteReader.eat t.utf8 (· = ch) s = .ok false s := by
  refine h.eat_none (ofBytes_eq hch) fun d hd => decide_eq_false ?_
  rintro rfl
  obtain ⟨rest, hrest⟩ := List.head?_eq_some_iff.1 hd
  simp [Cursor.eat?, hrest] at he

theorem Stands.expect (h : Stands t s c) {ch : Char} (hch : ch.toNat < 0x80) :
    Agrees t (ByteReader.expect t.utf8 ch s) ((Json.expect ch c).map ((), ·)) := by
  obtain ⟨s₁, hrun, h₁⟩ := h.skipBlanks
  rw [ByteReader.expect, bind_of_ok hrun, Json.expect]
  cases he : (Json.skipBlanks c).eat? ch with
  | some c₁ =>
    obtain ⟨s₂, hrun, h₂⟩ := h₁.eat?_some hch he
    rw [bind_of_ok hrun]
    exact h₂.agrees ()
  | none =>
    rw [bind_of_ok (h₁.eat?_none hch he), if_neg Bool.false_ne_true, bind_of_ok h₁.look_ok,
      bind_of_ok (ByteReader.get_ok s₁), h₁.position]
    exact h₁.fail (by simp)

end Agrees

end Json

end CrossEdition
