import CrossEdition.Text.Blank

/-!
# Cursors

The state of a reader: what is left of its input, and how many bytes of UTF-8 lie
behind it. Readers advance the two fields side by side; that they agree is the
invariant `Cursor.On`.

Results:
* `On.start`, `On.advance`: the invariant holds at the start, and going on keeps it.
* `length_skip_le`, `length_of_eat?`: no more is left than before.
* `exists_of_bind_ok`, `exists_of_map_ok`, `snd_eq_of_ok`: the steps of a reader that came to an end.
-/

namespace CrossEdition

/-- A place in a text that is being read. -/
structure Cursor where
  /-- The part that is not read yet. -/
  rest : Text
  /-- The number of bytes in front of it. -/
  offset : Nat
deriving DecidableEq, Repr

namespace Cursor

/-- The cursor in front of a text. -/
def start (t : Text) : Cursor :=
  ⟨t, 0⟩

/-- The cursor `n` characters on. -/
def drop (n : Nat) (c : Cursor) : Cursor :=
  ⟨c.rest.drop n, c.offset + Text.byteLength (c.rest.take n)⟩

/-- The cursor behind all characters in a row that satisfy `p`. -/
def skip (p : Char → Bool) (c : Cursor) : Cursor :=
  ⟨c.rest.dropWhile p, c.offset + Text.byteLength (c.rest.takeWhile p)⟩

/-- The cursor behind the next character if that is `ch`. -/
def eat? (ch : Char) (c : Cursor) : Option Cursor :=
  match c.rest with
  | d :: rest => if d = ch then some ⟨rest, c.offset + d.utf8Size⟩ else none
  | [] => none

/-- Whether the cursor stands in `input`: what is left is an end of it, and the
    offset is the number of bytes in front of that end. -/
def On (input : Text) (c : Cursor) : Prop :=
  ∃ before, input = before ++ c.rest ∧ c.offset = Text.byteLength before

theorem On.start (t : Text) : On t (start t) :=
  ⟨[], rfl, rfl⟩

/-- A reader that goes over a part of what is left stays in its input. -/
theorem On.advance {input u rest : Text} {c : Cursor} (h : On input c) (hc : c.rest = u ++ rest) :
    On input ⟨rest, c.offset + Text.byteLength u⟩ := by
  obtain ⟨before, hi, ho⟩ := h
  exact ⟨before ++ u, by rw [hi, hc, List.append_assoc], by rw [ho, Text.byteLength_append]⟩

theorem rest_of_eat? {c d : Cursor} {ch : Char} (h : c.eat? ch = some d) :
    c.rest = ch :: d.rest := by
  unfold eat? at h
  split at h
  · next e rest hr =>
    split at h
    · next he => rw [← Option.some.inj h, hr, he]
    · simp at h
  · simp at h

theorem drop_one {c : Cursor} {d : Char} {rest : Text} (h : c.rest = d :: rest) :
    c.drop 1 = ⟨rest, c.offset + d.utf8Size⟩ := by
  simp [drop, h]

theorem skip_append (p : Char → Bool) (c : Cursor) :
    c.rest = c.rest.takeWhile p ++ (c.skip p).rest :=
  List.takeWhile_append_dropWhile.symm

theorem length_skip_le (p : Char → Bool) (c : Cursor) : (c.skip p).rest.length ≤ c.rest.length :=
  (List.dropWhile_suffix p).length_le

theorem length_of_eat? {c d : Cursor} {ch : Char} (h : c.eat? ch = some d) :
    d.rest.length < c.rest.length := by
  rw [rest_of_eat? h]
  exact Nat.lt_succ_self _

theorem On.length_le {input : Text} {c : Cursor} (h : On input c) :
    c.rest.length ≤ input.length := by
  obtain ⟨before, hi, -⟩ := h
  rw [hi, List.length_append]
  exact Nat.le_add_left _ _

end Cursor

/-! ## Readers that may fail -/

theorem exists_of_bind_ok {ε α β : Type} {x : Except ε α} {f : α → Except ε β} {b : β}
    (h : x >>= f = .ok b) : ∃ a, x = .ok a ∧ f a = .ok b := by
  cases x with
  | error e => simp [bind, Except.bind] at h
  | ok a => exact ⟨a, rfl, h⟩

theorem exists_of_map_ok {ε α β : Type} {x : Except ε α} {f : α → β} {b : β}
    (h : x.map f = .ok b) : ∃ a, x = .ok a ∧ f a = b := by
  cases x with
  | error e => simp [Except.map] at h
  | ok a => exact ⟨a, rfl, Except.ok.inj h⟩

/-- Where a reader stands at its end. -/
theorem snd_eq_of_ok {ε α β : Type} {a b : α} {c d : β}
    (h : (.ok (a, c) : Except ε (α × β)) = .ok (b, d)) : c = d :=
  (Prod.mk.inj (Except.ok.inj h)).2

/-- A reader with a state goes on from where its first step ends. -/
theorem bind_of_ok {ε σ α β : Type} {x : EStateM ε σ α} {f : α → EStateM ε σ β} {a : α} {s s₁ : σ}
    (h : x s = .ok a s₁) : (x >>= f) s = f a s₁ := by
  rw [show (x >>= f) s = EStateM.bind x f s from rfl, EStateM.bind, h]

end CrossEdition
