/-!
# Texts

A text is the list of its characters, so every function on texts is a recursion on
that list. Literals are written as strings and read as texts.

Results:
* `cut_eq_some_iff`: a cut at a character gives back both sides of its first
  occurrence.
* `cut_eq_none_iff`: no cut exactly when the character does not occur.
-/

namespace CrossEdition

/-- A text: the list of its characters. -/
abbrev Text := List Char

instance : Coe String Text := ⟨String.toList⟩

namespace Text

/-! ## Instances

Texts are searched from their start, and not by going through all characters there are.
-/

instance (priority := high) lawfulBEq : LawfulBEq Text :=
  inferInstanceAs (LawfulBEq (List Char))

instance (priority := high) decidableForall {p : Char → Prop} [DecidablePred p] (t : Text) :
    Decidable (∀ c, c ∈ t → p c) :=
  List.decidableBAll p t

instance (priority := high) decidableExists {p : Char → Prop} [DecidablePred p] (t : Text) :
    Decidable (∃ c, c ∈ t ∧ p c) :=
  List.decidableBEx p t

instance (priority := high) decidableForallOption {p : Char → Prop} [DecidablePred p]
    (o : Option Char) : Decidable (∀ c, c ∈ o → p c) :=
  match o with
  | none => .isTrue nofun
  | some c => decidable_of_iff (p c) ⟨fun h _ hd => Option.some.inj hd ▸ h, fun h => h c rfl⟩

/-! ## Pieces -/

/-- The text without the longest end whose characters all satisfy `p`. -/
def dropEndWhile (p : Char → Bool) (t : Text) : Text :=
  (t.reverse.dropWhile p).reverse

/-- Both sides of the first `c`, or nothing if `c` does not occur. -/
def cut (c : Char) : Text → Option (Text × Text)
  | [] => none
  | d :: rest =>
    if d = c then some ([], rest)
    else (cut c rest).map fun (before, after) => (d :: before, after)

/-- Both sides of the first two points in a row, or nothing if there are none. -/
def cutDots : Text → Option (Text × Text)
  | [] => none
  | '.' :: '.' :: rest => some ([], rest)
  | c :: rest => (cutDots rest).map fun (before, after) => (c :: before, after)

/-- What follows `start`, if the text begins with it. -/
def after? (start : Text) (t : Text) : Option Text :=
  if start.isPrefixOf t then some (t.drop start.length) else none

/-- The parts in order, with `separator` between each two. -/
def join (separator : Text) : List Text → Text
  | [] => []
  | [part] => part
  | part :: rest => part ++ separator ++ join separator rest

/-- The number of bytes that the text takes in UTF-8. -/
def byteLength (t : Text) : Nat :=
  t.foldr (fun c n => c.utf8Size + n) 0

/-- A natural number in decimal digits, without leading zeros. -/
def ofNat (n : Nat) : Text :=
  Nat.toDigits 10 n

/-- A whole number in decimal digits, with a minus sign if it is negative. -/
def ofInt (n : Int) : Text :=
  if n < 0 then '-' :: ofNat n.natAbs else ofNat n.natAbs

/-! ## Lemmas -/

theorem cut_eq_none_iff {c : Char} {t : Text} : cut c t = none ↔ c ∉ t := by
  induction t with
  | nil => simp [cut]
  | cons d rest ih =>
    by_cases h : d = c
    · simp [cut, h]
    · simp [cut, h, ih, Ne.symm h]

theorem cut_eq_some_iff {c : Char} {t before after : Text} :
    cut c t = some (before, after) ↔ t = before ++ c :: after ∧ c ∉ before := by
  induction t generalizing before with
  | nil => simp [cut]
  | cons d rest ih =>
    by_cases h : d = c
    · subst h
      cases before with
      | nil => simp [cut]
      | cons e before => simp +contextual [cut]
    · cases before with
      | nil => simp [cut, h]
      | cons e before =>
        simp only [cut, h, if_false, Option.map_eq_some_iff, Prod.mk.injEq, Prod.exists,
          List.cons.injEq, List.cons_append, List.mem_cons, not_or]
        constructor
        · rintro ⟨b, a, hb, ⟨rfl, rfl⟩, rfl⟩
          obtain ⟨rfl, hn⟩ := ih.1 hb
          exact ⟨⟨rfl, rfl⟩, Ne.symm h, hn⟩
        · rintro ⟨⟨rfl, rfl⟩, _, hn⟩
          exact ⟨before, after, ih.2 ⟨rfl, hn⟩, ⟨rfl, rfl⟩, rfl⟩

theorem join_cons_of_ne_nil (c : Char) (t : Text) {ts : List Text} (h : ts ≠ []) :
    join [c] (t :: ts) = t ++ c :: join [c] ts := by
  obtain ⟨u, us, rfl⟩ := List.exists_cons_of_ne_nil h
  simp [join]

theorem lookup_cons {α : Type} (key other : Text) (a : α) (rest : List (Text × α)) :
    ((other, a) :: rest).lookup key = if other = key then some a else rest.lookup key := by
  by_cases h : other = key
  · simp [h]
  · have hb : (key == other) = false := by simpa using Ne.symm h
    simp [h, List.lookup_cons, hb]

@[simp] theorem byteLength_nil : byteLength [] = 0 := rfl

@[simp] theorem byteLength_cons (c : Char) (t : Text) :
    byteLength (c :: t) = c.utf8Size + byteLength t := rfl

@[simp] theorem byteLength_append (s t : Text) :
    byteLength (s ++ t) = byteLength s + byteLength t := by
  induction s with
  | nil => simp
  | cons c s ih => rw [List.cons_append, byteLength_cons, byteLength_cons, ih, Nat.add_assoc]

/-- Single bytes fill as many bytes as they are. -/
theorem byteLength_eq_length {t : Text} (h : ∀ c ∈ t, c.utf8Size = 1) :
    byteLength t = t.length := by
  induction t with
  | nil => rfl
  | cons c t ih =>
    rw [byteLength_cons, h c (by simp), ih fun d hd => h d (by simp [hd]), List.length_cons,
      Nat.add_comm]

/-- What holds of the first codes, checked one by one, holds of their characters. -/
theorem forall_char_of_lt {n : Nat} {P : Char → Prop} (h : ∀ k < n, P (Char.ofNat k)) :
    ∀ c : Char, c.toNat < n → P c := by
  intro c hc
  have hp := h c.toNat hc
  rwa [Char.ofNat_toNat] at hp

end Text

end CrossEdition
