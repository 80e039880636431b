import CrossEdition.Text.Utf8

/-!
# Slices by bytes

A part of a text given by numbers of bytes. Only places between characters can be the ends of one,
so a number that points into a character, or behind the end, gives no slice.

Results:
* `cutAt?_eq_some_iff`: a cut gives back both sides of its place.
* `isSome_cutAt?_iff`: a text can be cut at the places between its characters and nowhere else.
* `slice?_eq_some_iff`, `isSome_slice?_iff`: a slice is a part of the text, and there is one
  exactly between two such places that stand in order.
-/

namespace CrossEdition

namespace Text

/-- What stands in front of the `n`-th byte and what stands from there on, or nothing if a
    character stands on both sides or the text is shorter. -/
def cutAt? : Nat → Text → Option (Text × Text)
  | 0, t => some ([], t)
  | _ + 1, [] => none
  | n + 1, c :: t =>
    if c.utf8Size ≤ n + 1 then
      (cutAt? (n + 1 - c.utf8Size) t).map fun (before, after) => (c :: before, after)
    else none

/-- What stands from the byte `start` on in front of the byte `stop`. -/
def slice? (start stop : Nat) (t : Text) : Option Text := do
  let (before, _) ← cutAt? stop t
  let (_, part) ← cutAt? start before
  return part

/-! ## Cuts -/

theorem cutAt?_append (before after : Text) :
    cutAt? (byteLength before) (before ++ after) = some (before, after) := by
  induction before with
  | nil => simp [cutAt?]
  | cons c before ih =>
    obtain ⟨n, hn⟩ : ∃ n, c.utf8Size + byteLength before = n + 1 :=
      Nat.exists_eq_add_one.2 (Nat.add_pos_left c.utf8Size_pos _)
    have hle : c.utf8Size ≤ n + 1 := by omega
    have hrest : n + 1 - c.utf8Size = byteLength before := by omega
    rw [byteLength_cons, hn, List.cons_append, cutAt?, if_pos hle, hrest, ih, Option.map_some]

theorem append_of_cutAt? {n : Nat} {t before after : Text}
    (h : cutAt? n t = some (before, after)) : t = before ++ after ∧ n = byteLength before := by
  fun_induction cutAt? n t generalizing before with
  | case1 t =>
    obtain ⟨rfl, rfl⟩ := Prod.mk.inj (Option.some.inj h)
    exact ⟨rfl, rfl⟩
  | case2 n => simp at h
  | case3 n c t hle ih =>
    obtain ⟨⟨u, v⟩, hcut, he⟩ := Option.map_eq_some_iff.1 h
    obtain ⟨rfl, rfl⟩ := Prod.mk.inj he
    obtain ⟨rfl, hn⟩ := ih hcut
    exact ⟨rfl, by rw [byteLength_cons, ← hn]; omega⟩
  | case4 n c t hle => simp at h

theorem cutAt?_eq_some_iff {n : Nat} {t before after : Text} :
    cutAt? n t = some (before, after) ↔ t = before ++ after ∧ n = byteLength before := by
  constructor
  · exact append_of_cutAt?
  · rintro ⟨rfl, rfl⟩
    exact cutAt?_append before after

theorem isSome_cutAt?_iff {n : Nat} {t : Text} : (cutAt? n t).isSome ↔ IsBoundary t n := by
  simp only [Option.isSome_iff_exists, Prod.exists, cutAt?_eq_some_iff, IsBoundary]

instance (t : Text) (n : Nat) : Decidable (IsBoundary t n) :=
  decidable_of_iff _ isSome_cutAt?_iff

/-! ## Slices -/

theorem slice?_eq_some_iff {start stop : Nat} {t part : Text} :
    slice? start stop t = some part ↔
      ∃ before after, t = before ++ part ++ after ∧ start = byteLength before ∧
        stop = byteLength (before ++ part) := by
  constructor
  · intro h
    obtain ⟨⟨front, after⟩, hstop, h⟩ := Option.bind_eq_some_iff.1 h
    obtain ⟨⟨before, u⟩, hstart, h⟩ := Option.bind_eq_some_iff.1 h
    obtain rfl : u = part := Option.some.inj h
    obtain ⟨rfl, hn⟩ := append_of_cutAt? hstart
    obtain ⟨rfl, hm⟩ := append_of_cutAt? hstop
    exact ⟨before, after, rfl, hn, hm⟩
  · rintro ⟨before, after, rfl, rfl, rfl⟩
    simp only [slice?, cutAt?_append, Option.bind_eq_bind, Option.bind_some, Option.pure_def]

/-- Of two texts that begin another one the one of fewer bytes begins the other one. -/
theorem prefix_of_byteLength_le {s u t : Text} (hs : s <+: t) (hu : u <+: t)
    (h : byteLength s ≤ byteLength u) : s <+: u := by
  rcases List.prefix_or_prefix_of_prefix hs hu with hsu | ⟨w, rfl⟩
  · exact hsu
  · rw [byteLength_append] at h
    have hw : w = [] := byteLength_eq_zero_iff.1 (by omega)
    simp [hw]

/-- There is a slice between any two boundaries in order, and no other one. -/
theorem isSome_slice?_iff {start stop : Nat} {t : Text} :
    (slice? start stop t).isSome ↔ start ≤ stop ∧ IsBoundary t start ∧ IsBoundary t stop := by
  constructor
  · intro h
    obtain ⟨part, hpart⟩ := Option.isSome_iff_exists.1 h
    obtain ⟨before, after, rfl, rfl, rfl⟩ := slice?_eq_some_iff.1 hpart
    rw [byteLength_append]
    exact ⟨Nat.le_add_right _ _, ⟨before, part ++ after, List.append_assoc .., rfl⟩,
      ⟨before ++ part, after, rfl, (byteLength_append _ _).symm⟩⟩
  · rintro ⟨hle, ⟨before, u, rfl, rfl⟩, ⟨front, after, ht, rfl⟩⟩
    obtain ⟨part, rfl⟩ := prefix_of_byteLength_le ⟨u, rfl⟩ ⟨after, ht.symm⟩ hle
    exact Option.isSome_of_eq_some (slice?_eq_some_iff.2 ⟨before, after, ht, rfl, rfl⟩)

/-- No slice ends inside a character, not even one of no bytes. -/
example : ¬ IsBoundary "éa" 1 ∧ slice? 0 1 "éa" = none ∧ slice? 1 1 "éa" = none ∧
    slice? 2 3 "éa" = some ("a" : Text) := by
  decide

end Text

end CrossEdition
