import CrossEdition.Proofs.Chat.Entries

/-!
# Escaped entries

A comma that belongs to an entry is written behind a backslash, and nothing is written for the
backslash itself. So a backslash at the end of an entry takes the comma behind it for one of the
entry, and both entries become one; anywhere else it stays as it is.

Results:
* `fused`: what entries become when they are escaped, joined and split again.
* `split_join_escape`: that is what is read, for every list.
* `split_join_escape_iff`: the entries come back exactly if no entry but the last ends in a
  backslash.
-/

namespace CrossEdition

namespace Entry

variable {c : Char} {e t u : Text} {es : List Text}

/-- An entry with its commas escaped. -/
def escape (e : Text) : Text :=
  e.flatMap fun c => if c = ',' then ['\\', ','] else [c]

/-- Whether the last character of an entry is a backslash. -/
def endsOpen (e : Text) : Bool :=
  e.getLast? = some '\\'

/-- What entries become when they are escaped and joined with commas: an entry that ends in a
    backslash loses it and goes on, behind a comma, with the next entry. -/
def fused : List Text → List Text
  | [] => [[]]
  | [e] => [e]
  | e :: es =>
    if endsOpen e then (fused es).modifyHead (e.dropLast ++ [','] ++ ·) else e :: fused es

@[simp] theorem escape_nil : escape [] = [] := rfl

theorem escape_cons (c : Char) (e : Text) :
    escape (c :: e) = (if c = ',' then ['\\', ','] else [c]) ++ escape e := rfl

/-! ## One character -/

theorem extend_eq (h : es ≠ []) (c : Char) :
    splitFrom.extend c es = es.modifyHead (c :: ·) := by
  obtain ⟨e, es, rfl⟩ := List.exists_cons_of_ne_nil h
  rfl

theorem split_nil : split false [] = [[]] := rfl

theorem split_comma (t : Text) : split false (',' :: t) = [] :: split false t := by
  rw [split, splitFrom.eq_3 false 0 ',' t fun _ h => absurd h (by decide)]
  simp [split]

theorem split_escaped (t : Text) :
    split false ('\\' :: ',' :: t) = (split false t).modifyHead (',' :: ·) := by
  rw [split, splitFrom, extend_eq (splitFrom_ne_nil false 0 t), split]

/-- A character that neither separates entries nor escapes a comma. -/
theorem split_cons (hc : c ≠ ',') (ht : c = '\\' → t.head? ≠ some ',') :
    split false (c :: t) = (split false t).modifyHead (c :: ·) := by
  have hne : ∀ rest, c = '\\' → t = ',' :: rest → False := by
    rintro rest rfl rfl
    exact ht rfl rfl
  rw [split, splitFrom.eq_3 false 0 c t hne, extend_eq (splitFrom_ne_nil false 0 t), split]
  simp [hc]

/-! ## One entry -/

/-- The comma of an escaped entry stands behind its backslash. -/
theorem head?_escape_append (h : e ≠ []) : (escape e ++ u).head? ≠ some ',' := by
  obtain ⟨c, e, rfl⟩ := List.exists_cons_of_ne_nil h
  rw [escape_cons]
  split_ifs with hc
  · simp
  · simpa using hc

/-- An escaped entry goes on with the first entry of what follows, unless its last backslash and
    a comma behind it say otherwise. -/
theorem split_escape_append (h : endsOpen e = true → u.head? ≠ some ',') :
    split false (escape e ++ u) = (split false u).modifyHead (e ++ ·) := by
  induction e with
  | nil => cases hs : split false u <;> simp [hs]
  | cons c e ih =>
    have he : endsOpen e = true → endsOpen (c :: e) = true := by
      intro ho
      simp only [endsOpen, decide_eq_true_eq] at ho ⊢
      rw [List.getLast?_cons, ho]
      rfl
    have hrest := ih fun ho => h (he ho)
    have hmod : ((split false u).modifyHead (e ++ ·)).modifyHead (c :: ·) =
        (split false u).modifyHead (c :: e ++ ·) := by
      rw [List.modifyHead_modifyHead]
      rfl
    rw [escape_cons]
    split_ifs with hc
    · rw [List.append_assoc, List.cons_append, List.singleton_append, split_escaped, hrest, ← hc,
        hmod]
    · rw [List.append_assoc, List.singleton_append, split_cons hc, hrest, hmod]
      rintro rfl
      rcases eq_or_ne e [] with rfl | hne
      · exact h rfl
      · exact head?_escape_append hne

/-- An escaped entry ends at the comma behind it. -/
theorem split_escape_comma (h : endsOpen e = false) (u : Text) :
    split false (escape e ++ ',' :: u) = e :: split false u := by
  rw [split_escape_append (by simp [h]), split_comma]
  simp

/-- A backslash at the end of an entry escapes the comma behind it. -/
theorem split_escape_comma_open (h : endsOpen e = true) (u : Text) :
    split false (escape e ++ ',' :: u) =
      (split false u).modifyHead (e.dropLast ++ [','] ++ ·) := by
  obtain ⟨e, rfl⟩ := List.getLast?_eq_some_iff.1 (of_decide_eq_true h)
  have hlast : escape (e ++ ['\\']) = escape e ++ ['\\'] := by
    rw [escape, List.flatMap_append, ← escape]
    rfl
  rw [hlast, List.append_assoc, List.singleton_append,
    split_escape_append (by simp), split_escaped, List.modifyHead_modifyHead,
    List.dropLast_concat]
  congr 1
  funext f
  simp

/-! ## Lists of entries -/

theorem fused_cons (e : Text) (h : es ≠ []) : fused (e :: es) =
    if endsOpen e then (fused es).modifyHead (e.dropLast ++ [','] ++ ·) else e :: fused es := by
  obtain ⟨f, es, rfl⟩ := List.exists_cons_of_ne_nil h
  rfl

/-- Entries that are escaped and joined are read as what they fuse to. -/
theorem split_join_escape (es : List Text) :
    split false (Text.join "," (es.map escape)) = fused es := by
  induction es with
  | nil => rfl
  | cons e es ih =>
    rcases eq_or_ne es [] with rfl | hne
    · have h := split_escape_append (e := e) (u := []) (by simp)
      rw [List.append_nil, split_nil] at h
      simpa [Text.join, fused] using h
    · have hjoin : Text.join "," ((e :: es).map escape) =
          escape e ++ ',' :: Text.join "," (es.map escape) :=
        Text.join_cons_of_ne_nil ',' (escape e) (by simpa using hne)
      rw [hjoin, fused_cons e hne]
      split_ifs with ho
      · rw [split_escape_comma_open ho, ih]
      · rw [split_escape_comma (by simpa using ho), ih]

theorem length_fused_le (h : es ≠ []) : (fused es).length ≤ es.length := by
  induction es with
  | nil => exact absurd rfl h
  | cons e es ih =>
    rcases eq_or_ne es [] with rfl | hne
    · simp [fused]
    · have := ih hne
      rw [fused_cons e hne]
      split_ifs
      · rw [List.length_modifyHead, List.length_cons]
        omega
      · simpa using this

theorem fused_eq_self_iff (h : es ≠ []) :
    fused es = es ↔ ∀ e ∈ es.dropLast, endsOpen e = false := by
  induction es with
  | nil => exact absurd rfl h
  | cons e es ih =>
    rcases eq_or_ne es [] with rfl | hne
    · simp [fused]
    · rw [fused_cons e hne, List.dropLast_cons_of_ne_nil hne, List.forall_mem_cons, ← ih hne]
      split_ifs with ho
      · -- two entries have become one
        refine iff_of_false (fun hf => ?_) (by simp [ho])
        have hlen := congrArg List.length hf
        have := length_fused_le hne
        rw [List.length_modifyHead, List.length_cons] at hlen
        omega
      · simp [ho]

/-- Entries whose commas are escaped come back from their joined text exactly if there is one at
    least and none but the last ends in a backslash. -/
theorem split_join_escape_iff (es : List Text) :
    split false (Text.join "," (es.map escape)) = es ↔
      es ≠ [] ∧ ∀ e ∈ es.dropLast, e.getLast? ≠ some '\\' := by
  rw [split_join_escape]
  rcases eq_or_ne es [] with rfl | hne
  · simp [fused]
  · rw [fused_eq_self_iff hne]
    simp [endsOpen, hne]

/-- Backslashes in front of commas, and at the end of the last entry. -/
example : split false (Text.join "," (["a\\,b", "", ",[", "c\\"].map escape)) =
    ["a\\,b", "", ",[", "c\\"] := by
  decide

end Entry

end CrossEdition
