import CrossEdition.Proofs.Message.RoundTrip

/-!
# Nothing in a buffer is lost

Reading takes any buffer apart into texts that stand in it one after the other, also if it holds
stray marks. And it overlooks no component: one that stands anywhere in a buffer divides it, and
either side is read on its own.

Results:
* `flatMap_pieces`: the pieces of a buffer give it back.
* `read_around`: a component divides its buffer.
* `writesBack_read`: what is read from a buffer can be written back to it.
-/

namespace CrossEdition

namespace Buffer

variable {t u rest before after : Text} {c d : Component} {cs : List Component} {ps qs : List Piece}

/-! ## The pieces of a buffer -/

/-- Buffers are read from their start: a character of plain text, a component, or a stray mark,
    and then what follows it. -/
@[elab_as_elim]
theorem readingInduction {motive : Text → Prop} (nil : motive [])
    (character : ∀ d t, d ≠ opening → motive t → motive (d :: t))
    (component : ∀ c t rest, component? t = some (c, rest) → motive rest → motive (opening :: t))
    (stray : ∀ t, component? t = none → motive t → motive (opening :: t)) (t : Text) :
    motive t := by
  induction hn : t.length using Nat.strongRecOn generalizing t with
  | ind n ih =>
    obtain _ | ⟨d, t⟩ := t
    · exact nil
    have hlen : t.length < n := by
      rw [← hn]
      exact Nat.lt_succ_self _
    by_cases hd : d = opening
    · subst hd
      cases h : component? t with
      | none => exact stray t h (ih _ hlen t rfl)
      | some found =>
        obtain ⟨c, rest⟩ := found
        have hrest : rest.length < n := (component?_length h).trans hlen
        exact component c t rest h (ih _ hrest rest rfl)
    · exact character d t hd (ih _ hlen t rfl)

/-- The place of a buffer counts only for what is noted about it. -/
theorem value_pieces (i j : Nat) (t : Text) : (pieces i t).value = (pieces j t).value := by
  induction t using readingInduction generalizing i j with
  | nil => rw [pieces, pieces]
  | character d t hd ih =>
    rw [pieces_character hd, pieces_character hd, Noted.value_map, Noted.value_map, ih]
  | component c t rest h ih =>
    rw [pieces_component h, pieces_component h, Noted.value_map, Noted.value_map, ih]
  | stray t h ih =>
    rw [pieces_stray h, pieces_stray h, Noted.value_bind, Noted.value_bind, Noted.value_map,
      Noted.value_map, ih]

/-- The pieces of a buffer. -/
def piecesOf (t : Text) : List Piece :=
  (pieces 0 t).value

theorem piecesOf_nil : piecesOf [] = [] := by
  rw [piecesOf, pieces]
  rfl

theorem piecesOf_character {d : Char} (hd : d ≠ opening) (t : Text) :
    piecesOf (d :: t) = .character d :: piecesOf t := by
  rw [piecesOf, pieces_character hd, Noted.value_map, value_pieces _ 0, piecesOf]

theorem piecesOf_component (h : component? t = some (c, rest)) :
    piecesOf (opening :: t) = .component c :: piecesOf rest := by
  rw [piecesOf, pieces_component h, Noted.value_map, value_pieces _ 0, piecesOf]

theorem piecesOf_stray (h : component? t = none) :
    piecesOf (opening :: t) = .character opening :: piecesOf t := by
  rw [piecesOf, pieces_stray h, Noted.value_bind, Noted.value_map, value_pieces _ 0, piecesOf]

/-- A piece as it stands in a buffer. -/
def pieceText : Piece → Text
  | .character c => [c]
  | .component c => componentText c

/-- The pieces of a buffer give it back. -/
theorem flatMap_pieces (t : Text) : (piecesOf t).flatMap pieceText = t := by
  induction t using readingInduction with
  | nil => rw [piecesOf_nil]; rfl
  | character d t hd ih => rw [piecesOf_character hd, List.flatMap_cons, ih]; rfl
  | component c t rest h ih =>
    rw [piecesOf_component h, List.flatMap_cons, ih, pieceText, (component?_eq_some_iff.1 h).2]
  | stray t h ih => rw [piecesOf_stray h, List.flatMap_cons, ih]; rfl

/-! ## Components that stand in a buffer -/

theorem Unmarked.opening_notMem (h : Unmarked t) : opening ∉ t := by
  intro hm
  have ho := h opening hm
  rw [isMark_opening] at ho
  exact Bool.noConfusion ho

/-- An opening mark behind a text without any stands in what follows that text. -/
theorem exists_of_notMem_append (ht : opening ∉ t) (h : t ++ rest = before ++ opening :: after) :
    ∃ between, rest = between ++ opening :: after := by
  rcases List.append_eq_append_iff.1 h with ⟨between, rfl, hrest⟩ | ⟨between, rfl, hmark⟩
  · exact ⟨between, hrest⟩
  · cases between with
    | nil => exact ⟨[], hmark.symm⟩
    | cons d between =>
      obtain ⟨rfl, -⟩ := List.cons.inj hmark
      exact absurd (List.mem_append_right _ (List.mem_cons_self ..)) ht

/-- Behind the content of a component an opening mark begins an argument. -/
theorem exists_argumentKey {arguments : List Text} (ha : ∀ a ∈ arguments, Unmarked a)
    (h : arguments.flatMap argumentText ++ [closing] = before ++ opening :: after) :
    ∃ more, after = Component.argumentKey ++ closing :: more := by
  induction arguments generalizing before with
  | nil =>
    have hclosing : opening ∉ [closing] := by decide
    have hend : [closing] ++ [] = before ++ opening :: after := by simpa using h
    obtain ⟨between, hm⟩ := exists_of_notMem_append hclosing hend
    simp at hm
  | cons a arguments ih =>
    obtain ⟨ha, hs⟩ := List.forall_mem_cons.1 ha
    have hfield : opening ∉ Component.argumentKey ++ closing :: (a ++ [closing]) := by
      have hkey := unmarked_argumentKey.opening_notMem
      simp [hkey, ha.opening_notMem, opening_ne_closing]
    have htext : (a :: arguments).flatMap argumentText ++ [closing] =
        opening :: ((Component.argumentKey ++ closing :: (a ++ [closing])) ++
          (arguments.flatMap argumentText ++ [closing])) := by
      simp [argumentText]
    rw [htext] at h
    cases before with
    | nil =>
      obtain ⟨-, rfl⟩ := List.cons.inj h
      exact ⟨_, by rw [List.append_assoc, List.cons_append]⟩
    | cons d before =>
      obtain ⟨between, hb⟩ := exists_of_notMem_append hfield (List.cons.inj h).2
      exact ih hs hb

/-- No text begins with the key of a component and with that of an argument. -/
theorem key_append_ne (k : ComponentKind) (t u : Text) :
    k.key ++ closing :: t ≠ Component.argumentKey ++ closing :: u := by
  intro h
  have hkey := field?_append (unmarked_key k) t
  rw [h, field?_append unmarked_argumentKey] at hkey
  have hne : ∀ k : ComponentKind, Component.argumentKey ≠ k.key := by
    intro k
    cases k <;> decide
  exact hne k (Prod.mk.inj (Option.some.inj hkey)).1

/-- No component begins inside another one: an opening mark there begins an argument, which has
    another key than all components. -/
theorem Writable.not_begins_inside (hd : Writable d) (hb : before ≠ [])
    (h : componentText d ++ rest = before ++ (componentText c ++ after)) :
    ∃ between, before = componentText d ++ between := by
  rcases List.append_eq_append_iff.1 h with ⟨between, hbetween, -⟩ | ⟨inside, hdi, hci⟩
  · exact ⟨between, hbetween⟩
  cases inside with
  | nil => exact ⟨[], by simpa using hdi.symm⟩
  | cons o inside =>
    obtain ⟨rfl, hci⟩ := List.cons.inj hci
    obtain ⟨e, before, rfl⟩ := List.exists_cons_of_ne_nil hb
    have hfront : opening ∉ d.kind.key ++ closing :: d.content := by
      simp [(unmarked_key d.kind).opening_notMem, hd.content.opening_notMem, opening_ne_closing]
    have htail : (d.kind.key ++ closing :: d.content) ++
        (d.arguments.flatMap argumentText ++ [closing]) = before ++ opening :: inside := by
      simpa [componentText] using (List.cons.inj hdi).2
    obtain ⟨between, hinside⟩ := exists_of_notMem_append hfront htail
    obtain ⟨more, rfl⟩ := exists_argumentKey hd.arguments hinside
    have hkeys : c.kind.key ++ closing :: (c.content ++ (c.arguments.flatMap argumentText ++
        closing :: after)) = Component.argumentKey ++ closing :: (more ++ rest) := by
      simpa [componentText] using hci
    exact absurd hkeys (key_append_ne _ _ _)

/-- A component divides its buffer: what stands in front of it is read on its own. -/
theorem piecesOf_around (hc : Writable c) (before after : Text) :
    piecesOf (before ++ (componentText c ++ after)) =
      piecesOf before ++ .component c :: piecesOf after := by
  induction before using readingInduction with
  | nil =>
    rw [List.nil_append, ← opening_cons_tail,
      piecesOf_component (component?_eq_some_iff.2 ⟨hc, opening_cons_tail c after⟩), piecesOf_nil]
    rfl
  | character d t hd ih =>
    rw [List.cons_append, piecesOf_character hd, piecesOf_character hd, ih]
    rfl
  | component d t rest h ih =>
    obtain ⟨hd, ht⟩ := component?_eq_some_iff.1 h
    have hread : component? (t ++ (componentText c ++ after)) =
        some (d, rest ++ (componentText c ++ after)) := by
      refine component?_eq_some_iff.2 ⟨hd, ?_⟩
      rw [← List.cons_append, ht, List.append_assoc]
    rw [List.cons_append, piecesOf_component hread, piecesOf_component h, ih]
    rfl
  | stray t h ih =>
    have hread : component? (t ++ (componentText c ++ after)) = none := by
      by_contra hne
      obtain ⟨⟨d, rest⟩, hsome⟩ := Option.ne_none_iff_exists'.1 hne
      obtain ⟨hd, ht⟩ := component?_eq_some_iff.1 hsome
      rw [← List.cons_append] at ht
      obtain ⟨between, hb⟩ := hd.not_begins_inside (List.cons_ne_nil opening t) ht.symm
      rw [component?_eq_some_iff.2 ⟨hd, hb⟩] at h
      exact absurd h (Option.some_ne_none _)
    rw [List.cons_append, piecesOf_stray hread, piecesOf_stray h, ih]
    rfl

/-! ## Messages -/

theorem gather_append (ps : List Piece) (c : Component) (qs : List Piece) :
    gather (ps ++ .component c :: qs) = ((gather ps).1, (gather ps).2 ++ c :: components qs) := by
  induction ps with
  | nil => rfl
  | cons p ps ih =>
    rw [List.cons_append]
    cases p <;> simp [gather, ih]

theorem components_append (ps : List Piece) (c : Component) (qs : List Piece) :
    components (ps ++ .component c :: qs) = components ps ++ c :: components qs := by
  rw [components, gather_append, ← List.append_assoc]
  rfl

theorem value_read (t : Text) : (read t).value = components (piecesOf t) := rfl

/-- A component divides its buffer into two that are read on their own. -/
theorem read_around (hc : Writable c) (before after : Text) :
    (read (before ++ (componentText c ++ after))).value =
      (read before).value ++ c :: (read after).value := by
  rw [value_read, value_read, value_read, piecesOf_around hc, components_append]

/-- Whether a message can be written back to a buffer: text components as they are or between
    their marks, all others between their marks, and all in their order. -/
inductive WritesBack : List Component → Text → Prop
  | nil : WritesBack [] []
  | plain {c : Component} {cs : List Component} {rest : Text} (hc : c.kind = .text)
      (h : WritesBack cs rest) : WritesBack (c :: cs) (c.content ++ rest)
  | marked {c : Component} {cs : List Component} {rest : Text} (h : WritesBack cs rest) :
      WritesBack (c :: cs) (componentText c ++ rest)

theorem WritesBack.plainText (h : WritesBack cs rest) (t : Text) :
    WritesBack (plainText t ++ cs) (t ++ rest) := by
  unfold Buffer.plainText
  split_ifs with ht
  · rwa [ht]
  · exact .plain (c := .plain .text t) rfl h

/-- Characters in a row are written back as they are. -/
theorem writesBack_components (ps : List Piece) :
    WritesBack (components ps) (ps.flatMap pieceText) := by
  have hgather : ∃ rest, WritesBack (gather ps).2 rest ∧
      ps.flatMap pieceText = (gather ps).1 ++ rest := by
    induction ps with
    | nil => exact ⟨[], .nil, rfl⟩
    | cons p ps ih =>
      obtain ⟨rest, hrest, hps⟩ := ih
      cases p with
      | character c =>
        exact ⟨rest, hrest, by rw [List.flatMap_cons, hps]; rfl⟩
      | component c =>
        refine ⟨componentText c ++ ((gather ps).1 ++ rest), .marked (hrest.plainText _), ?_⟩
        rw [List.flatMap_cons, hps]
        rfl
  obtain ⟨rest, hrest, hps⟩ := hgather
  rw [hps]
  exact hrest.plainText _

/-- What is read from a buffer can be written back to it, whatever marks it holds. And wherever a
    component stands in it, that component is read, and so is either side on its own. -/
theorem writesBack_read (t : Text) :
    WritesBack (read t).value t ∧
      ∀ before c after, Writable c → t = before ++ (componentText c ++ after) →
        (read t).value = (read before).value ++ c :: (read after).value := by
  constructor
  · have h := writesBack_components (piecesOf t)
    rwa [flatMap_pieces] at h
  · rintro before c after hc rfl
    exact read_around hc before after

/-- Behind a stray opening mark and its would-be key a component is found, and the closing mark
    behind it is plain text again. -/
theorem writesBack_read_stray_marks :
    let c : Component := ⟨.translate, "key", ["ab", ""]⟩
    let before : Text := opening :: ("score" : Text)
    let t : Text := before ++ (componentText c ++ [closing])
    (read t).value = [.plain .text before, c, .plain .text [closing]] ∧
      WritesBack (read t).value t ∧
      (read t).value = (read before).value ++ c :: (read [closing]).value := by
  intro c before t
  have hc : Writable c := ⟨by decide, by decide, by decide⟩
  have h := writesBack_read t
  exact ⟨by decide +kernel, h.1, h.2 before c [closing] hc rfl⟩

end Buffer

end CrossEdition
