import CrossEdition.Message.Component
import CrossEdition.Note

/-!
# Message buffers

A message as one flat text. A component is written as an opening mark, its key, a
closing mark, its content, its arguments in the same form, and a closing mark. Plain
text outside all components is a text component of its own, and marks that open no
component are part of it.

Results:
* `field?_append`: a field and its closing mark are read back, whatever follows.
* `field?_length`, `component?_length`: reading moves forward.
-/

namespace CrossEdition

namespace Buffer

/-- The mark that opens a component or an argument. -/
def opening : Char := '\u0FC8'

/-- The mark that closes a key, a component or an argument. -/
def closing : Char := '\u0F34'

/-- Whether a character is one of the marks. -/
def isMark (c : Char) : Bool :=
  c = opening || c = closing

/-! ## Writing -/

/-- An argument as it stands in a buffer. -/
def argumentText (argument : Text) : Text :=
  opening :: Component.argumentKey ++ closing :: argument ++ [closing]

/-- A component as it stands in a buffer. -/
def componentText (c : Component) : Text :=
  opening :: c.kind.key ++ closing :: c.content ++ c.arguments.flatMap argumentText ++ [closing]

/-- The buffer of a message. -/
def write (cs : List Component) : Text :=
  cs.flatMap componentText

/-! ## Reading -/

/-- The text in front of the next mark, if that is a closing one, and what follows
    the mark. -/
def field? : Text → Option (Text × Text)
  | [] => none
  | c :: rest =>
    if c = closing then some ([], rest)
    else if c = opening then none
    else (field? rest).map fun (t, after) => (c :: t, after)

theorem field?_length {t field rest : Text} (h : field? t = some (field, rest)) :
    rest.length < t.length := by
  induction t generalizing field with
  | nil => simp [field?] at h
  | cons c t ih =>
    unfold field? at h
    split at h
    · simp_all
    · split at h
      · simp at h
      · simp only [Option.map_eq_some_iff, Prod.mk.injEq] at h
        obtain ⟨⟨f, r⟩, hf, _, rfl⟩ := h
        exact Nat.lt_succ_of_lt (ih hf)

theorem field?_append {field : Text} (h : ∀ c ∈ field, isMark c = false) (rest : Text) :
    field? (field ++ closing :: rest) = some (field, rest) := by
  induction field with
  | nil => simp [field?]
  | cons c field ih =>
    have hc : isMark c = false := h c (by simp)
    simp only [isMark, Bool.or_eq_false_iff, decide_eq_false_iff_not] at hc
    simp [field?, hc.1, hc.2, ih fun d hd => h d (by simp [hd])]

/-- The arguments of a component up to its closing mark, and what follows. Nothing
    if something else stands between them, or if there is an argument where none is
    allowed. -/
def arguments? (allowed : Bool) : Text → Option (List Text × Text)
  | [] => none
  | c :: rest =>
    if c = closing then some ([], rest)
    else if c = opening ∧ allowed then
      match _hk : field? rest with
      | none => none
      | some (key, rest₁) =>
        if key = Component.argumentKey then
          match _ha : field? rest₁ with
          | none => none
          | some (argument, rest₂) =>
            (arguments? allowed rest₂).map fun (more, after) => (argument :: more, after)
        else none
    else none
termination_by t => t.length
decreasing_by
  have := field?_length _hk
  have := field?_length _ha
  simp only [List.length_cons]
  omega

/-- The component behind an opening mark, and what follows it. -/
def component? (t : Text) : Option (Component × Text) := do
  let (key, rest) ← field? t
  let kind ← ComponentKind.ofKey? key
  let content := rest.takeWhile fun c => !isMark c
  let (arguments, rest) ← arguments? (kind = .translate) (rest.dropWhile fun c => !isMark c)
  some (⟨kind, content, arguments⟩, rest)

theorem arguments?_length {allowed : Bool} {t rest : Text} {found : List Text}
    (h : arguments? allowed t = some (found, rest)) : rest.length < t.length := by
  induction ht : t.length using Nat.strongRecOn generalizing t found with
  | ind n ih =>
    unfold arguments? at h
    split at h
    · simp at h
    · next c tail =>
      split at h
      · simp only [Option.some.injEq, Prod.mk.injEq] at h
        simp only [← ht, ← h.2, List.length_cons]
        omega
      · split at h
        · split at h
          · simp at h
          · next key rest₁ hk =>
            split at h
            · split at h
              · simp at h
              · next argument rest₂ ha =>
                simp only [Option.map_eq_some_iff, Prod.mk.injEq] at h
                obtain ⟨⟨more, after⟩, hm, _, rfl⟩ := h
                have h₁ := field?_length hk
                have h₂ := field?_length ha
                simp only [List.length_cons] at ht
                have := ih rest₂.length (by omega) hm rfl
                omega
            · simp at h
        · simp at h

theorem component?_length {t rest : Text} {c : Component} (h : component? t = some (c, rest)) :
    rest.length < t.length := by
  simp only [component?, Option.bind_eq_bind, Option.bind_eq_some_iff] at h
  obtain ⟨⟨key, rest₁⟩, hk, kind, _, ⟨found, rest₂⟩, ha, h⟩ := h
  simp only [Option.some.injEq, Prod.mk.injEq] at h
  obtain ⟨_, rfl⟩ := h
  have h₁ : rest₁.length < t.length := field?_length hk
  have h₂ : rest₂.length < (rest₁.dropWhile fun c => !isMark c).length := arguments?_length ha
  have h₃ : (rest₁.dropWhile fun c => !isMark c).length ≤ rest₁.length :=
    (List.dropWhile_suffix _).length_le
  omega

/-- What a buffer is made of: characters of plain text and components. -/
inductive Piece where
  | character (c : Char)
  | component (c : Component)
deriving DecidableEq, Repr

/-- The pieces of a buffer from the character at `index` on. -/
def pieces (index : Nat) (t : Text) : Noted (List Piece) :=
  match t with
  | [] => pure []
  | c :: rest =>
    if c = opening then
      match _h : component? rest with
      | some (component, after) => do
        let more ← pieces (index + (t.length - after.length)) after
        pure (.component component :: more)
      | none => do
        Noted.note (.strayMark index)
        let more ← pieces (index + 1) rest
        pure (.character c :: more)
    else do
      let more ← pieces (index + 1) rest
      pure (.character c :: more)
termination_by t.length
decreasing_by
  · have := component?_length _h
    simp only [List.length_cons]
    omega
  · simp
  · simp

/-- Plain text as a component, unless it is empty. -/
def plainText (t : Text) : List Component :=
  if t = [] then [] else [.plain .text t]

/-- The plain text in front of the first component, and the components from there
    on. -/
def gather : List Piece → Text × List Component
  | [] => ([], [])
  | .character c :: rest => (c :: (gather rest).1, (gather rest).2)
  | .component c :: rest => ([], c :: plainText (gather rest).1 ++ (gather rest).2)

/-- The components that pieces form: characters in a row are one text component. -/
def components (ps : List Piece) : List Component :=
  plainText (gather ps).1 ++ (gather ps).2

/-- The components of a buffer. Reading never fails. -/
def read (t : Text) : Noted (List Component) :=
  components <$> pieces 0 t

/-- The text of a buffer without marks. -/
def visible (t : Text) : Noted Text :=
  (fun cs => cs.flatMap Component.visible) <$> read t

end Buffer

end CrossEdition
