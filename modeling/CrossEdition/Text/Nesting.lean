import CrossEdition.Text.Basic

/-!
# Nesting

Scanning a text for characters outside all quotes and brackets. Quotes are single or
double, and inside them a backslash takes the next character with it. Both kinds of
brackets count alike, and a closing one without an opening one is ignored.

Results:
* `breakTop_append`: breaking a text loses nothing.
* `splitTop_ne_nil`, `join_splitTop`: a split text has at least one part, and the
  parts joined give it back.
-/

namespace CrossEdition

/-- Where a scan stands: how many brackets are open, inside which quotes, and
    whether a backslash takes the next character. -/
structure Nesting where
  depth : Nat
  quote : Option Char
  escaped : Bool
deriving DecidableEq, Repr

namespace Nesting

/-- The state in front of a text. -/
def outside : Nesting :=
  ⟨0, none, false⟩

/-- Whether the scan stands outside all quotes and brackets. -/
def isTop (s : Nesting) : Bool :=
  s.depth = 0 && s.quote = none

/-- The state behind one more character. -/
def step (s : Nesting) (c : Char) : Nesting :=
  match s.quote with
  | some q =>
    if s.escaped then { s with escaped := false }
    else if c = '\\' then { s with escaped := true }
    else if c = q then { s with quote := none }
    else s
  | none =>
    if c = '"' ∨ c = '\'' then { s with quote := some c }
    else if c = '[' ∨ c = '{' then { s with depth := s.depth + 1 }
    else if c = ']' ∨ c = '}' then { s with depth := s.depth - 1 }
    else s

/-- The state behind a text. -/
def scan (s : Nesting) (t : Text) : Nesting :=
  t.foldl step s

end Nesting

namespace Text

/-- The text up to the first character at top level that satisfies `p`, and the rest
    from there on. -/
def breakTop (p : Char → Bool) : Nesting → Text → Text × Text
  | _, [] => ([], [])
  | s, c :: rest =>
    if s.isTop && p c then ([], c :: rest)
    else
      let (before, after) := breakTop p (s.step c) rest
      (c :: before, after)

/-- The parts of a text between the separators at top level. -/
def splitTop (separator : Char) : Nesting → Text → List Text
  | _, [] => [[]]
  | s, c :: rest =>
    if s.isTop && c = separator then [] :: splitTop separator s rest
    else
      match splitTop separator (s.step c) rest with
      | [] => [[c]]
      | part :: parts => (c :: part) :: parts

/-! ## Lemmas -/

theorem breakTop_append (p : Char → Bool) (s : Nesting) (t : Text) :
    (breakTop p s t).1 ++ (breakTop p s t).2 = t := by
  induction t generalizing s with
  | nil => rfl
  | cons c rest ih =>
    unfold breakTop
    split
    · rfl
    · simp [ih]

theorem splitTop_ne_nil (separator : Char) (s : Nesting) (t : Text) :
    splitTop separator s t ≠ [] := by
  cases t with
  | nil => simp [splitTop]
  | cons c rest =>
    unfold splitTop
    split
    · simp
    · split <;> simp

theorem join_splitTop (separator : Char) (s : Nesting) (t : Text) :
    join [separator] (splitTop separator s t) = t := by
  induction t generalizing s with
  | nil => rfl
  | cons c rest ih =>
    unfold splitTop
    split
    · next h =>
      obtain ⟨part, parts, hp⟩ := List.exists_cons_of_ne_nil (splitTop_ne_nil separator s rest)
      have hc : c = separator := by simp_all
      rw [hp, join, ← hp, ih, hc]
      · simp
      · simp
    · split
      · next h => exact absurd h (splitTop_ne_nil _ _ _)
      · next part parts hp =>
        have := ih (s.step c)
        rw [hp] at this
        cases parts with
        | nil => simp_all [join]
        | cons q parts => simp_all [join]

end Text

end CrossEdition
