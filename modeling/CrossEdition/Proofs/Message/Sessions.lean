import CrossEdition.Message.Editing
import CrossEdition.Proofs.Message.RoundTrip

/-!
# Sessions of typing

Typing into a message puts a text in at one point of one component, or makes one new
component of it at the end. Nothing else changes, and the buffer stays one that is read back
as it was written, so this goes on for a whole session.

Results:
* `Regular.read`: a buffer of plain text and components is read without a stray mark.
* `typed_insert`: what one step does to the components.
* `typed_session`: each step of a session does this, and leaves a written message.
-/

namespace CrossEdition

namespace Buffer

variable {t u new rest : Text} {c d : Component} {cs ds : List Component} {ps : List Piece}
  {kind : ComponentKind} {position : Nat}

/-! ## Buffers of plain text and components -/

/-- Whether a buffer is plain text without marks and components that can be written, one after
    the other. -/
inductive Regular : Text → Prop
  | nil : Regular []
  | plain {t rest : Text} (ht : Unmarked t) (hr : Regular rest) : Regular (t ++ rest)
  | component {c : Component} {rest : Text} (hc : Writable c) (hr : Regular rest) :
      Regular (componentText c ++ rest)

/-- Whether a piece is no mark and no component with a mark in its texts. -/
def Piece.Clean : Piece → Prop
  | .character c => isMark c = false
  | .component c => Writable c

theorem Regular.reads (h : Regular t) : ∃ ps, Reads t ps ∧ ∀ p ∈ ps, p.Clean := by
  induction h with
  | nil => exact ⟨[], .nil, by simp⟩
  | @plain t rest ht _ ih =>
    obtain ⟨ps, hr, hps⟩ := ih
    refine ⟨_, hr.plain ht, List.forall_mem_append.2 ⟨?_, hps⟩⟩
    exact List.forall_mem_map.2 ht
  | component hc _ ih =>
    obtain ⟨ps, hr, hps⟩ := ih
    exact ⟨_, hr.component hc, List.forall_mem_cons.2 ⟨hc, hps⟩⟩

theorem writable_plain (kind : ComponentKind) (ht : Unmarked t) : Writable (.plain kind t) :=
  ⟨ht, by simp [Component.plain], by simp [Component.plain]⟩

theorem writable_plainText (ht : Unmarked t) : ∀ c ∈ plainText t, Writable c := by
  unfold plainText
  split_ifs
  · simp
  · exact List.forall_mem_singleton.2 (writable_plain .text ht)

theorem clean_gather (h : ∀ p ∈ ps, p.Clean) :
    Unmarked (gather ps).1 ∧ ∀ c ∈ (gather ps).2, Writable c := by
  induction ps with
  | nil => exact ⟨unmarked_nil, by simp [gather]⟩
  | cons p ps ih =>
    obtain ⟨hp, hs⟩ := List.forall_mem_cons.1 h
    obtain ⟨hfront, hback⟩ := ih hs
    cases p with
    | character c => exact ⟨unmarked_cons.2 ⟨hp, hfront⟩, hback⟩
    | component c =>
      refine ⟨unmarked_nil, List.forall_mem_cons.2 ⟨hp, ?_⟩⟩
      exact List.forall_mem_append.2 ⟨writable_plainText hfront, hback⟩

/-- A buffer of plain text and components is read without a stray mark, and what is read can be
    written. -/
theorem Regular.read (h : Regular t) : ∃ cs, Buffer.read t = pure cs ∧ ∀ c ∈ cs, Writable c := by
  obtain ⟨ps, hr, hps⟩ := h.reads
  obtain ⟨hfront, hback⟩ := clean_gather hps
  exact ⟨components ps, read_of_reads hr,
    List.forall_mem_append.2 ⟨writable_plainText hfront, hback⟩⟩

/-- What is written is such a buffer, and it is read back. -/
theorem regular_write (h : ∀ c ∈ cs, Writable c) :
    Regular (write cs) ∧ Buffer.read (write cs) = pure cs := by
  constructor
  · induction cs with
    | nil => exact .nil
    | cons c cs ih =>
      obtain ⟨hc, hs⟩ := List.forall_mem_cons.1 h
      exact .component hc (ih hs)
  · rw [read_of_reads (reads_write h), components_components]

/-! ## Changes in one place -/

/-- Whether one item of a list is replaced by one that it is related to. -/
inductive ChangedAt {α : Type} (r : α → α → Prop) : List α → List α → Prop
  | mk {a b : α} (before after : List α) (h : r a b) :
      ChangedAt r (before ++ a :: after) (before ++ b :: after)

namespace ChangedAt

variable {α : Type} {r : α → α → Prop} {p : α → Prop} {as bs : List α}

theorem head {a b : α} (h : r a b) (as : List α) : ChangedAt r (a :: as) (b :: as) :=
  .mk [] as h

theorem cons (h : ChangedAt r as bs) (a : α) : ChangedAt r (a :: as) (a :: bs) := by
  obtain ⟨before, after, h⟩ := h
  exact .mk (a :: before) after h

theorem forall_mem (h : ChangedAt r as bs) (hp : ∀ a b, r a b → p a → p b)
    (has : ∀ a ∈ as, p a) : ∀ b ∈ bs, p b := by
  obtain ⟨before, after, h⟩ := h
  obtain ⟨hbefore, hafter⟩ := List.forall_mem_append.1 has
  obtain ⟨ha, hafter⟩ := List.forall_mem_cons.1 hafter
  exact List.forall_mem_append.2 ⟨hbefore, List.forall_mem_cons.2 ⟨hp _ _ h ha, hafter⟩⟩

theorem ne_nil_iff (h : ChangedAt r as bs) : as ≠ [] ∧ bs ≠ [] := by
  obtain ⟨before, after, -⟩ := h
  simp

end ChangedAt

/-- Whether a text is another one with `new` put in at one point. -/
def Spliced (new t u : Text) : Prop :=
  ∃ before after, t = before ++ after ∧ u = before ++ new ++ after

/-- Whether a component is another one with `new` put in at one point of its content or of one of
    its arguments. -/
inductive SplicedComponent (new : Text) : Component → Component → Prop
  | content {kind : ComponentKind} {t u : Text} {arguments : List Text} (h : Spliced new t u) :
      SplicedComponent new ⟨kind, t, arguments⟩ ⟨kind, u, arguments⟩
  | arguments {kind : ComponentKind} {content : Text} {as bs : List Text}
      (h : ChangedAt (Spliced new) as bs) :
      SplicedComponent new ⟨kind, content, as⟩ ⟨kind, content, bs⟩

/-- Whether a message is another one with `new` typed into it: at one point of one component, or
    as a new component of the active kind at the end. -/
inductive Typed (kind : ComponentKind) (new : Text) : List Component → List Component → Prop
  | inside {cs ds : List Component} (h : ChangedAt (SplicedComponent new) cs ds) :
      Typed kind new cs ds
  | behind (cs : List Component) : Typed kind new cs (cs ++ [.plain kind new])

theorem Spliced.unmarked (h : Spliced new t u) (hnew : Unmarked new) (ht : Unmarked t) :
    Unmarked u := by
  obtain ⟨before, after, rfl, rfl⟩ := h
  obtain ⟨hbefore, hafter⟩ := unmarked_append.1 ht
  exact unmarked_append.2 ⟨unmarked_append.2 ⟨hbefore, hnew⟩, hafter⟩

theorem SplicedComponent.writable (h : SplicedComponent new c d) (hnew : Unmarked new)
    (hc : Writable c) : Writable d := by
  cases h with
  | content h => exact ⟨h.unmarked hnew hc.content, hc.arguments, hc.kind⟩
  | arguments h =>
    exact ⟨hc.content, h.forall_mem (fun _ _ h => h.unmarked hnew) hc.arguments,
      fun _ => hc.kind h.ne_nil_iff.1⟩

/-- Typing a text without marks leaves a message that can be written. -/
theorem Typed.writable (h : Typed kind new cs ds) (hnew : Unmarked new)
    (hcs : ∀ c ∈ cs, Writable c) : ∀ d ∈ ds, Writable d := by
  cases h with
  | inside h => exact h.forall_mem (fun _ _ h => h.writable hnew) hcs
  | behind =>
    exact List.forall_mem_append.2
      ⟨hcs, List.forall_mem_singleton.2 (writable_plain kind hnew)⟩

/-! ## One step -/

theorem spliced_splice (t : Text) (position : Nat) (new : Text) :
    Spliced new t (splice t position new) :=
  ⟨t.take position, t.drop position, (List.take_append_drop ..).symm, rfl⟩

theorem spliced_append (t new : Text) : Spliced new t (t ++ new) :=
  ⟨t, [], by simp, by simp⟩

theorem changedAt_spliceArguments {as bs : List Text}
    (h : spliceArguments new as position = some bs) : ChangedAt (Spliced new) as bs := by
  induction as generalizing position bs with
  | nil => simp [spliceArguments] at h
  | cons a as ih =>
    rw [spliceArguments] at h
    split_ifs at h with hp
    · obtain rfl := Option.some.inj h
      exact .head (spliced_splice a position new) as
    · obtain ⟨more, hmore, rfl⟩ := Option.map_eq_some_iff.1 h
      exact (ih hmore).cons a

theorem spliced_spliceComponent (active : ComponentKind) (new : Text) (c : Component)
    (position : Nat) : SplicedComponent new c (spliceComponent active new c position) := by
  unfold spliceComponent
  split_ifs
  · exact .content (spliced_splice _ _ _)
  · split
    · next harguments => exact .arguments (changedAt_spliceArguments harguments)
    · exact .content (spliced_append _ _)

theorem changedAt_spliceMessage {active : ComponentKind}
    (h : spliceMessage active new cs position = some ds) :
    ChangedAt (SplicedComponent new) cs ds := by
  induction cs generalizing position ds with
  | nil => simp [spliceMessage] at h
  | cons c cs ih =>
    rw [spliceMessage] at h
    split_ifs at h with hp
    · obtain rfl := Option.some.inj h
      exact .head (spliced_spliceComponent active new c position) cs
    · obtain ⟨more, hmore, rfl⟩ := Option.map_eq_some_iff.1 h
      exact (ih hmore).cons c

theorem Typed.cons (h : Typed kind new cs ds) (c : Component) :
    Typed kind new (c :: cs) (c :: ds) := by
  cases h with
  | inside h => exact .inside (h.cons c)
  | behind => exact .behind (c :: cs)

theorem typed_appendText (active : ComponentKind) (new : Text) (cs : List Component) :
    Typed active new cs (appendText active new cs) := by
  induction cs with
  | nil => exact .behind []
  | cons c cs ih =>
    cases cs with
    | nil =>
      rw [appendText]
      split_ifs
      · exact .inside (.head (.content (spliced_append _ _)) [])
      · exact .behind [c]
    | cons d cs => exact ih.cons c

/-- What typing does to the components of a message. -/
theorem typed_getD (active : ComponentKind) (new : Text) (cs : List Component) (position : Nat) :
    Typed active new cs
      ((spliceMessage active new cs position).getD (appendText active new cs)) := by
  cases h : spliceMessage active new cs position with
  | none => exact typed_appendText active new cs
  | some ds => exact .inside (changedAt_spliceMessage h)

/-! ## Sessions -/

/-- A step of typing: a text, where it goes, and the active kind. -/
structure Step where
  position : Nat
  text : Text
  kind : ComponentKind

/-- Whether a step types some text, without marks, into one of the kinds that are no plain
    text. -/
structure Step.Valid (s : Step) : Prop where
  ne_nil : s.text ≠ []
  unmarked : Unmarked s.text
  kind : s.kind ≠ .text

/-- The buffer after a step. -/
def Step.apply (s : Step) (buffer : Text) : Noted Text :=
  insert buffer s.position s.text (some s.kind)

/-- The buffer after the steps of a session. -/
def session (buffer : Text) : List Step → Noted Text
  | [] => pure buffer
  | s :: steps => s.apply buffer >>= fun after => session after steps

variable {s : Step} {steps : List Step} {buffer : Text}

theorem Step.Valid.apply_eq (h : s.Valid) (hread : Buffer.read buffer = pure cs) :
    s.apply buffer = pure (write ((spliceMessage s.kind s.text cs s.position).getD
      (appendText s.kind s.text cs))) := by
  rw [Step.apply, insert, if_neg h.ne_nil, hread, Noted.pure_bind]
  exact h.kind

/-- One step of typing into a buffer of plain text and components. -/
theorem typed_insert (h : s.Valid) (hb : Regular buffer) :
    ∃ cs ds, Buffer.read buffer = pure cs ∧ s.apply buffer = pure (write ds) ∧
      Buffer.read (write ds) = pure ds ∧ Regular (write ds) ∧ Typed s.kind s.text cs ds := by
  obtain ⟨cs, hread, hcs⟩ := hb.read
  have htyped := typed_getD s.kind s.text cs s.position
  obtain ⟨hregular, hback⟩ := regular_write (htyped.writable h.unmarked hcs)
  exact ⟨cs, _, hread, h.apply_eq hread, hback, hregular, htyped⟩

theorem session_append (buffer : Text) (steps more : List Step) :
    session buffer (steps ++ more) = session buffer steps >>= fun after => session after more := by
  induction steps generalizing buffer with
  | nil => exact (Noted.pure_bind _ _).symm
  | cons s steps ih =>
    refine Noted.ext ?_ ?_
    · simp [session, ih]
    · simp [session, ih]

/-- A session goes from one buffer of plain text and components to another one. -/
theorem regular_session (hs : ∀ s ∈ steps, s.Valid) (hb : Regular buffer) :
    ∃ after, session buffer steps = pure after ∧ Regular after := by
  induction steps generalizing buffer with
  | nil => exact ⟨buffer, rfl, hb⟩
  | cons s steps ih =>
    obtain ⟨h, hs⟩ := List.forall_mem_cons.1 hs
    obtain ⟨_, ds, -, happly, -, hregular, -⟩ := typed_insert h hb
    rw [session, happly, Noted.pure_bind]
    exact ih hs hregular

/-- After every step of a session the buffer is that of its own components, and these are the
    components in front of the step with the text of the step in one place more. No step finds a
    stray mark. -/
theorem typed_session (hb : Regular buffer) (hs : ∀ x ∈ steps ++ [s], x.Valid) :
    ∃ before after cs ds,
      session buffer steps = pure before ∧ session buffer (steps ++ [s]) = pure after ∧
      Buffer.read before = pure cs ∧ Buffer.read after = pure ds ∧
      after = write ds ∧ Typed s.kind s.text cs ds := by
  obtain ⟨hsteps, hlast⟩ := List.forall_mem_append.1 hs
  obtain ⟨before, hbefore, hregular⟩ := regular_session hsteps hb
  obtain ⟨cs, ds, hread, happly, hback, -, htyped⟩ :=
    typed_insert (List.forall_mem_singleton.1 hlast) hregular
  refine ⟨before, write ds, cs, ds, hbefore, ?_, hread, hback, rfl, htyped⟩
  rw [session_append, hbefore, Noted.pure_bind, session, happly]
  rfl

/-- In plain text with a translated text behind it, a score is typed into the argument, which takes
    it, and a selector behind everything, where it is a component of its own. -/
theorem typed_session_into_argument :
    let c : Component := ⟨.translate, "key", ["ab"]⟩
    let buffer : Text := ("Hi " : Text) ++ (componentText c ++ [])
    let steps : List Step := [⟨7, "x", .score⟩]
    let s : Step := ⟨99, "@p", .selector⟩
    (session buffer (steps ++ [s])).value = write [.plain .text "Hi ",
        ⟨.translate, "key", ["axb"]⟩, .plain .selector "@p"] ∧
      ∃ before after cs ds,
        session buffer steps = pure before ∧ session buffer (steps ++ [s]) = pure after ∧
        Buffer.read before = pure cs ∧ Buffer.read after = pure ds ∧
        after = write ds ∧ Typed s.kind s.text cs ds := by
  intro c buffer steps s
  have hc : Writable c := ⟨by decide, by decide, by decide⟩
  have hb : Regular buffer := .plain (by decide) (.component hc .nil)
  have hs : ∀ x ∈ steps ++ [s], x.Valid :=
    List.forall_mem_cons.2 ⟨⟨by decide, by decide, by decide⟩,
      List.forall_mem_singleton.2 ⟨by decide, by decide, by decide⟩⟩
  exact ⟨by decide +kernel, typed_session hb hs⟩

end Buffer

end CrossEdition
