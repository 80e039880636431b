import CrossEdition.Message.Buffer
import Mathlib.Data.List.TakeWhile
import Mathlib.Tactic.Common

/-!
# Buffers are read back

The marks around a component are found again whatever follows them, as long as the texts
between them hold no mark. And nothing else is read as a component. So a message is read back
from its buffer, empty texts included, exactly if its components can be written.

Results:
* `component?_eq_some_iff`: what is read as a component is the text of one.
* `reads_write`: the pieces of a written message are its components.
* `read_write_iff`: which messages are read back.
-/

namespace CrossEdition

namespace Buffer

variable {allowed : Bool} {t rest field : Text} {arguments : List Text} {c : Component}
  {cs : List Component} {ps : List Piece}

/-! ## Texts without marks -/

/-- Whether a text holds no mark. -/
def Unmarked (t : Text) : Prop :=
  ∀ c ∈ t, isMark c = false

instance (t : Text) : Decidable (Unmarked t) :=
  Text.decidableForall t

@[simp] theorem isMark_closing : isMark closing = true := by decide

@[simp] theorem isMark_opening : isMark opening = true := by decide

theorem opening_ne_closing : opening ≠ closing := by decide

theorem isMark_eq_false_iff {c : Char} : isMark c = false ↔ c ≠ opening ∧ c ≠ closing := by
  simp [isMark]

theorem unmarked_nil : Unmarked [] := nofun

theorem unmarked_cons {c : Char} : Unmarked (c :: t) ↔ isMark c = false ∧ Unmarked t :=
  List.forall_mem_cons

theorem unmarked_append : Unmarked (t ++ rest) ↔ Unmarked t ∧ Unmarked rest :=
  List.forall_mem_append

theorem unmarked_key (k : ComponentKind) : Unmarked k.key := by
  cases k <;> decide

theorem unmarked_argumentKey : Unmarked Component.argumentKey := by decide

theorem ofKey?_eq_some_iff {key : Text} {k : ComponentKind} :
    ComponentKind.ofKey? key = some k ↔ key = k.key := by
  constructor
  · intro h
    have := List.find?_some h
    simpa using (of_decide_eq_true this).symm
  · rintro rfl
    exact ComponentKind.ofKey?_key k

/-! ## Fields and arguments -/

theorem field?_eq_some_iff : field? t = some (field, rest) ↔
    Unmarked field ∧ t = field ++ closing :: rest := by
  refine ⟨fun h => ?_, fun ⟨hf, ht⟩ => ht ▸ field?_append hf rest⟩
  induction t generalizing field with
  | nil => simp [field?] at h
  | cons c t ih =>
    rw [field?] at h
    split_ifs at h with hc ho
    · obtain ⟨rfl, rfl⟩ := Prod.mk.inj (Option.some.inj h)
      exact ⟨unmarked_nil, by rw [hc]; rfl⟩
    · obtain ⟨⟨f, r⟩, hf, hfr⟩ := Option.map_eq_some_iff.1 h
      obtain ⟨rfl, rfl⟩ := Prod.mk.inj hfr
      obtain ⟨hu, rfl⟩ := ih hf
      exact ⟨unmarked_cons.2 ⟨isMark_eq_false_iff.2 ⟨ho, hc⟩, hu⟩, rfl⟩

/-- Whether arguments can be written: they hold no mark, and there are none where none are
    allowed. -/
structure WritableArguments (allowed : Bool) (arguments : List Text) : Prop where
  unmarked : ∀ a ∈ arguments, Unmarked a
  allowed : arguments ≠ [] → allowed = true

theorem arguments?_append (h : WritableArguments allowed arguments) (rest : Text) :
    arguments? allowed (arguments.flatMap argumentText ++ closing :: rest) =
      some (arguments, rest) := by
  induction arguments with
  | nil => simp [arguments?]
  | cons a arguments ih =>
    obtain ⟨ha, hs⟩ := List.forall_mem_cons.1 h.unmarked
    have hallowed := h.allowed (by simp)
    have htext : (a :: arguments).flatMap argumentText ++ closing :: rest =
        opening :: (Component.argumentKey ++ closing :: (a ++ closing ::
          (arguments.flatMap argumentText ++ closing :: rest))) := by
      simp [argumentText]
    have hkey := field?_append unmarked_argumentKey (a ++ closing ::
      (arguments.flatMap argumentText ++ closing :: rest))
    have hfield := field?_append ha (arguments.flatMap argumentText ++ closing :: rest)
    rw [htext, arguments?, if_neg opening_ne_closing, if_pos ⟨rfl, hallowed⟩]
    split
    · next hnone => simp [hkey] at hnone
    · next key rest₁ hsome =>
      obtain ⟨rfl, rfl⟩ := Prod.mk.inj (Option.some.inj (hkey.symm.trans hsome))
      rw [if_pos rfl]
      split
      · next hnone => simp [hfield] at hnone
      · next argument rest₂ hsome =>
        obtain ⟨rfl, rfl⟩ := Prod.mk.inj (Option.some.inj (hfield.symm.trans hsome))
        rw [ih ⟨hs, fun _ => hallowed⟩]
        rfl

theorem eq_of_arguments? (h : arguments? allowed t = some (arguments, rest)) :
    WritableArguments allowed arguments ∧ t = arguments.flatMap argumentText ++ closing :: rest := by
  fun_induction arguments? allowed t generalizing arguments with
  | case1 => simp at h
  | case2 t =>
    obtain ⟨rfl, rfl⟩ := Prod.mk.inj (Option.some.inj h)
    exact ⟨⟨by simp, by simp⟩, rfl⟩
  | case3 | case4 | case6 | case7 => simp at h
  | case5 c t hc ho rest₁ argument rest₂ ha hk ih =>
    obtain ⟨⟨more, after⟩, hm, hma⟩ := Option.map_eq_some_iff.1 h
    obtain ⟨rfl, rfl⟩ := Prod.mk.inj hma
    obtain ⟨hmore, rfl⟩ := ih hm
    obtain ⟨-, rfl⟩ := field?_eq_some_iff.1 hk
    obtain ⟨hargument, rfl⟩ := field?_eq_some_iff.1 ha
    refine ⟨⟨List.forall_mem_cons.2 ⟨hargument, hmore.unmarked⟩, fun _ => ho.2⟩, ?_⟩
    simp [argumentText, ho.1]

theorem arguments?_eq_some_iff : arguments? allowed t = some (arguments, rest) ↔
    WritableArguments allowed arguments ∧ t = arguments.flatMap argumentText ++ closing :: rest :=
  ⟨eq_of_arguments?, fun ⟨ha, ht⟩ => ht ▸ arguments?_append ha rest⟩

/-! ## Components -/

/-- The text of a component begins with the mark that opens it. -/
theorem opening_cons_tail (c : Component) (rest : Text) :
    opening :: ((componentText c).tail ++ rest) = componentText c ++ rest := rfl

/-- Whether a component can be written: its texts hold no mark, and only keys of texts carry
    arguments. -/
structure Writable (c : Component) : Prop where
  content : Unmarked c.content
  arguments : ∀ a ∈ c.arguments, Unmarked a
  kind : c.arguments ≠ [] → c.kind = .translate

/-- What stands behind the content of a component begins with a mark. -/
theorem head_arguments (arguments : List Text) (rest : Text) :
    ∃ m more, isMark m = true ∧ arguments.flatMap argumentText ++ closing :: rest = m :: more := by
  cases arguments with
  | nil => exact ⟨closing, rest, isMark_closing, rfl⟩
  | cons a arguments => exact ⟨opening, _, isMark_opening, rfl⟩

/-- A content ends at the next mark. -/
theorem span_content {content : Text} (h : Unmarked content) {m : Char} (hm : isMark m = true)
    (more : Text) :
    (content ++ m :: more).takeWhile (fun c => !isMark c) = content ∧
      (content ++ m :: more).dropWhile (fun c => !isMark c) = m :: more := by
  have hall : ∀ c ∈ content, (!isMark c) = true := by simpa [Unmarked] using h
  rw [List.takeWhile_append_of_pos hall, List.dropWhile_append_of_pos hall,
    List.takeWhile_cons_of_neg (by simp [hm]), List.dropWhile_cons_of_neg (by simp [hm]),
    List.append_nil]
  exact ⟨rfl, rfl⟩

/-- What is read as a component is the text of one that can be written. -/
theorem component?_eq_some_iff : component? t = some (c, rest) ↔
    Writable c ∧ opening :: t = componentText c ++ rest := by
  simp only [component?, Option.bind_eq_bind, Option.bind_eq_some_iff, Prod.exists,
    field?_eq_some_iff, ofKey?_eq_some_iff, arguments?_eq_some_iff, Option.some.injEq,
    Prod.mk.injEq]
  constructor
  · rintro ⟨key, body, ⟨-, rfl⟩, kind, rfl, arguments, _, ⟨ha, hbody⟩, rfl, rfl⟩
    refine ⟨⟨fun d hd => ?_, ha.unmarked, fun hne => by simpa using ha.allowed hne⟩, ?_⟩
    · simpa using List.mem_takeWhile_imp hd
    · have hspan := List.takeWhile_append_dropWhile (p := fun c => !isMark c) (l := body)
      rw [hbody] at hspan
      simp [componentText, hspan]
  · rintro ⟨hc, ht⟩
    obtain ⟨kind, content, arguments⟩ := c
    obtain ⟨m, more, hm, hmore⟩ := head_arguments arguments rest
    refine ⟨kind.key, content ++ (arguments.flatMap argumentText ++ closing :: rest),
      ⟨unmarked_key kind, ?_⟩, kind, rfl, arguments, rest, ⟨⟨hc.arguments, ?_⟩, ?_⟩, ?_, rfl⟩
    · simpa [componentText] using ht
    · simpa using hc.kind
    · rw [hmore, (span_content hc.content hm more).2]
    · rw [hmore, (span_content hc.content hm more).1]

/-! ## Pieces -/

/-- Whether a buffer is made of these pieces, without a stray mark, wherever it stands. -/
def Reads (t : Text) (ps : List Piece) : Prop :=
  ∀ index, pieces index t = pure ps

theorem Reads.nil : Reads [] [] := fun _ => by simp [pieces]

theorem pieces_character {d : Char} (hd : d ≠ opening) (index : Nat) (t : Text) :
    pieces index (d :: t) = (.character d :: ·) <$> pieces (index + 1) t := by
  rw [pieces, if_neg hd]
  rfl

theorem pieces_component (h : component? t = some (c, rest)) (index : Nat) :
    pieces index (opening :: t) =
      (.component c :: ·) <$> pieces (index + ((opening :: t).length - rest.length)) rest := by
  rw [pieces, if_pos rfl]
  split
  · next d after hsome =>
    obtain ⟨rfl, rfl⟩ := Prod.mk.inj (Option.some.inj (h.symm.trans hsome))
    rfl
  · next hnone => simp [h] at hnone

theorem pieces_stray (h : component? t = none) (index : Nat) :
    pieces index (opening :: t) =
      Noted.note (.strayMark index) >>= fun _ =>
        (.character opening :: ·) <$> pieces (index + 1) t := by
  rw [pieces, if_pos rfl]
  split
  · next hsome => simp [h] at hsome
  · rfl

/-- Plain text in front of a buffer. -/
theorem Reads.plain (ht : Unmarked t) (hr : Reads rest ps) :
    Reads (t ++ rest) (t.map .character ++ ps) := by
  induction t with
  | nil => exact hr
  | cons d t ih =>
    obtain ⟨hd, ht⟩ := unmarked_cons.1 ht
    intro index
    rw [List.cons_append, pieces_character (isMark_eq_false_iff.1 hd).1, ih ht]
    rfl

/-- A component in front of a buffer. -/
theorem Reads.component (hc : Writable c) (hr : Reads rest ps) :
    Reads (componentText c ++ rest) (.component c :: ps) := by
  intro index
  have hread : component? ((componentText c).tail ++ rest) = some (c, rest) :=
    component?_eq_some_iff.2 ⟨hc, opening_cons_tail c rest⟩
  rw [← opening_cons_tail, pieces_component hread, hr]
  rfl

theorem write_cons (c : Component) (cs : List Component) :
    write (c :: cs) = componentText c ++ write cs := rfl

/-- The pieces of a written message are its components. -/
theorem reads_write (h : ∀ c ∈ cs, Writable c) : Reads (write cs) (cs.map .component) := by
  induction cs with
  | nil => exact .nil
  | cons c cs ih =>
    obtain ⟨hc, hs⟩ := List.forall_mem_cons.1 h
    exact .component hc (ih hs)

/-! ## Messages -/

@[simp] theorem components_cons (c : Component) (ps : List Piece) :
    components (.component c :: ps) = c :: components ps := rfl

theorem components_components (cs : List Component) : components (cs.map .component) = cs := by
  induction cs with
  | nil => rfl
  | cons c cs ih => rw [List.map_cons, components_cons, ih]

theorem read_of_reads (h : Reads t ps) : read t = pure (components ps) := by
  rw [read, h]
  rfl

/-- If a written message has its components for pieces, they can be written. -/
theorem writable_of_pieces {index : Nat}
    (h : components <$> pieces index (write cs) = pure cs) : ∀ c ∈ cs, Writable c := by
  induction cs generalizing index with
  | nil => simp
  | cons c cs ih =>
    rw [write_cons, ← opening_cons_tail] at h
    cases hread : component? ((componentText c).tail ++ write cs) with
    | none =>
      rw [pieces_stray hread] at h
      simpa using congrArg Noted.notes h
    | some read =>
      obtain ⟨d, after⟩ := read
      rw [pieces_component hread] at h
      obtain ⟨hd, hafter⟩ := component?_eq_some_iff.1 hread
      have hvalue := congrArg Noted.value h
      have hnotes := congrArg Noted.notes h
      simp only [Noted.value_map, components_cons, Noted.value_pure, List.cons.injEq,
        Noted.notes_map, Noted.notes_pure] at hvalue hnotes
      obtain ⟨rfl, hmore⟩ := hvalue
      rw [opening_cons_tail, List.append_cancel_left_eq] at hafter
      subst hafter
      exact List.forall_mem_cons.2 ⟨hd, ih (Noted.ext hmore (by simpa using hnotes))⟩

/-- A message is read back from its buffer, with nothing to note, exactly if no content and no
    argument holds a mark and only keys of texts have arguments. -/
theorem read_write_iff (cs : List Component) :
    read (write cs) = pure cs ↔ ∀ c ∈ cs, Writable c := by
  refine ⟨writable_of_pieces, fun h => ?_⟩
  rw [read_of_reads (reads_write h), components_components]

end Buffer

end CrossEdition
