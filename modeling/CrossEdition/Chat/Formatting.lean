import CrossEdition.Chat.Style
import CrossEdition.Conversion

/-!
# Formatting codes

A section sign and a code change the style of all text behind them. Unknown codes
are text, and a section sign at the very end of a text is dropped.

Results:
* `runText_group`: the runs of a text hold its visible characters, in order.
-/

namespace CrossEdition

namespace Formatting

/-- The character that introduces a code. -/
def sign : Char := '§'

/-- What a code changes. -/
inductive Code where
  | color (color : Color)
  | bold
  | italic
  | underlined
  | strikethrough
  | obfuscated
  | reset
deriving DecidableEq, Repr

/-- The style behind a code. -/
def Code.apply (s : Style) : Code → Style
  | color c => { s with color := some c }
  | bold => { s with bold := true }
  | italic => { s with italic := true }
  | underlined => { s with underlined := true }
  | strikethrough => { s with strikethrough := true }
  | obfuscated => { s with obfuscated := true }
  | reset => .plain

/-- The color of `m` and `n`. -/
def mnColor (code : Char) : Code :=
  if code = 'm' then .color .darkRed else .color .red

/-- The format of `m` and `n`. -/
def mnFormat (code : Char) : Code :=
  if code = 'm' then .strikethrough else .underlined

/-- The code that `m` or `n` with a suffix stands for. Where both are colors anyway
    a suffix is text. -/
def suffixed? (mode : MnMode) (code : Char) : Text → Option Code
  | '_' :: suffix :: _ =>
    if mode = .color ∨ ¬ (code = 'm' ∨ code = 'n') then none
    else if suffix = 'f' then some (mnFormat code)
    else if suffix = 'c' then some (mnColor code)
    else none
  | _ => none

/-- What a code stands for without a suffix: a code, nothing at all, or text. -/
inductive Meaning where
  | code (code : Code)
  | nothing
  | text
deriving DecidableEq, Repr

/-- The meaning of a code without a suffix. -/
def meaning (mode : MnMode) (code : Char) : Meaning :=
  if code = 'm' ∨ code = 'n' then
    match mode with
    | .font => .code (mnFormat code)
    | .color => .code (mnColor code)
    | .suffix => .nothing
  else if code = 'k' then .code .obfuscated
  else if code = 'l' then .code .bold
  else if code = 'o' then .code .italic
  else if code = 'r' then .code .reset
  else
    match Color.ofCode? code with
    | some c => .code (.color c)
    | none => .text

/-- What a text is made of: visible characters and codes. -/
inductive Symbol where
  | visible (c : Char)
  | code (code : Code)
deriving DecidableEq, Repr

/-- The visible characters and codes of a text. -/
def symbols (mode : MnMode) : Text → List Symbol
  | [] => []
  | c :: rest =>
    if c = sign then
      match rest with
      | [] => []
      | code :: rest =>
        match suffixed? mode code rest, rest with
        | some k, _ :: _ :: rest => .code k :: symbols mode rest
        | _, rest =>
          match meaning mode code with
          | .code k => .code k :: symbols mode rest
          | .nothing => symbols mode rest
          | .text => .visible sign :: .visible code :: symbols mode rest
    else .visible c :: symbols mode rest

/-- The visible characters with the style each is shown in, from a style on. -/
def styled (s : Style) : List Symbol → List (Char × Style)
  | [] => []
  | .visible c :: rest => (c, s) :: styled s rest
  | .code k :: rest => styled (k.apply s) rest

/-- Text in one style. -/
structure Run where
  text : Text
  style : Style
deriving DecidableEq, Repr

/-- Characters in a row of one style as one run. -/
def group : List (Char × Style) → List Run
  | [] => []
  | (c, s) :: rest =>
    match group rest with
    | [] => [⟨[c], s⟩]
    | run :: runs =>
      if run.style = s then ⟨c :: run.text, s⟩ :: runs else ⟨[c], s⟩ :: run :: runs

/-- The runs of a text as Java shows it. -/
def runs (mode : MnMode) (t : Text) : List Run :=
  group (styled .plain (symbols mode t))

/-- The visible characters of runs. -/
def runText (rs : List Run) : Text :=
  rs.flatMap (·.text)

/-- Whether a text begins with `m` or `n` and a suffix. -/
def beginsSuffixed (mode : MnMode) : Text → Bool
  | [] => false
  | code :: rest => (suffixed? mode code rest).isSome

/-- The text as Bedrock reads it, which knows all codes itself. A suffix of `m` or
    `n` is removed, because Bedrock always reads the two as colors. -/
def bedrockText (mode : MnMode) : Text → Text
  | [] => []
  | c :: rest =>
    match c = sign && beginsSuffixed mode rest, rest with
    | true, code :: _ :: _ :: rest => c :: code :: bedrockText mode rest
    | _, rest => c :: bedrockText mode rest

/-- The visible characters of a text. -/
def plainText (t : Text) : Text :=
  runText (runs .font t)

/-! ## Lemmas -/

theorem runText_group (cs : List (Char × Style)) : runText (group cs) = cs.map (·.1) := by
  induction cs with
  | nil => rfl
  | cons p rest ih =>
    obtain ⟨c, s⟩ := p
    unfold group
    split
    · next h => simp_all [runText]
    · next run runs h =>
      split <;> simp_all [runText]

end Formatting

end CrossEdition
