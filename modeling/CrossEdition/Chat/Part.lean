import CrossEdition.Chat.Entry
import CrossEdition.Conversion
import CrossEdition.Message.Component

/-!
# Message parts

What a message shows, one by one: the entries of each component are parts of their
own, and every selector is converted for both editions. A list without entries is
shown as text.
-/

namespace CrossEdition

/-- A part of a message. -/
inductive Part where
  | text (text : Text)
  | translate (key : Text) (arguments : List Text)
  | score (name objective : Text)
  | selector (conversion : Conversion) (separator : Option Text)
deriving DecidableEq, Repr

namespace Part

/-- The last of the separators at the start of a list. -/
def separatorOf : List Entry.Item → Option Text
  | .separator s :: rest => some ((separatorOf rest).getD s)
  | _ => none

/-- The selectors of a list, each with the last of the separators behind it. -/
def selectors : List Entry.Item → List (Text × Option Text)
  | [] => []
  | .separator _ :: rest => selectors rest
  | .selector t :: rest => (t, separatorOf rest) :: selectors rest

/-- Whether an item is a separator. -/
def isSeparator : Entry.Item → Bool
  | .separator _ => true
  | .selector _ => false

/-- The separators without a selector in front of them. -/
def stranded (items : List Entry.Item) : List Note :=
  (items.takeWhile isSeparator).map fun
    | .separator s => .strandedSeparator s
    | .selector s => .strandedSeparator s

/-- The parts of a component. -/
def ofComponent (settings : Settings) (c : Component) : Noted (List Part) :=
  match c.kind with
  | .text => pure [.text c.content]
  | .translate =>
    pure [.translate c.content ((c.arguments.flatMap (Entry.split false)).filter (· ≠ []))]
  | .score =>
    match Entry.scores c.content with
    | [] => pure [.text c.content]
    | scores => pure (scores.map fun (name, objective) => .score name objective)
  | .selector => do
    let items := Entry.items c.content
    ⟨(), stranded items⟩
    match selectors items with
    | [] => pure [.text c.content]
    | found =>
      Noted.all (found.map fun (t, separator) =>
        (selector · separator) <$> Selector.convertDetected settings t)

/-- The parts of a message. -/
def ofComponents (settings : Settings) (cs : List Component) : Noted (List Part) :=
  List.flatten <$> Noted.all (cs.map (ofComponent settings))

/-- The conversion of a part that is a selector. -/
def conversion? : Part → Option Conversion
  | selector conversion _ => some conversion
  | _ => none

/-- The reminders for Java about the selectors among the parts. -/
def javaReminders (ps : List Part) : List Text :=
  ((ps.filterMap conversion?).flatMap (·.javaReminders)).eraseDups

/-- The reminders for Bedrock about the selectors among the parts. -/
def bedrockReminders (ps : List Part) : List Text :=
  ((ps.filterMap conversion?).flatMap (·.bedrockReminders)).eraseDups

/-- Whether a component asks for separators between selectors. -/
def hasSeparator (c : Component) : Bool :=
  c.kind = .selector && (Entry.items c.content).any isSeparator

end Part

end CrossEdition
