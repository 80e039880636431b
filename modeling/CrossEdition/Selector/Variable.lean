import CrossEdition.Dialect

/-!
# Selector variables

The part of a selector in front of its parameters: one of the known variables, or
any other text, such as the name of a player.

Results:
* `text_ofText`: a variable keeps the text it was read from.
-/

namespace CrossEdition

/-- Whom a selector starts from. -/
inductive Variable where
  | allPlayers
  | nearestPlayer
  | randomPlayer
  | allEntities
  | executor
  | nearestEntity
  | initiator
  | agent
  | allAgents
  /-- Any text that is none of the known variables. -/
  | custom (text : Text)
deriving DecidableEq, Repr

namespace Variable

/-- The known variables. -/
def known : List Variable :=
  [allPlayers, nearestPlayer, randomPlayer, allEntities, executor, nearestEntity, initiator, agent,
    allAgents]

/-- The text of a variable. -/
def text : Variable → Text
  | allPlayers => "@a"
  | nearestPlayer => "@p"
  | randomPlayer => "@r"
  | allEntities => "@e"
  | executor => "@s"
  | nearestEntity => "@n"
  | initiator => "@initiator"
  | agent => "@c"
  | allAgents => "@v"
  | custom t => t

/-- The variable with this text. -/
def ofText (t : Text) : Variable :=
  (known.find? (·.text = t)).getD (custom t)

/-- Whether only Bedrock knows the variable. -/
def isBedrockOnly (v : Variable) : Bool :=
  v.text ∈ Dialect.bedrockVariables

theorem text_ofText (t : Text) : (ofText t).text = t := by
  unfold ofText
  cases h : known.find? (·.text = t) with
  | none => rfl
  | some v => simpa using List.find?_some h

end Variable

end CrossEdition
