import CrossEdition.Item.Slot

/-!
# Item clauses

One clause of Bedrock's `hasitem` parameter: the item looked for, and optionally how
many, where, and in which slot.
-/

namespace CrossEdition

/-- A clause of a `hasitem` parameter. -/
structure ItemClause where
  item : Text
  quantity : Option Text
  location : Option Text
  slot : Option Text
deriving DecidableEq, Repr

namespace ItemClause

/-- One field of a clause behind the item. -/
def fieldText (key : Text) : Option Text → Text
  | none => []
  | some value => "," ++ key ++ "=" ++ value

/-- The text of a clause. -/
def text (c : ItemClause) : Text :=
  "\x7bitem=" ++ c.item ++ fieldText "quantity" c.quantity ++ fieldText "location" c.location
    ++ fieldText "slot" c.slot ++ "\x7d"

/-- The parameter that looks for all clauses: the clause itself if there is one, a
    list if there are several. -/
def parameter? : List ItemClause → Option Parameter
  | [] => none
  | [c] => some (.ofTexts "hasitem" c.text)
  | cs => some (.ofTexts "hasitem" ('[' :: Text.join "," (cs.map text) ++ [']']))

/-- The one count that stands for a quantity: the rounded middle of a range, its
    only end, or the number itself; one if the quantity is not numeric. -/
def representativeCount (quantity : Text) : Int :=
  let quantity := Text.trim quantity
  if (Text.cutDots quantity).isSome then
    match Bounds.ofText? quantity with
    | none => 1
    | some bounds =>
      match bounds.minValue?, bounds.maxValue? with
      | some lo, some hi => (lo.add hi).half.round
      | some n, none | none, some n => n.round
      | none, none => 1
  else ((Numeral.value? quantity).map Double.round).getD 1

/-- Whether a quantity can only be met by having none of the item. -/
def requiresAbsence (quantity : Text) : Bool :=
  let quantity := Text.trim quantity
  let upper :=
    if (Text.cutDots quantity).isSome then (Bounds.ofText? quantity).bind Bounds.maxValue?
    else Numeral.value? quantity
  upper.any (·.le (.zero false))

end ItemClause

end CrossEdition
