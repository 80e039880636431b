import CrossEdition.Item.OfNbt
import CrossEdition.Adaptation.Basic

/-!
# Adapting to Bedrock

Java's parameters in Bedrock's terms: ranges become bounds, game modes become `m`,
limit and order become `c`, and items in `nbt` become `hasitem`.
-/

namespace CrossEdition

namespace Selector

/-! ## Ranges -/

/-- The bounds that a Java range becomes, if it is numeric. -/
def boundsOfRange? (pair : RangePair) : Value → Option (List Parameter)
  | .scalar t =>
    some ((if pair.scalarIsExact then [.ofTexts pair.min t] else []) ++ [.ofTexts pair.max t])
  | .range bounds =>
    some ((bounds.min.map fun t => Parameter.ofTexts pair.min (Numeral.normalize t)).toList
      ++ (bounds.max.map fun t => Parameter.ofTexts pair.max (Numeral.normalize t)).toList)
  | _ => none

/-- Splits the ranges of one quantity into bounds. -/
def splitRange (pair : RangePair) : Selector → Noted Selector :=
  displace fun p =>
    if p.name = pair.java then
      match boundsOfRange? pair p.value with
      | some bounds => pure (some bounds)
      | none => ⟨none, [.unconvertedRange pair.java p.value]⟩
    else pure none

/-! ## Game modes -/

/-- The `m` parameters that a `gamemode` parameter becomes, if its mode is known. -/
def modeOfGamemode (p : Parameter) : Noted (Option (List Parameter)) :=
  if p.name = "gamemode" then
    let (negation, mode) := splitNegation p.value.text
    if mode = "survival" ∨ mode = "creative" ∨ mode = "adventure" then
      pure (some [.ofTexts "m" (negation ++ mode)])
    else if mode = "spectator" then
      ⟨some [.ofTexts "m" (negation ++ "survival")], [.spectatorBecameSurvival]⟩
    else pure none
  else pure none

/-! ## Limit and order -/

/-- Whether a text is a whole number from one on. -/
def isPositiveCount (t : Text) : Bool :=
  (Numeral.value? t).any fun n => (Double.ofInt 1).le n && n.isWhole

/-- The greatest usable limit. -/
def limit? (limits : List Value) : Option Text :=
  (Numeral.greatest? ((limits.filterMap Value.numeral?).filter isPositiveCount)).map
    Numeral.normalize

/-- The variable and the count that stand for an order and a limit. -/
def countFor (head : Variable) (sort : Option Text) (limit : Option Text) :
    Noted (Variable × Option Text) :=
  match sort with
  | none => do
    if limit ≠ none then
      Noted.note .limitPicksNearest
    pure (head, limit)
  | some sort =>
    if sort = "nearest" then pure (head, limit)
    else if sort = "furthest" then
      match limit with
      | some n => pure (head, some ('-' :: n))
      | none => do
        Noted.note .furthestWithoutLimit
        pure (head, some "-9999")
    else if sort = "random" then
      if head = .allPlayers then do
        Noted.note .randomBecameVariable
        pure (.randomPlayer, some (limit.getD "9999"))
      else if head = .randomPlayer then pure (head, limit)
      else do
        Noted.note .randomUnsupported
        pure (head, limit)
    else if sort = "arbitrary" then do
      Noted.note .arbitraryRemoved
      pure (head, limit)
    else do
      Noted.note (.unknownSort sort)
      pure (head, limit)

/-- Joins limit and order into `c`. -/
def joinLimit (s : Selector) : Noted Selector := do
  let sorts := s.values "sort"
  let limits := s.values "limit"
  if sorts = [] ∧ limits = [] then pure s
  else do
    let limit := limit? limits
    if limit = none ∧ limits ≠ [] then
      Noted.note (.invalidLimit limits)
    let (head, count) ← countFor s.head (sorts.getLast?.map Value.text) limit
    let rest : Selector := { (s.erase "sort").erase "limit" with head := head }
    pure (rest.append (count.map (Parameter.ofTexts "c")).toList)

/-! ## Items -/

/-- What an `nbt` parameter says about items, if anything. -/
def findingsOf (p : Parameter) : Noted (Option Item.Findings) :=
  if p.name = "nbt" then
    match p.value with
    | .compound nbt => do
      match ← Item.findings? nbt with
      | some found => pure (some found)
      | none => do
        if Text.trim nbt ≠ "\x7b\x7d" then
          Noted.note (.nbtKept nbt)
        pure none
    | _ => pure none
  else pure none

/-- Gathers the items of all `nbt` parameters in one `hasitem` parameter. -/
def gatherItems (s : Selector) : Noted Selector where
  value :=
    let found := s.parameters.filterMap fun p => (findingsOf p).value
    { s with
      parameters := s.parameters.filter (fun p => (findingsOf p).value.isNone)
        ++ (ItemClause.parameter? (found.flatMap (·.items))).toList
        ++ found.flatMap (·.extras) }
  notes := s.parameters.flatMap fun p => (findingsOf p).notes

/-- The selector in Bedrock's terms. -/
def toBedrock (s : Selector) : Noted Selector := do
  let s ← s.dropExclusive .bedrock
  let s ← rangePairs.foldlM (fun s pair => s.splitRange pair) s
  let s ← s.displace modeOfGamemode
  let s ← s.joinLimit
  s.gatherItems

end Selector

end CrossEdition
