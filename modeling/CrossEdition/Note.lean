import CrossEdition.Dialect
import CrossEdition.Selector.Parameter
import CrossEdition.Snbt.Reader

/-!
# Notes

What a conversion has to say besides its result. A note names its cause. Some notes
are reminders for whoever asked for the conversion, some are records for a log, and
some are both; each reading of a note has its wording here and nowhere else.

`Noted` is a value with the notes that were made on the way to it, in order.

Results:
* `Noted.value_bind`, `Noted.notes_bind`: notes never influence a value, and none
  gets lost.
-/

namespace CrossEdition

/-- What happened on the way to a result. -/
inductive Note where
  /-- An entry of a parameter list has no name in front of its `=`. -/
  | unnamedEntry (entry : Text)
  /-- An edition was detected, from so many Java and Bedrock hints. -/
  | detected (dialect : Dialect) (selector : Text) (java bedrock : Nat)
  /-- The target edition has nothing like a parameter. -/
  | exclusive (parameter : Parameter) (target : Dialect) (reason : Text)
  /-- A range is not numeric. -/
  | unconvertedRange (name : Text) (value : Value)
  | spectatorBecameSurvival
  | invalidLimit (values : List Value)
  | furthestWithoutLimit
  | randomBecameVariable
  | randomUnsupported
  | arbitraryRemoved
  | unknownSort (sort : Text)
  | limitPicksNearest
  /-- An `nbt` compound holds nothing that Bedrock could look for. -/
  | nbtKept (nbt : Text)
  | bedrockVariable (target : Text)
  /-- The default game mode was asked for, perhaps negated. -/
  | defaultMode (mode : Text) (negation : Text)
  | invalidCount
  | zeroCount
  | negatedScore (name value : Text)
  | hasitemUnreadable (hasitem : Text) (error : Snbt.Error)
  | clauseWithoutItem
  | quantityNegated
  /-- A quantity can only be met by not having the item. -/
  | absenceRequired (item quantity : Text)
  | quantityRepresented (quantity : Text) (count : Int)
  | locationWithoutSlot (location : Text)
  | slotNegated
  | invalidSlot (slot : Text)
  | unknownLocation (location : Text)
  | hasitemConverted
  | nbtUnreadable (nbt : Text) (error : Snbt.Error)
  | nbtRead (entries : Text)
  | slotNotNumeric
  | slotNegative (slot : Text)
  | unknownEquipment (key : Text)
  | moreTags (count : Nat) (first : Text)
  | nbtConverted (nbt : Text)
  | mixedMode
  /-- A component mark that opens no component. -/
  | strayMark (index : Nat)
  | strandedSeparator (separator : Text)
  | separatorsIgnored
deriving DecidableEq, Repr

/-- How much a log record matters. -/
inductive Level where
  | debug
  | warn
deriving DecidableEq, Repr

/-- The name of a level. -/
def Level.name : Level → Text
  | debug => "debug"
  | warn => "warn"

/-- A text in double quotes, with quotes, backslashes and control characters
    escaped. -/
def debugQuoted (t : Text) : Text :=
  '"' :: t.flatMap escape ++ ['"']
where
  /-- One character of a quoted text. -/
  escape (c : Char) : Text :=
    if c = '"' ∨ c = '\\' then ['\\', c]
    else if c = '\t' then "\\t"
    else if c = '\n' then "\\n"
    else if c = '\r' then "\\r"
    else if c = '\x00' then "\\0"
    else if c.toNat < 0x20 ∨ c.toNat = 0x7f then "\\u\x7b" ++ Nat.toDigits 16 c.toNat ++ "\x7d"
    else [c]

namespace Note

/-- The reminder that a note gives, if it is one. -/
def reminder? : Note → Option Text
  | exclusive p _ reason => some (p.text ++ " was removed: " ++ reason)
  | spectatorBecameSurvival =>
    some "gamemode=spectator has no Bedrock equivalent and became m=survival"
  | invalidLimit values =>
    some ("limit=" ++ Text.join "," (values.map Value.text)
      ++ " is not a positive integer and was removed")
  | furthestWithoutLimit =>
    some "sort=furthest without limit became c=-9999 to select every entity, furthest first"
  | randomBecameVariable =>
    some "@a[sort=random] became @r because Bedrock only randomizes with @r"
  | randomUnsupported =>
    some "sort=random is not supported here in Bedrock; entities are picked by distance"
  | arbitraryRemoved => some "sort=arbitrary has no Bedrock equivalent and was removed"
  | unknownSort sort => some ("sort=" ++ sort ++ " is not recognized and was removed")
  | limitPicksNearest => some "limit became c; Bedrock picks the nearest entities first"
  | nbtKept nbt => some ("nbt=" ++ nbt ++ " has no Bedrock equivalent and was kept unchanged")
  | bedrockVariable target => some (target ++ " has no Java equivalent and became @a")
  | defaultMode mode negation =>
    some ("m=" ++ mode ++ " (default) has no Java equivalent and became gamemode=" ++ negation
      ++ "survival")
  | invalidCount => some "c is not a number and was removed"
  | zeroCount => some "c=0 selects nothing meaningful in Java and was removed"
  | negatedScore name value =>
    some ("scores " ++ name ++ "=" ++ value
      ++ " uses negation, which Java does not support, and was removed")
  | hasitemUnreadable hasitem _ =>
    some ("hasitem=" ++ hasitem ++ " could not be parsed and was removed")
  | clauseWithoutItem => some "hasitem clause without an item was skipped"
  | quantityNegated => some "hasitem quantity negation is not supported in Java nbt"
  | absenceRequired item quantity =>
    some ("hasitem " ++ item ++ " with quantity=" ++ quantity
      ++ " matches players without the item; Java nbt cannot express absence and the clause was"
      ++ " removed")
  | quantityRepresented quantity count =>
    some ("hasitem quantity " ++ quantity ++ " is represented by count " ++ Text.ofInt count
      ++ "; Java nbt does not carry Count")
  | locationWithoutSlot location =>
    some ("hasitem location " ++ location ++ " has no slot; the Java Slot was omitted")
  | slotNegated => some "hasitem slot negation is not supported in Java nbt"
  | invalidSlot slot => some ("hasitem slot '" ++ slot ++ "' is not a valid slot number")
  | unknownLocation location =>
    some ("hasitem location " ++ location ++ " has no Java equivalent; the Java Slot was omitted")
  | hasitemConverted =>
    some "hasitem was converted to nbt; item matching may differ between editions"
  | slotNotNumeric => some "nbt Slot is not a number and was ignored"
  | slotNegative slot =>
    some ("nbt Slot " ++ slot ++ " has no Bedrock location; the item was skipped")
  | unknownEquipment key =>
    some ("nbt equipment slot " ++ key ++ " has no Bedrock location and was skipped")
  | moreTags count first =>
    some ("nbt Tags lists " ++ Text.ofNat count ++ " tags; only the first (" ++ first
      ++ ") was kept")
  | nbtConverted nbt =>
    some ("nbt=" ++ nbt ++ " was converted structurally; matching may be partial")
  | mixedMode => some "mixed mode: Java and Bedrock parameters were merged into one selector"
  | separatorsIgnored =>
    some "Bedrock does not support selector separators; sep: entries were ignored"
  | unnamedEntry .. | detected .. | unconvertedRange .. | nbtUnreadable .. | nbtRead ..
  | strayMark .. | strandedSeparator .. => none

/-- The log record that a note gives, if it is one. -/
def record? : Note → Option (Level × Text)
  | unnamedEntry entry =>
    some (.debug, "discarding selector entry with empty name: " ++ debugQuoted entry)
  | detected dialect selector java bedrock =>
    some (.debug, "detected " ++ dialect.name ++ " for " ++ selector ++ " (java="
      ++ Text.ofNat java ++ ", bedrock=" ++ Text.ofNat bedrock ++ ")")
  | exclusive p target reason =>
    some (.warn, "dropping " ++ p.text ++ " for " ++ target.name ++ ": " ++ reason)
  | unconvertedRange name value =>
    some (.warn, "leaving " ++ name ++ "=" ++ value.text ++ " unconverted")
  | nbtKept nbt => some (.warn, "nbt=" ++ nbt ++ " has no Bedrock form")
  | hasitemUnreadable hasitem error =>
    some (.warn, "unparsable hasitem " ++ hasitem ++ ": " ++ error.message)
  | absenceRequired item quantity =>
    some (.warn, "dropping hasitem " ++ item ++ " with quantity " ++ quantity)
  | nbtUnreadable nbt error =>
    some (.debug, "nbt " ++ nbt ++ " is not structurally convertible: " ++ error.message)
  | nbtRead entries => some (.debug, "converting nbt " ++ entries)
  | strayMark index => some (.debug, "unmatched component marker at " ++ Text.ofNat index)
  | strandedSeparator separator =>
    some (.debug, "discarding sep:" ++ separator ++ " with no selector before it")
  | separatorsIgnored => some (.warn, "selector separators dropped for Bedrock")
  | _ => none

end Note

/-! ## Values with notes -/

/-- A value and the notes made on the way to it. -/
structure Noted (α : Type) where
  value : α
  notes : List Note

namespace Noted

variable {α β : Type}

instance : Monad Noted where
  pure a := ⟨a, []⟩
  bind x f :=
    let y := f x.value
    ⟨y.value, x.notes ++ y.notes⟩

/-- A note by itself. -/
def note (n : Note) : Noted Unit :=
  ⟨(), [n]⟩

/-- The values of a list, with all their notes in order. -/
def all (xs : List (Noted α)) : Noted (List α) :=
  ⟨xs.map (·.value), xs.flatMap (·.notes)⟩

/-- The reminders among the notes. -/
def reminders (x : Noted α) : List Text :=
  x.notes.filterMap Note.reminder?

/-- The log records among the notes. -/
def records (x : Noted α) : List (Level × Text) :=
  x.notes.filterMap Note.record?

theorem ext {x y : Noted α} (hv : x.value = y.value) (hn : x.notes = y.notes) : x = y := by
  obtain ⟨v, n⟩ := x
  simp only at hv hn
  rw [hv, hn]

@[simp] theorem pure_bind (a : α) (f : α → Noted β) : (pure a : Noted α) >>= f = f a :=
  ext rfl rfl

theorem bind_assoc {γ : Type} (x : Noted α) (f : α → Noted β) (g : β → Noted γ) :
    x >>= f >>= g = x >>= fun a => f a >>= g :=
  ext rfl (List.append_assoc ..)

@[simp] theorem value_pure (a : α) : (pure a : Noted α).value = a := rfl

@[simp] theorem notes_pure (a : α) : (pure a : Noted α).notes = [] := rfl

@[simp] theorem value_bind (x : Noted α) (f : α → Noted β) :
    (x >>= f).value = (f x.value).value := rfl

@[simp] theorem notes_bind (x : Noted α) (f : α → Noted β) :
    (x >>= f).notes = x.notes ++ (f x.value).notes := rfl

theorem bind_congr {x : Noted α} {f g : α → Noted β} (h : f x.value = g x.value) :
    x >>= f = x >>= g :=
  ext (by rw [value_bind, value_bind, h]) (by rw [notes_bind, notes_bind, h])

@[simp] theorem value_map (x : Noted α) (f : α → β) : (f <$> x).value = f x.value := rfl

@[simp] theorem notes_map (x : Noted α) (f : α → β) : (f <$> x).notes = x.notes :=
  List.append_nil _

@[simp] theorem value_note (n : Note) : (note n).value = () := rfl

@[simp] theorem notes_note (n : Note) : (note n).notes = [n] := rfl

@[simp] theorem value_all (xs : List (Noted α)) : (all xs).value = xs.map (·.value) := rfl

@[simp] theorem notes_all (xs : List (Noted α)) : (all xs).notes = xs.flatMap (·.notes) := rfl

theorem reminders_pure (a : α) : (pure a : Noted α).reminders = [] := rfl

theorem reminders_note (n : Note) : (note n).reminders = n.reminder?.toList := by
  rw [reminders, notes_note, List.filterMap_cons, List.filterMap_nil]
  cases n.reminder? <;> rfl

theorem reminders_map (x : Noted α) (f : α → β) : (f <$> x).reminders = x.reminders := by
  rw [reminders, notes_map, reminders]

theorem reminders_all (xs : List (Noted α)) :
    (all xs).reminders = xs.flatMap (·.reminders) :=
  List.filterMap_flatMap

@[simp] theorem reminders_bind (x : Noted α) (f : α → Noted β) :
    (x >>= f).reminders = x.reminders ++ (f x.value).reminders :=
  List.filterMap_append

@[simp] theorem records_bind (x : Noted α) (f : α → Noted β) :
    (x >>= f).records = x.records ++ (f x.value).records :=
  List.filterMap_append

end Noted

end CrossEdition
