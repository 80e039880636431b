import CrossEdition.Selector.Basic
import CrossEdition.Selector.Merge

/-!
# Adapting parameters

What adapting a selector to either edition needs: replacing parameters one by one, and
dropping those that the target cannot express.

Results:
* `displace_eq_self`: replacing nothing leaves the selector as it is.
-/

namespace CrossEdition

namespace Selector

/-- Takes away each parameter for which `f` gives parameters in its place, and puts
    those behind all others. The rest stays in its order. -/
def displace (f : Parameter → Noted (Option (List Parameter))) (s : Selector) :
    Noted Selector where
  value := { s with
    parameters := s.parameters.filter (fun p => (f p).value.isNone)
      ++ s.parameters.flatMap fun p => (f p).value.getD [] }
  notes := s.parameters.flatMap fun p => (f p).notes

/-- Drops the parameters that the target dialect cannot express, with a note for
    each. -/
def dropExclusive (target : Dialect) : Selector → Noted Selector :=
  displace fun p =>
    match Dialect.dropReason? p.name target with
    | some reason => ⟨some [], [.exclusive p target reason]⟩
    | none => pure none

/-- The selector with repeated parameters merged. -/
def mergeDuplicates (asHull : Bool) (s : Selector) : Selector :=
  { s with parameters := Parameter.mergeDuplicates asHull s.parameters }

theorem displace_eq_self {f : Parameter → Noted (Option (List Parameter))} {s : Selector}
    (h : ∀ p ∈ s.parameters, (f p).value = none) : (displace f s).value = s := by
  have hf : s.parameters.filter (fun p => (f p).value.isNone) = s.parameters :=
    List.filter_eq_self.2 fun p hp => by simp [h p hp]
  have hm : (s.parameters.flatMap fun p => (f p).value.getD []) = [] := by
    simp only [List.flatMap_eq_nil_iff]
    exact fun p hp => by simp [h p hp]
  simp [displace, hf, hm]

end Selector

/-- A text without a negating `!` in front, and whether there was one, as the text
    of it. -/
def splitNegation : Text → Text × Text
  | '!' :: rest => ("!", rest)
  | t => ("", t)

end CrossEdition
