import Deduction.Theory.Basic

/-!
# Outcomes

A search that ends without error has an outcome.  Not finding a derivation is an outcome too: the
theory is then the one that the search started from.
-/

namespace Deduction

/-- What a search comes to. -/
structure Outcome where
  /-- The theory after the search. -/
  theory : Theory
  /-- The derivations that state the targets, in the order of the targets. -/
  derivations : List Derivation
  /-- All targets were found. -/
  success : Bool
deriving DecidableEq

namespace Outcome

/-- The derivation states the target in the theory. -/
def found (T : Theory) (d : Derivation) : Outcome := ⟨T, [d], true⟩

/-- Nothing was found, and the theory is as it was. -/
def failure (T : Theory) : Outcome := ⟨T, [], false⟩

/-- The derivation of the last target. -/
def derivation? (o : Outcome) : Option Derivation := o.derivations.getLast?

end Outcome

end Deduction
