import Deduction.Theory.Basic

/-!
# Axiomatizations

An axiomatization is a theory without theorems: axioms and inference rules only.  Nothing in it
cites anything, so a list without duplicates and theorems is a theory.
-/

namespace Deduction

/-- A list of axioms and inference rules without duplicates. -/
structure Axiomatization where
  /-- The derivations in order. -/
  derivations : List Derivation
  /-- No derivation repeats. -/
  nodup : derivations.Nodup
  /-- No derivation is a theorem. -/
  axiomatic : ∀ d ∈ derivations, ¬ d.IsTheorem
deriving DecidableEq

namespace Axiomatization

/-- The axiomatization of a list of derivations, refused if one is a theorem and then if one
repeats. -/
def ofList (ds : List Derivation) : Except Error Axiomatization :=
  match htheorem : ds.find? (·.IsTheorem) with
  | some d => .error (.notAxiomatic d.formula)
  | none =>
    match henumerate : Derivation.enumerate ds with
    | .error e => .error e
    | .ok _ => .ok ⟨ds, nodup_of_enumerate henumerate, by simpa using htheorem⟩

/-- The theory with the same derivations. -/
def theory (A : Axiomatization) : Theory where
  derivations := A.derivations
  accepted := {
    nodup := A.nodup
    cites := fun _ _ hi => absurd trivial (A.axiomatic _ (List.mem_of_getElem? hi)) }

/-- The axiomatization followed by the derivations of `ds` that it does not have. -/
def extend (A : Axiomatization) (ds : List Derivation) : Except Error Axiomatization :=
  ofList (appendNew A.derivations ds)

/-- The formula that stands for the axiomatization. -/
def formula (A : Axiomatization) : Formula :=
  .structural .axiomatization (A.derivations.map (·.formula))

/-- The derivations, one on a line. -/
def text [Typesetters] (A : Axiomatization) : String := A.theory.text

/-- Reads an axiomatization from its formula. -/
def ofFormula : Formula → Except Error Axiomatization
  | .node (.structural .axiomatization) ts => do ofList (← Derivation.ofFormulas ts)
  | φ => .error (.ofFormulas (.unreadable (.object .axiomatization) φ))

end Axiomatization

end Deduction
