import Deduction.Search.Run

/-!
# Deriving by hand

`Theory.derive` proves one theorem from premises that are valid already, by a rule of the theory.
Extending a theory notes every derivation that is appended, before the result is checked.
-/

namespace Deduction

namespace Theory

/-- Extends the theory and notes what is appended. -/
def extending (T : Theory) (ds : List Derivation) : Run Theory :=
  ⟨T.extend ds, (T.newIn ds).map fun d => .note (.extended d)⟩

/-- Derives the conjecture by applying the rule to the premises, and returns the theory with the
new theorem.  The premises must be valid in the theory, and the rule must be in it. -/
def derive (T : Theory) (conjecture : Formula) (premises : Sequence) (rule : InferenceRule) :
    Run (Theory × Theorem) :=
  match premises.elements.find? fun p => ¬ T.IsValid p with
  | some p => .ofResult (.error (.premiseNotValid p))
  | none => do
    let t ← Theorem.ofInference conjecture ⟨rule, premises⟩
    let extended ← T.extending [.proved t]
    Run.note (.derived t)
    return (extended, t)

end Theory

end Deduction
