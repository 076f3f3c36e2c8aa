import Deduction.Derivation

/-!
# Derivations and the formulas that stand for them

A transformation, a rule, an inference, a theorem and a derivation are each read back from the
formula that stands for them.  So the formula determines what it stands for, and where derivations
are compared it makes no difference whether they or their formulas are (`Derivation.formula_inj`).
-/

namespace Deduction

theorem Transformation.ofParts_eq_ok {premises : Sequence} {conclusion : Formula}
    {vars : Enumeration} {t : Transformation} :
    ofParts premises conclusion vars = .ok t ↔
      t.premises = premises ∧ t.conclusion = conclusion ∧ t.vars = vars := by
  constructor
  · intro h
    unfold ofParts at h
    split at h
    · simp at h
    · obtain rfl := Except.ok.inj h
      exact ⟨rfl, rfl, rfl⟩
  · rintro ⟨rfl, rfl, rfl⟩
    unfold ofParts
    split
    next v h =>
      have hatomic : v.IsAtomic := t.atomic v (List.mem_of_find?_eq_some h)
      have hnot : ¬ v.IsAtomic := by simpa using List.find?_some h
      exact absurd hatomic hnot
    next => rfl

@[simp] theorem Transformation.ofFormula_formula (t : Transformation) :
    ofFormula t.formula = .ok t := by
  have hparts : ofParts t.premises t.conclusion t.vars = .ok t :=
    ofParts_eq_ok.mpr ⟨rfl, rfl, rfl⟩
  simp [formula, Formula.structural, ofFormula, hparts, bind, Except.bind]

@[simp] theorem InferenceRule.ofFormula_formula (r : InferenceRule) :
    ofFormula r.formula = .ok r := by
  simp only [formula, Formula.structural, ofFormula, Transformation.ofFormula_formula]
  rfl

@[simp] theorem Inference.ofFormula_formula (i : Inference) : ofFormula i.formula = .ok i := by
  simp only [formula, Formula.structural, ofFormula, InferenceRule.ofFormula_formula,
    Sequence.ofFormula_formula]
  rfl

/-- An inference becomes a theorem exactly when there is a theorem with that inference and that
statement. -/
theorem Theorem.ofInference_eq_ok {statement : Formula} {inference : Inference} {t : Theorem} :
    Theorem.ofInference statement inference = .ok t ↔
      t.statement = statement ∧ t.inference = inference := by
  constructor
  · intro h
    unfold Theorem.ofInference at h
    split at h
    · simp at h
    · split at h
      · obtain rfl := Except.ok.inj h
        exact ⟨rfl, rfl⟩
      · simp at h
  · rintro ⟨rfl, rfl⟩
    have hderives := t.derives
    unfold Theorem.ofInference
    split
    next e h => simp [hderives] at h
    next derived h =>
      obtain rfl : t.statement = derived := by simpa [hderives] using h
      simp

/-- An inference is refused with the error of applying it or for deriving something else. -/
theorem Theorem.ofInference_eq_error {statement : Formula} {inference : Inference} {e : Error} :
    Theorem.ofInference statement inference = .error e ↔
      inference.apply = .error e ∨ ∃ derived, inference.apply = .ok derived ∧
        derived ≠ statement ∧ .notDerived statement derived = e := by
  unfold Theorem.ofInference
  split
  next e' h => simp [h]
  next derived h =>
    by_cases heq : derived = statement
    · simp [h, heq]
    · simp [h, heq]

@[simp] theorem Theorem.ofFormula_formula (t : Theorem) : ofFormula t.formula = .ok t := by
  have hread : ofInference t.statement t.inference = .ok t := ofInference_eq_ok.mpr ⟨rfl, rfl⟩
  simp [formula, Formula.structural, ofFormula, hread, bind, Except.bind]

namespace Derivation

/-- A derivation is read back from its formula. -/
@[simp] theorem ofFormula_formula (d : Derivation) : ofFormula d.formula = .ok d := by
  cases d with
  | stated a => rfl
  | rule r =>
    have hread : ofFormula (rule r).formula = rule <$> InferenceRule.ofFormula r.formula := rfl
    rw [hread, InferenceRule.ofFormula_formula]
    rfl
  | proved t =>
    have hread : ofFormula (proved t).formula = proved <$> Theorem.ofFormula t.formula := rfl
    rw [hread, Theorem.ofFormula_formula]
    rfl

@[simp] theorem formula_inj {d e : Derivation} : d.formula = e.formula ↔ d = e := by
  constructor
  · intro h
    have hread : ofFormula d.formula = ofFormula e.formula := congrArg ofFormula h
    simpa using hread
  · rintro rfl
    rfl

end Derivation

end Deduction
