import Deduction.Proofs.Encoding
import Deduction.Proofs.Relabeling
import Deduction.Proofs.Theories

/-!
# Relabeling theories

A relabeled theorem is a theorem, because its rule draws the relabeled conclusion from the relabeled
premises, and a relabeled theory is a theory, because the check of what its theorems cite compares
derivations and formulas for equality only.  Lists of derivations are compared by position, and
positions stay what they are under an injective map.
-/

namespace Deduction

variable {ρ : Relabeling}

/-! ## Derivations -/

/-- The axiom of the relabeled statement. -/
@[simps] def Axiom.relabel (ρ : Relabeling) (a : Axiom) : Axiom where
  statement := a.statement.relabel ρ

/-- The rule of the relabeled transformation. -/
@[simps] def InferenceRule.relabel (ρ : Relabeling) (r : InferenceRule) : InferenceRule where
  transformation := r.transformation.relabel ρ

/-- The inference by the relabeled rule from the relabeled premises. -/
@[simps] def Inference.relabel (ρ : Relabeling) (i : Inference) : Inference where
  rule := i.rule.relabel ρ
  premises := i.premises.relabel ρ

theorem Inference.apply_relabel (i : Inference) :
    (i.relabel ρ).apply = mapResult (·.relabel ρ) (·.relabel ρ) i.apply :=
  i.rule.transformation.apply_relabel i.premises.elements

/-- The theorem that the relabeled inference derives. -/
@[simps] def Theorem.relabel (ρ : Relabeling) (t : Theorem) : Theorem where
  statement := t.statement.relabel ρ
  inference := t.inference.relabel ρ
  derives := by rw [Inference.apply_relabel, t.derives, mapResult_ok]

@[simp] theorem InferenceRule.formula_relabel (r : InferenceRule) :
    (r.relabel ρ).formula = r.formula.relabel ρ := by
  simp [formula]

@[simp] theorem Inference.formula_relabel (i : Inference) :
    (i.relabel ρ).formula = i.formula.relabel ρ := by
  simp [formula]

@[simp] theorem Theorem.formula_relabel (t : Theorem) :
    (t.relabel ρ).formula = t.formula.relabel ρ := by
  simp [formula]

/-- An inference that becomes a theorem does so when it is relabeled, and one that is refused is
refused for the image of the reason. -/
theorem Theorem.ofInference_relabel (statement : Formula) (i : Inference) :
    ofInference (statement.relabel ρ) (i.relabel ρ) =
      mapResult (·.relabel ρ) (·.relabel ρ) (ofInference statement i) := by
  have happly := @Inference.apply_relabel ρ i
  cases h : ofInference statement i with
  | ok t =>
    obtain ⟨rfl, rfl⟩ := ofInference_eq_ok.mp h
    exact ofInference_eq_ok.mpr ⟨rfl, rfl⟩
  | error e =>
    apply ofInference_eq_error.mpr
    rcases ofInference_eq_error.mp h with he | ⟨derived, hderived, hne, rfl⟩
    · rw [he] at happly
      exact .inl happly
    · rw [hderived] at happly
      exact .inr ⟨_, happly, by simpa using hne, rfl⟩

namespace Derivation

/-- The derivation about the relabeled formulas. -/
def relabel (ρ : Relabeling) : Derivation → Derivation
  | stated a => stated (a.relabel ρ)
  | rule r => rule (r.relabel ρ)
  | proved t => proved (t.relabel ρ)

@[simp] theorem relabel_proved (t : Theorem) : (proved t).relabel ρ = proved (t.relabel ρ) := rfl

@[simp] theorem formula_relabel (d : Derivation) : (d.relabel ρ).formula = d.formula.relabel ρ := by
  cases d with
  | stated a => simp [relabel, formula, Axiom.formula]
  | rule r => exact r.formula_relabel
  | proved t => exact t.formula_relabel

@[simp] theorem statement?_relabel (d : Derivation) :
    (d.relabel ρ).statement? = d.statement?.map (·.relabel ρ) := by
  cases d <;> rfl

/-- A derivation is determined by its formula, and relabeling formulas is injective. -/
theorem relabel_injective : Function.Injective (relabel ρ) := by
  intro d e h
  have hformula : d.formula.relabel ρ = e.formula.relabel ρ := by
    rw [← formula_relabel, ← formula_relabel, h]
  exact formula_inj.mp (Formula.relabel_injective hformula)

theorem relabel_eq_rule {d : Derivation} {r : InferenceRule} :
    d.relabel ρ = rule (r.relabel ρ) ↔ d = rule r :=
  relabel_injective.eq_iff (b := rule r)

theorem states_relabel {d : Derivation} {φ : Formula} :
    (d.relabel ρ).statement? = some (φ.relabel ρ) ↔ d.statement? = some φ := by
  rw [statement?_relabel]
  exact (Option.map_injective Formula.relabel_injective).eq_iff (b := some φ)

end Derivation

/-! ## Acceptance -/

theorem statedAt?_relabel (ds : List Derivation) (φ : Formula) :
    statedAt? (ds.map (·.relabel ρ)) (φ.relabel ρ) = statedAt? ds φ := by
  simp only [statedAt?, List.findIdx?_map, Function.comp_def, Derivation.states_relabel]

theorem ruleAt?_relabel (ds : List Derivation) (r : InferenceRule) :
    ruleAt? (ds.map (·.relabel ρ)) (r.relabel ρ) = ruleAt? ds r := by
  simp only [ruleAt?, List.findIdx?_map, Function.comp_def, Derivation.relabel_eq_rule]

theorem checkPremise_relabel (ds : List Derivation) (index : Nat) (t : Theorem) (p : Formula) :
    checkPremise (ds.map (·.relabel ρ)) index (t.relabel ρ) (p.relabel ρ) =
      mapResult (·.relabel ρ) id (checkPremise ds index t p) := by
  rw [checkPremise, checkPremise, statedAt?_relabel, Theorem.formula_relabel]
  cases statedAt? ds p with
  | none => rfl
  | some position => by_cases hlt : position < index <;> simp [hlt, Error.relabel]

theorem checkPremises_relabel (ds : List Derivation) (index : Nat) (t : Theorem)
    (ps : List Formula) :
    checkPremises (ds.map (·.relabel ρ)) index (t.relabel ρ) (ps.map (·.relabel ρ)) =
      mapResult (·.relabel ρ) id (checkPremises ds index t ps) := by
  induction ps with
  | nil => rfl
  | cons p ps ih =>
    rw [List.map_cons, checkPremises, checkPremises, checkPremise_relabel]
    exact mapResult_bind fun _ => ih

theorem checkRule_relabel (ds : List Derivation) (index : Nat) (t : Theorem) :
    checkRule (ds.map (·.relabel ρ)) index (t.relabel ρ) =
      mapResult (·.relabel ρ) id (checkRule ds index t) := by
  rw [checkRule, checkRule, Theorem.relabel_inference, Inference.relabel_rule, ruleAt?_relabel,
    Theorem.formula_relabel, InferenceRule.formula_relabel]
  cases ruleAt? ds t.inference.rule with
  | none => rfl
  | some position => by_cases hlt : position < index <;> simp [hlt, Error.relabel]

theorem checkTheorem_relabel (ds : List Derivation) (index : Nat) (t : Theorem) :
    checkTheorem (ds.map (·.relabel ρ)) index (t.relabel ρ) =
      mapResult (·.relabel ρ) id (checkTheorem ds index t) := by
  have hpremises : checkPremises (ds.map (·.relabel ρ)) index (t.relabel ρ)
      (t.relabel ρ).inference.premises.elements =
        mapResult (·.relabel ρ) id (checkPremises ds index t t.inference.premises.elements) :=
    checkPremises_relabel ds index t _
  rw [checkTheorem, checkTheorem, hpremises, checkRule_relabel]
  exact mapResult_bind fun _ => rfl

/-- The check of relabeled derivations is the image of the check of the derivations. -/
theorem checkFrom_relabel (ds : List Derivation) (index : Nat) (rest : List Derivation) :
    checkFrom (ds.map (·.relabel ρ)) index (rest.map (·.relabel ρ)) =
      mapResult (·.relabel ρ) id (checkFrom ds index rest) := by
  induction rest generalizing index with
  | nil => rfl
  | cons d rest ih =>
    cases d with
    | stated a => exact ih (index + 1)
    | rule r => exact ih (index + 1)
    | proved t =>
      rw [List.map_cons, Derivation.relabel_proved, checkFrom, checkFrom, checkTheorem_relabel]
      exact mapResult_bind fun _ => ih (index + 1)

theorem Accepted.relabel {ds : List Derivation} (h : Accepted ds) :
    Accepted (ds.map (·.relabel ρ)) := by
  -- A check without error has an image without error, and the check decides acceptance.
  have hcheck := @checkFrom_relabel ρ ds 0 ds
  have hok := h.checkFrom 0
  rw [List.drop_zero] at hok
  rw [hok] at hcheck
  exact accepted_nil.extend List.nil_prefix (h.nodup.map Derivation.relabel_injective) hcheck

/-! ## Theories -/

namespace Theory

/-- The theory of the relabeled derivations. -/
@[simps] def relabel (ρ : Relabeling) (T : Theory) : Theory where
  derivations := T.derivations.map (·.relabel ρ)
  accepted := T.accepted.relabel

@[simp] theorem formula_relabel (T : Theory) : (T.relabel ρ).formula = T.formula.relabel ρ := by
  simp [formula, Function.comp_def]

/-- Relabeled derivations become the relabeled theory or are refused for the image of the reason. -/
theorem ofList_relabel (ds : List Derivation) :
    ofList (ds.map (·.relabel ρ)) = mapResult (·.relabel ρ) (·.relabel ρ) (ofList ds) := by
  have hrepeat := firstRepeat?_map (@Derivation.relabel_injective ρ) [] ds
  have hcheck := @checkFrom_relabel ρ ds 0 ds
  cases h : ofList ds with
  | ok T =>
    obtain rfl := ofList_eq_ok.mp h
    exact ofList_eq_ok.mpr rfl
  | error e =>
    apply ofList_eq_error.mpr
    rcases ofList_eq_error.mp h with ⟨r, hr, rfl⟩ | ⟨hnone, he⟩
    · rw [hr] at hrepeat
      exact .inl ⟨_, hrepeat, by simp [Error.relabel, SyntaxError.relabel]⟩
    · rw [hnone] at hrepeat
      rw [he] at hcheck
      exact .inr ⟨hrepeat, hcheck⟩

theorem newIn_relabel (T : Theory) (ds : List Derivation) :
    (T.relabel ρ).newIn (ds.map (·.relabel ρ)) = (T.newIn ds).map (·.relabel ρ) := by
  have happend := appendNew_map (@Derivation.relabel_injective ρ) T.derivations ds
  simp only [newIn, relabel_derivations, happend, List.length_map, List.map_drop]

theorem extend_relabel (T : Theory) (ds : List Derivation) :
    (T.relabel ρ).extend (ds.map (·.relabel ρ)) =
      mapResult (·.relabel ρ) (·.relabel ρ) (T.extend ds) := by
  have happend := appendNew_map (@Derivation.relabel_injective ρ) T.derivations ds
  cases h : T.extend ds with
  | ok S =>
    apply extend_eq_ok.mpr
    rw [relabel_derivations, relabel_derivations, extend_eq_ok.mp h]
    exact happend.symm
  | error e =>
    apply extend_eq_error.mpr
    rw [newIn_relabel, relabel_derivations, List.length_map, happend, checkFrom_relabel,
      extend_eq_error.mp h]
    rfl

theorem validStatements_relabel (T : Theory) :
    (T.relabel ρ).validStatements = T.validStatements.map (·.relabel ρ) := by
  simp [validStatements, List.filterMap_map, List.map_filterMap]

theorem isValid_relabel {T : Theory} {φ : Formula} :
    (T.relabel ρ).IsValid (φ.relabel ρ) ↔ T.IsValid φ := by
  rw [IsValid, IsValid, validStatements_relabel]
  exact Formula.mem_map_relabel

theorem rules_relabel (T : Theory) : (T.relabel ρ).rules = T.rules.map (·.relabel ρ) := by
  simp only [rules, relabel_derivations, List.filterMap_map, List.map_filterMap]
  congr 1
  funext d
  cases d <;> rfl

theorem justification?_relabel (T : Theory) (φ : Formula) :
    (T.relabel ρ).justification? (φ.relabel ρ) = (T.justification? φ).map (·.relabel ρ) := by
  simp only [justification?, relabel_derivations, List.find?_map, Function.comp_def,
    Derivation.states_relabel]

end Theory

end Deduction
