import Deduction.Proofs.FirstMatch
import Deduction.Proofs.SearchErrors

/-!
# Searches that return

A search stops with an error when a variable of a rule occurs in a formula that is to be matched.
That no such variable occurs in the target does not keep a search from this: the formula may be a
premise that a candidate needs, and then the variable came from a statement of the theory or from
another rule (`Search.searches_stopped_by_variables`).

`Search.searches_return` says when searches for targets without variables return.  On a single
level they return exactly when every candidate that is *stuck* at a variable comes after one that
works.  A search on any number of levels returns if no statement of the theory has variables and,
below the first level, no constant in a premise of a rule is a variable of another: then the
premises that are searched for have no variables either.
-/

namespace Deduction

namespace Search

variable {T : Theory} {target : Formula} {rule : InferenceRule} {rules : List InferenceRule}
  {e : Error}

/-! ## Candidates that stop a search -/

namespace Completion

variable {c : Completion T target rule}

/-- A variable of the rule occurs in a premise that the candidate needs. -/
def Stuck (c : Completion T target rule) : Prop :=
  ∃ v ∈ rule.transformation.vars.elements, ∃ p ∈ c.premises.elements, p.contains v = true

theorem completes (c : Completion T target rule) :
    rule.transformation.Completes target T.validStatements c.complete := by
  refine ⟨c.bindings, c.matched, ?_⟩
  rw [assignments_eq_map_finRange]
  exact List.mem_map_of_mem c.mem_arrangements

theorem not_stuck_of_apply {conclusion : Formula}
    (h : rule.transformation.apply c.premises.elements = .ok conclusion) : ¬ c.Stuck := by
  rintro ⟨v, hv, p, hp, hoccurs⟩
  simp [Transformation.apply_absent h p hp v hv] at hoccurs

theorem not_stuck_of_outcome {o? : Option Outcome} (h : c.outcome = .ok o?) : ¬ c.Stuck := by
  obtain ⟨⟨⟩, -, h⟩ := Run.bind_eq_ok.mp h
  obtain ⟨conclusion, hconclusion, -⟩ := Run.bind_eq_ok.mp h
  exact not_stuck_of_apply hconclusion

theorem stuck_of_outcome (hrule : rule ∈ T.rules) (h : c.outcome = .error e) : c.Stuck := by
  have hall : AllGood (fun _ => True) T := fun _ _ => trivial
  have hensures : (tryCandidate (settled T) target rule c.complete).Ensures
      (fun o? => ∀ o ∈ o?, AllGood (fun _ => True) o.theory) fun _ => c.Stuck :=
    tryCandidate_ensures (settled_secures T) hrule trivial c.completes.keys_subset
      (fun p hp v hv hoccurs => ⟨v, hv, p, hp, hoccurs⟩) (settled_ensures hall _)
  exact hensures.error e h

end Completion

namespace Candidate

def Stuck (c : Candidate T target rules) : Prop := c.completion.Stuck

theorem Before.asymm {c d : Candidate T target rules} (h : c.Before d) : ¬ d.Before c := by
  rintro (hlt' | ⟨heq', hlt'⟩)
  · rcases h with hlt | ⟨heq, -⟩
    · exact lt_asymm hlt hlt'
    · exact absurd heq (ne_of_gt hlt')
  · rcases h with hlt | ⟨-, hlt⟩
    · exact absurd heq' (ne_of_gt hlt)
    · exact lt_asymm hlt hlt'

end Candidate

/-! ## Formulas without variables -/

/-- No variable of the rules occurs in the formula. -/
def VariableFree (rules : List InferenceRule) (φ : Formula) : Prop :=
  ∀ rule ∈ rules, ∀ v ∈ rule.transformation.vars.elements, φ.contains v = false

/-- A variable of some rule that occurs in a premise of another is a variable of that rule too. -/
def Apart (rules : List InferenceRule) : Prop :=
  ∀ rule ∈ rules, ∀ p ∈ rule.transformation.premises.elements, ∀ other ∈ rules,
    ∀ v ∈ other.transformation.vars.elements, p.contains v = true →
      v ∈ rule.transformation.vars.elements

instance (rules : List InferenceRule) (φ : Formula) : Decidable (VariableFree rules φ) :=
  inferInstanceAs (Decidable (∀ rule ∈ rules, _))

instance (rules : List InferenceRule) : Decidable (Apart rules) :=
  inferInstanceAs (Decidable (∀ rule ∈ rules, _))

theorem VariableFree.not_mem {φ v : Formula} (h : VariableFree rules φ) (hrule : rule ∈ rules)
    (hv : v ∈ rule.transformation.vars.elements) : v ∉ φ.preorder := by
  rw [← Formula.contains_iff_mem_preorder, h rule hrule v hv]
  exact Bool.false_ne_true

theorem VariableFree.exists_matchConclusion (h : VariableFree rules target)
    (hrule : rule ∈ rules) : ∃ b?, rule.transformation.matchConclusion target = .ok b? := by
  cases hmatch : rule.transformation.matchConclusion target with
  | ok b? => exact ⟨b?, rfl⟩
  | error e =>
    obtain ⟨v, hv, hoccurs, -⟩ := Transformation.matchConclusion_eq_error hmatch
    simp [h rule hrule v hv] at hoccurs

/-- If neither the target nor a statement has variables, a variable in a premise that is needed is a
constant of the premise. -/
theorem mem_premises_of_completes {pool : List Formula} {m : Map} {v q : Formula}
    {other : InferenceRule} (htarget : VariableFree rules target)
    (hpool : ∀ φ ∈ pool, VariableFree rules φ)
    (hm : rule.transformation.Completes target pool m) (hother : other ∈ rules)
    (hv : v ∈ other.transformation.vars.elements)
    (hq : q ∈ (rule.transformation.necessaryPremises m).elements) (hoccurs : q.contains v = true) :
    v ∉ rule.transformation.vars.elements ∧
      ∃ p ∈ rule.transformation.premises.elements, p.contains v = true := by
  have hatomic : v.IsAtomic := other.transformation.atomic v hv
  rw [Formula.contains_iff_mem_preorder] at hoccurs
  simp only [Formula.contains_iff_mem_preorder]
  rcases hm.occurs hatomic hq hoccurs with hconstant | hmem | ⟨φ, hφ, hmem⟩
  · exact hconstant
  · exact absurd hmem (htarget.not_mem hother hv)
  · exact absurd hmem ((hpool φ hφ).not_mem hother hv)

theorem Completion.not_stuck_of_variableFree (htarget : VariableFree T.rules target)
    (hT : ∀ φ ∈ T.validStatements, VariableFree T.rules φ) (hrule : rule ∈ T.rules)
    (c : Completion T target rule) : ¬ c.Stuck := by
  rintro ⟨v, hv, p, hp, hoccurs⟩
  exact (mem_premises_of_completes htarget hT c.completes hrule hv hp hoccurs).1 hv

theorem regime_variableFree (h : Apart rules) :
    Regime rules (VariableFree rules) fun _ => False where
  occurs rule hrule φ hφ v hv hoccurs := by simp [hφ rule hrule v hv] at hoccurs
  premises rule hrule target pool m htarget hpool hm q hq other hother v hv := by
    by_contra hoccurs
    obtain ⟨hnot, p, hp, hmem⟩ :=
      mem_premises_of_completes htarget hpool hm hother hv hq (by simpa using hoccurs)
    exact hnot (h rule hrule p hp other hother v hv hmem)

/-! ## A single level -/

/-- Trying the rules from valid premises comes to an end exactly when every candidate that is stuck
comes after one that works. -/
theorem applyRules_returns_iff (htarget : VariableFree T.rules target) :
    (∃ o?, (applyRules (settled T) T target).result = .ok o?) ↔
      ∀ c : Candidate T target T.rules, c.Stuck →
        ∃ d : Candidate T target T.rules, d.Works ∧ d.Before c := by
  constructor
  · rintro ⟨o?, h⟩ c hstuck
    cases o? with
    | none =>
      exact absurd hstuck (Completion.not_stuck_of_outcome (firstSome_applyRule_eq_none h c))
    | some o =>
      obtain ⟨d, hd, hfirst⟩ := firstSome_applyRule_stops (by simp) (by simp) h
      obtain ⟨hworks, -⟩ := Completion.outcome_eq_some hd
      rcases hfirst c with rfl | hlater | hnone
      · exact absurd hstuck (Completion.not_stuck_of_apply hworks.concludes)
      · exact ⟨d, hworks, hlater⟩
      · exact absurd hstuck (Completion.not_stuck_of_outcome hnone)
  · intro h
    cases hresult : (applyRules (settled T) T target).result with
    | ok o? => exact ⟨o?, rfl⟩
    | error e =>
      -- The candidate that stops the search would be stuck, so one that works came before it.
      obtain ⟨c, hc, hfirst⟩ := firstSome_applyRule_stops (by simp)
        (fun _ _ rule hrule => htarget.exists_matchConclusion hrule) hresult
      have hstuck : c.Stuck := Completion.stuck_of_outcome (List.get_mem _ _) hc
      obtain ⟨d, hworks, hbefore⟩ := h c hstuck
      rcases hfirst d with rfl | hlater | hnone
      · exact absurd hstuck (Completion.not_stuck_of_apply hworks.concludes)
      · exact absurd hbefore hlater.asymm
      · exact absurd hworks (Completion.not_works hnone)

theorem exists_ok_of_isValid {next : Run Outcome} (hvalid : T.IsValid target) :
    ∃ o, ((lookUp T target).orElse next).result = .ok o := by
  cases hd : T.justification? target with
  | none => exact absurd hvalid (Theory.justification?_eq_none.mp hd)
  | some d =>
    rw [lookUp, hd]
    exact ⟨.found T d, rfl⟩

theorem exists_ok_map_iff {x : Except Error (Option Outcome)} :
    (∃ o, x.map (·.getD (.failure T)) = .ok o) ↔ ∃ o?, x = .ok o? := by
  cases x <;> simp [Except.map]

theorem shallow_returns_iff (htarget : VariableFree T.rules target) {run : Run Outcome}
    (hrun : run ∈ [singleLevel T target, recursive T target 0, recursive T target 1]) :
    (∃ o, run.result = .ok o) ↔
      T.IsValid target ∨ ∀ c : Candidate T target T.rules, c.Stuck →
        ∃ d : Candidate T target T.rules, d.Works ∧ d.Before c := by
  simp only [List.mem_cons, List.not_mem_nil, or_false] at hrun
  by_cases hvalid : T.IsValid target
  · refine ⟨fun _ => .inl hvalid, fun _ => ?_⟩
    rcases hrun with rfl | rfl | rfl <;> exact exists_ok_of_isValid hvalid
  · have hresult : run.result =
        (applyRules (settled T) T target).result.map (·.getD (.failure T)) := by
      rcases hrun with rfl | rfl | rfl <;>
        exact (result_lookUp_orElse hvalid).trans (result_attempt rfl)
    rw [hresult, exists_ok_map_iff, applyRules_returns_iff htarget, or_iff_right hvalid]

/-- Searches for a target without variables.  On a single level they return exactly when the target
is valid or every candidate that is stuck comes after one that works.  If no statement of the theory
has variables, they return; a recursive search that goes below its first level also needs that no
constant in a premise of a rule is a variable of another. -/
theorem searches_return {T : Theory} {target : Formula} (htarget : VariableFree T.rules target) :
    (∀ run ∈ [singleLevel T target, recursive T target 0, recursive T target 1],
      (∃ o, run.result = .ok o) ↔
        T.IsValid target ∨ ∀ c : Candidate T target T.rules, c.Stuck →
          ∃ d : Candidate T target T.rules, d.Works ∧ d.Before c) ∧
    ((∀ φ ∈ T.validStatements, VariableFree T.rules φ) →
      (∃ o, (singleLevel T target).result = .ok o) ∧
        ∀ depth, (2 ≤ depth → Apart T.rules) → ∃ o, (recursive T target depth).result = .ok o) := by
  refine ⟨fun run hrun => shallow_returns_iff htarget hrun, fun hT => ?_⟩
  have hreturns : ∀ run ∈ [singleLevel T target, recursive T target 0, recursive T target 1],
      ∃ o, run.result = .ok o := by
    intro run hrun
    refine (shallow_returns_iff htarget hrun).mpr (.inr fun c hstuck => ?_)
    exact absurd hstuck
      (Completion.not_stuck_of_variableFree htarget hT (List.get_mem _ _) c.completion)
  refine ⟨hreturns _ (by simp), fun depth hapart => ?_⟩
  match depth, hapart with
  | 0, _ => exact hreturns _ (by simp)
  | 1, _ => exact hreturns _ (by simp)
  | n + 2, hapart =>
    have hregime := regime_variableFree (hapart (by omega))
    obtain ⟨o, ho, -⟩ := (step_ensures hregime hT htarget List.not_mem_nil).exists_ok
    exact ⟨o, ho⟩

open Propositional in
theorem searches_return_joined :
    VariableFree axiomatization.theory.rules (both (both p q) r) ∧
      (∀ φ ∈ axiomatization.theory.validStatements, VariableFree axiomatization.theory.rules φ) ∧
      Apart axiomatization.theory.rules ∧
      (∃ o, (singleLevel axiomatization.theory (both (both p q) r)).result = .ok o) ∧
      ∃ o, (recursive axiomatization.theory (both (both p q) r) 3).result = .ok o := by
  have htarget : VariableFree axiomatization.theory.rules (both (both p q) r) := by decide
  have hT : ∀ φ ∈ axiomatization.theory.validStatements,
      VariableFree axiomatization.theory.rules φ := by decide
  have hapart : Apart axiomatization.theory.rules := by decide
  obtain ⟨hsingle, hrecursive⟩ := (searches_return htarget).2 hT
  exact ⟨htarget, hT, hapart, hsingle, hrecursive 3 fun _ => hapart⟩

open Propositional in
/-- That the target has no variables is not enough.  In the first theory a variable is an axiom, and
the search stops at the premise that is built with it.  In the second theory no statement has
variables, but the premise of one rule has the variable of the other, and a search for that premise
stops. -/
theorem searches_stopped_by_variables :
    (VariableFree openAxiom.theory.rules p ∧
      (singleLevel openAxiom.theory p).result = .error (occurrence x (implies x p))) ∧
    (VariableFree crossed.theory.rules q ∧
      (∀ φ ∈ crossed.theory.validStatements, VariableFree crossed.theory.rules φ) ∧
      (recursive crossed.theory q 2).result = .error (occurrence r (both r q))) :=
  ⟨⟨by decide, rfl⟩, by decide, by decide, rfl⟩

end Search

end Deduction
