import Deduction.Proofs.Propositional
import Deduction.Proofs.Theories

/-!
# Valid statements are derivable

A statement is derivable in a theory when it is reached from its axioms by its rules; the theorems
of the theory play no part in that.  `Theory.derivable_of_isValid` says that they add nothing: what
a theory takes to be valid is derivable in it.

The theory records of each theorem only what it cites.  A citation leads to a derivation that stands
strictly earlier, so no chain of citations returns to where it started, and the proof is an
induction on positions.  How the theory came about is not asked: every operation that returns a
theory returns an accepted list of derivations, and nothing else is used of it.
-/

namespace Deduction

namespace Theory

/-- The formulas that are reached from the axioms of the theory by its rules. -/
inductive Derivable (T : Theory) : Formula → Prop where
  | ofAxiom {a : Axiom} (ha : a ∈ T.axioms) : Derivable T a.statement
  | ofRule {rule : InferenceRule} {premises : List Formula} {conclusion : Formula}
      (hrule : rule ∈ T.rules) (hpremises : ∀ p ∈ premises, Derivable T p)
      (hconclusion : rule.transformation.apply premises = .ok conclusion) :
      Derivable T conclusion

/-- A theorem is derivable when what it cites is. -/
theorem derivable_of_cites {T : Theory} {earlier : List Derivation} {t : Theorem}
    (hcites : Cites earlier t) (hsub : earlier ⊆ T.derivations)
    (hearlier : ∀ d ∈ earlier, ∀ φ, d.statement? = some φ → T.Derivable φ) :
    T.Derivable t.statement := by
  have hpremises : ∀ p ∈ t.inference.premises.elements, T.Derivable p := by
    intro p hp
    obtain ⟨d, hd, hstated⟩ := hcites.premises p hp
    exact hearlier d hd p hstated
  have hrule : t.inference.rule ∈ T.rules := mem_rules.mpr (hsub hcites.rule)
  exact .ofRule hrule hpremises t.derives

theorem derivable_at {T : Theory} (i : Nat) {d : Derivation} {φ : Formula}
    (hd : T.derivations[i]? = some d) (hφ : d.statement? = some φ) : T.Derivable φ := by
  -- The induction is on the position: what a theorem cites stands earlier.
  induction i using Nat.strongRecOn generalizing d φ with
  | ind i ih =>
    cases d with
    | stated a =>
      obtain rfl := Option.some.inj hφ
      exact .ofAxiom (mem_axioms.mpr (List.mem_of_getElem? hd))
    | rule r => simp [Derivation.statement?] at hφ
    | proved t =>
      obtain rfl := Option.some.inj hφ
      apply derivable_of_cites (T.accepted.cites i t hd) (List.take_subset i _)
      intro e he ψ hψ
      obtain ⟨j, hj, he⟩ := exists_lt_of_mem_take he
      exact ih j hj he hψ

/-- Every statement that is valid in a theory is derivable in it. -/
theorem derivable_of_isValid {T : Theory} {φ : Formula} (h : T.IsValid φ) : T.Derivable φ := by
  obtain ⟨d, hd, hφ⟩ := isValid_iff.mp h
  obtain ⟨i, hi⟩ := List.mem_iff_getElem?.mp hd
  exact derivable_at i hi hφ

open Propositional in
/-- A theorem that cites a theorem states something derivable. -/
theorem derivable_joined :
    developed.IsValid joined.statement ∧ developed.Derivable joined.statement :=
  ⟨by decide, derivable_of_isValid (by decide)⟩

end Theory

end Deduction
