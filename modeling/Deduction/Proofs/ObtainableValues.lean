import Deduction.Proofs.Operations

/-!
# What operations lead to

Values are made by operations from other values, in any order and any number.  Some operations check
the number of terms and some do not, formulas can be made by hand under the connectives of objects,
and objects can be read from formulas.  Still, every formula that can be obtained in this way is
well formed, and these are all (`obtainable_iff`).

An object is obtained as the formula that stands for it, and so are the formulas that an error
names.  Which nodes the formulas have does not matter here.
-/

namespace Deduction

open HasFormulas (formulas)
open HasShares (shares)

/-- The formula is a result of operations that are applied to nothing but such results.
Substitution calls back for the images of subformulas, and searches with a strategy of one's own for
outcomes; these have to be such results too. -/
inductive Obtainable : Formula → Prop
  | result {A B : Type} [HasFormulas A] [HasShares A] [HasFormulas B] [HasShares B]
      {F : A → Supply B} {a : A} {φ : Formula} (operation : Shared.Operation F)
      (arguments : ∀ ψ ∈ formulas a, Obtainable ψ) (next : Nat)
      (mem : φ ∈ formulas ((F a).run next).1) : Obtainable φ
  | replace {φ : Formula} {image : Lookup} (formula : Obtainable φ)
      (images : ∀ χ ∈ φ.preorder, ∀ ψ, image χ = some ψ → Obtainable ψ) :
      Obtainable (φ.replace image)
  | search {strategy : Theory → Formula → Run Outcome} {T : Theory} {targets : List Formula}
      {φ : Formula} (arguments : ∀ ψ ∈ formulas (T, targets), Obtainable ψ)
      (outcomes : ∀ S target, ∀ ψ ∈ formulas (strategy S target), Obtainable ψ)
      (mem : φ ∈ formulas (Search.sequence strategy T targets)) : Obtainable φ

/-- The formulas that can be obtained are the well-formed ones.  Applying connectives is enough to
obtain them, and no other operation adds to them. -/
theorem obtainable_iff {φ : Formula} : Obtainable φ ↔ φ.WellFormed := by
  constructor
  · intro h
    induction h with
    | result operation _ next mem ih => exact operation.proper ih next _ mem
    | replace _ _ ih ihimages => exact Formula.replace_wellFormed ih ihimages
    | search _ _ mem iharguments ihoutcomes =>
      obtain ⟨hT, htargets⟩ := proper_prod.mp iharguments
      exact Search.sequence_proper (fun S target _ _ => ihoutcomes S target) hT htargets _ mem
  · intro h
    induction h with
    | @node c ts arity terms ih =>
      -- Any nodes will do for the terms.
      let xs : List (Shared Formula) := ts.map fun t => ⟨t, .bare (.mk 0 c [])⟩
      have hvalues : Shared.values xs = ts := by
        simp [xs, Shared.values, Function.comp_def]
      have happly : c.apply (Shared.values xs) = .ok (.node c ts) :=
        Connective.apply_eq_ok.mpr (hvalues.symm ▸ ⟨arity, rfl⟩)
      refine .result (a := xs) (.apply c) (fun ψ hψ => ?_) 0 ?_
      · obtain ⟨x, hx, hψ⟩ := List.mem_flatMap.mp hψ
        obtain ⟨t, ht, rfl⟩ := List.mem_map.mp hx
        exact List.mem_singleton.mp hψ ▸ ih t ht
      · rw [Shared.apply, happly]
        exact List.mem_singleton_self _

end Deduction
