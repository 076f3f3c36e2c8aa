import Deduction.Proofs.RuleApplication

/-!
# Rules read backwards and forwards again

A search reads a rule backwards: it matches the target against the conclusion, assigns formulas to
the variables that this leaves free, and looks at the premises that result.  Then it reads the rule
forwards from these premises and goes on only if the target comes out again.  This file says when it
does (`Transformation.apply_recovers`).

The forward reading always draws a conclusion, as long as what is assigned holds no variable of the
rule.  Its bindings are then among those of the backward reading, but it has bindings for the
variables of the premises only.  So the target comes out if the conclusion has no other variables;
and if it has one, that variable stays in what comes out, while the target holds none.  Whether the
target is recovered therefore depends on the rule alone and not on what is assigned.
-/

namespace Deduction

namespace Transformation

variable {t : Transformation} {target : Formula} {b m n : Map}

/-- The map binds as the bindings do and sends the variables that they leave free, and nothing else,
to formulas without variables. -/
structure Grounds (t : Transformation) (b m : Map) : Prop where
  keys : t.BindsFree b m
  agrees : b.AgreesWith m
  clear : ∀ v ∈ t.freeVariables b, ∃ φ, m.get? v = some φ ∧ t.Clear φ

/-- Every variable that occurs in the conclusion occurs in a premise. -/
def Covered (t : Transformation) : Prop :=
  ∀ v ∈ t.vars.elements, t.conclusion.contains v = true →
    ∃ p ∈ t.premises.elements, p.contains v = true

instance (t : Transformation) : Decidable t.Covered :=
  inferInstanceAs (Decidable (∀ _ ∈ _, _ → ∃ _ ∈ _, _))

/-! ## The premises hold no variables -/

theorem clear_iff {φ : Formula} : t.Clear φ ↔ ∀ v ∈ t.vars.elements, v ∉ φ.preorder := by
  simp only [Clear, Formula.contains_eq_false_iff]

theorem clear_of_matchConclusion {result : Option Map}
    (h : t.matchConclusion target = .ok result) : t.Clear target := fun v hv =>
  ((Formula.matchPattern_eq_ok.mp h).1 v hv).2

/-- What is bound holds no variables, be it a part of the target or assigned. -/
theorem Grounds.clear_image (h : t.Grounds b m) (hmatch : t.matchConclusion target = .ok (some b))
    {pair : Formula × Formula} (hpair : pair ∈ m.pairs) : t.Clear pair.2 := by
  have hget : m.get? pair.1 = some pair.2 := Map.get?_eq_some.mpr hpair
  rcases (h.keys pair.1).mp (Map.mem_keys_of_get? hget) with hbound | hfree
  · have hb : pair ∈ b.pairs := Map.get?_eq_some.mp ((h.agrees pair.1 hbound).symm.trans hget)
    have htarget := clear_iff.mp (clear_of_matchConclusion hmatch)
    exact clear_iff.mpr fun v hv hoccurs =>
      htarget v hv (preorder_image_matchConclusion hmatch hb hoccurs)
  · obtain ⟨φ, hφ, hclear⟩ := h.clear pair.1 hfree
    obtain rfl : φ = pair.2 := Option.some.inj (hφ.symm.trans hget)
    exact hclear

theorem Grounds.clear_necessaryPremises (h : t.Grounds b m)
    (hmatch : t.matchConclusion target = .ok (some b)) :
    ∀ q ∈ (t.necessaryPremises m).elements, t.Clear q := by
  intro q hq
  rw [clear_iff]
  intro v hv hoccurs
  rcases h.keys.occurs (t.atomic v hv) hq hoccurs with ⟨hnot, -⟩ | ⟨pair, hpair, himage⟩
  · exact hnot hv
  · exact clear_iff.mp (h.clear_image hmatch hpair) v hv himage

/-- The premises are matched, with bindings that the backward reading has. -/
theorem Grounds.exists_solve (h : t.Grounds b m)
    (hmatch : t.matchConclusion target = .ok (some b)) :
    ∃ n, solve t.vars.elements t.premises.elements (t.necessaryPremises m).elements .empty =
      .ok (some n) ∧ n.pairs ⊆ m.pairs := by
  have hempty : Map.empty.pairs ⊆ m.pairs := by simp
  rcases solve_instance t.atomic (h.keys.keys_subset hmatch) t.premises.elements hempty with
    ⟨v, hv, p, hp, hoccurs, -⟩ | hsolved
  · have hclear := h.clear_necessaryPremises hmatch _ (List.mem_map_of_mem hp) v hv
    simp [hclear] at hoccurs
  · exact hsolved

/-! ## What comes out -/

/-- With all of its bindings, the backward reading turns the conclusion into the target. -/
theorem Grounds.substitute_conclusion (h : t.Grounds b m)
    (hmatch : t.matchConclusion target = .ok (some b)) : t.conclusion.substitute m = target := by
  have htarget : t.conclusion.substitute b = target := by
    simpa using (matchConclusion_binds hmatch).instantiates
  rw [← htarget]
  apply Formula.substitute_of_subset (Map.agreesWith_iff.mp h.agrees)
  intro χ hχ hkey
  exact (mem_keys_matchConclusion hmatch).mpr ⟨hχ, h.keys.keys_subset hmatch hkey⟩

/-- If the conclusion has no other variables than the premises, their bindings are all that
matters to it. -/
theorem Covered.substitute_conclusion (h : t.Covered)
    (hn : ∀ key, key ∈ n.keys ↔ key ∈ t.freeVariables .empty) (hsub : n.pairs ⊆ m.pairs)
    (hm : m.keys ⊆ t.vars.elements) : t.conclusion.substitute n = t.conclusion.substitute m := by
  symm
  apply Formula.substitute_of_subset hsub
  intro χ hχ hkey
  obtain ⟨p, hp, hoccurs⟩ := h χ (hm hkey) (Formula.contains_iff_mem_preorder.mpr hχ)
  rw [hn, mem_freeVariables]
  exact ⟨hm hkey, by simp, p, hp,
    Formula.contains_iff_mem_preorder.mp hoccurs⟩

/-- If the conclusion comes out without variables, the premises have all variables of the
conclusion: one that they do not have would stay. -/
theorem covered_of_clear (hn : ∀ key, key ∈ n.keys ↔ key ∈ t.freeVariables .empty)
    (hclear : t.Clear (t.conclusion.substitute n)) : t.Covered := by
  intro v hv hoccurs
  have hatomic : ∀ key ∈ n.keys, key.IsAtomic := fun key hkey =>
    t.atomic key (mem_freeVariables.mp ((hn key).mp hkey)).1
  have hbound : v ∈ n.keys := by
    by_contra hfree
    exact clear_iff.mp hclear v hv (Formula.mem_preorder_substitute_of_notMem hatomic
      (t.atomic v hv) hfree (Formula.contains_iff_mem_preorder.mp hoccurs))
  obtain ⟨-, -, p, hp, hpremise⟩ := mem_freeVariables.mp ((hn v).mp hbound)
  exact ⟨p, hp, Formula.contains_iff_mem_preorder.mpr hpremise⟩

/-- Backward and forward reading agree.  Let the target match the conclusion, and let the variables
that the match leaves free be sent to formulas without variables.  Then the transformation draws a
conclusion from the premises under these bindings, and it is the target exactly when every variable
that occurs in the transformation's conclusion occurs in a premise. -/
theorem apply_recovers {t : Transformation} {target : Formula} {b m : Map}
    (hmatch : t.matchConclusion target = .ok (some b)) (hm : t.Grounds b m) :
    ∃ c, t.apply (t.necessaryPremises m).elements = .ok c ∧ (c = target ↔ t.Covered) := by
  obtain ⟨n, hsolve, hsub⟩ := hm.exists_solve hmatch
  have hlength : (t.necessaryPremises m).elements.length = t.premises.elements.length := by
    simp [necessaryPremises]
  have hn := mem_keys_solve hlength hsolve
  refine ⟨t.conclusion.substitute n, apply_eq_ok.mpr ⟨hlength, n, hsolve, rfl⟩, ?_, ?_⟩
  · rintro rfl
    exact covered_of_clear hn (clear_of_matchConclusion hmatch)
  · intro hcovered
    rw [hcovered.substitute_conclusion hn hsub (hm.keys.keys_subset hmatch),
      hm.substitute_conclusion hmatch]

open Propositional in
/-- Detachment leaves a variable free, which may be bound before or after the other one, and gives
the target back.  Weakening binds both variables backwards and only one of them forwards. -/
theorem apply_recovers_propositional :
    (detachment.transformation.matchConclusion q = .ok (some (Map.empty.withPair y q)) ∧
      detachment.transformation.Grounds (Map.empty.withPair y q)
        ((Map.empty.withPair x p).withPair y q) ∧
      detachment.transformation.apply [implies p q, p] = .ok q) ∧
    weakening.transformation.matchConclusion (both p p) =
        .ok (some ((Map.empty.withPair x p).withPair y p)) ∧
      weakening.transformation.Grounds ((Map.empty.withPair x p).withPair y p)
        ((Map.empty.withPair x p).withPair y p) ∧
      ∃ c, weakening.transformation.apply [p, p] = .ok c ∧ c ≠ both p p := by
  have hdetached : detachment.transformation.matchConclusion q =
      .ok (some (Map.empty.withPair y q)) := by decide
  have hweakened : weakening.transformation.matchConclusion (both p p) =
      .ok (some ((Map.empty.withPair x p).withPair y p)) := by decide
  have hfree : detachment.transformation.freeVariables (Map.empty.withPair y q) = [x] := by decide
  have hnone : weakening.transformation.freeVariables ((Map.empty.withPair x p).withPair y p) =
      [] := by decide
  have hgrounds : detachment.transformation.Grounds (Map.empty.withPair y q)
      ((Map.empty.withPair x p).withPair y q) := {
    keys := fun key => by
      rw [Map.mem_keys_withPair, Map.mem_keys_withPair, Map.mem_keys_withPair, hfree,
        List.mem_singleton, or_right_comm]
    agrees := by unfold Map.AgreesWith; decide
    clear := by
      rw [hfree, List.forall_mem_singleton]
      exact ⟨p, by decide, by unfold Clear; decide⟩ }
  have hgrounds' : weakening.transformation.Grounds ((Map.empty.withPair x p).withPair y p)
      ((Map.empty.withPair x p).withPair y p) := {
    keys := fun key => by simp [hnone]
    agrees := fun _ _ => rfl
    clear := by simp [hnone] }
  refine ⟨⟨hdetached, hgrounds, ?_⟩, hweakened, hgrounds', ?_⟩
  · obtain ⟨c, hc, hiff⟩ := apply_recovers hdetached hgrounds
    obtain rfl := hiff.mpr (by decide)
    exact hc
  · obtain ⟨c, hc, hiff⟩ := apply_recovers hweakened hgrounds'
    exact ⟨c, hc, mt hiff.mp (by decide)⟩

end Transformation

end Deduction
