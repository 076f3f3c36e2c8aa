import Deduction.Proofs.Assignments
import Deduction.Proofs.Propositional
import Deduction.Proofs.RelabeledTheories
import Deduction.Proofs.Renamings
import Deduction.Proofs.SearchInversion

/-!
# Relabeling searches

The image of a run is taken in its result and in its signals.  A search for the relabeled target in
the relabeled theory is then the image of the search for the target in the theory: the same rules
and the same candidates are tried in the same order, and it ends in the same way.
-/

namespace Deduction

variable {ρ : Relabeling}

/-! ## Runs -/

/-- The outcome with the relabeled theory and derivations. -/
@[simps] def Outcome.relabel (ρ : Relabeling) (o : Outcome) : Outcome where
  theory := o.theory.relabel ρ
  derivations := o.derivations.map (·.relabel ρ)
  success := o.success

/-- The call for the relabeled target. -/
def Call.relabel (ρ : Relabeling) (c : Call) : Call where
  theory := c.theory.relabel ρ
  target := c.target.relabel ρ
  depth := c.depth

/-- The event with everything in it relabeled. -/
def Event.relabel (ρ : Relabeling) : Event → Event
  | exact d => exact (d.relabel ρ)
  | candidate rule premises => candidate (rule.relabel ρ) (premises.relabel ρ)
  | derived t => derived (t.relabel ρ)
  | extended d => extended (d.relabel ρ)
  | failed rule? => failed (rule?.map (·.relabel ρ))
  | exhausted => exhausted

/-- The signal with everything in it relabeled. -/
def Signal.relabel (ρ : Relabeling) : Signal → Signal
  | enter call => enter (call.relabel ρ)
  | leave => leave
  | note event => note (event.relabel ρ)

namespace Run

variable {α β γ δ : Type}

/-- The image of a run, whose value is sent on by `f` and whose error and signals are relabeled. -/
@[simps] def relabel (ρ : Relabeling) (f : α → β) (r : Run α) : Run β where
  result := mapResult (·.relabel ρ) f r.result
  signals := r.signals.map (·.relabel ρ)

theorem relabel_pure (f : α → β) (a : α) : (pure a : Run α).relabel ρ f = pure (f a) := rfl

theorem lift_mapResult (f : α → β) (x : Except SyntaxError α) :
    (liftM (mapResult (·.relabel ρ) f x) : Except Error β) =
      mapResult (·.relabel ρ) f (liftM x : Except Error α) := by
  cases x <;> rfl

theorem relabel_within (f : α → β) (call : Call) (r : Run α) :
    (within call r).relabel ρ f = within (call.relabel ρ) (r.relabel ρ f) := by
  simp [within, relabel, Signal.relabel]

/-- To go on with the image of a run is to take the image of what the run goes on with. -/
theorem relabel_bind {f : α → β} {g : γ → δ} {r : Run α} {k : α → Run γ} {k' : β → Run δ}
    (hk : ∀ a, k' (f a) = (k a).relabel ρ g) :
    r.relabel ρ f >>= k' = (r >>= k).relabel ρ g := by
  ext1
  · simp only [result_bind, relabel_result]
    exact mapResult_bind fun a => congrArg result (hk a)
  · simp only [signals_bind, relabel_signals, relabel_result, List.map_append]
    cases r.result with
    | error e => rfl
    | ok a => simp [hk a]

theorem firstSome_relabel {f : α → β} {g : γ → δ} {k : α → Run (Option γ)}
    {k' : β → Run (Option δ)} (hk : ∀ a, k' (f a) = (k a).relabel ρ (Option.map g)) (xs : List α) :
    firstSome k' (xs.map f) = (firstSome k xs).relabel ρ (Option.map g) := by
  induction xs with
  | nil => rfl
  | cons x xs ih =>
    rw [List.map_cons, firstSome, firstSome, hk]
    apply relabel_bind
    rintro (_ | b)
    · exact ih
    · rfl

end Run

/-! ## Deriving by hand -/

theorem Theory.extending_relabel (T : Theory) (ds : List Derivation) :
    (T.relabel ρ).extending (ds.map (·.relabel ρ)) = (T.extending ds).relabel ρ (·.relabel ρ) := by
  simp [extending, Run.relabel, extend_relabel, newIn_relabel, Function.comp_def, Signal.relabel,
    Event.relabel]

/-- Deriving the relabeled conjecture is the image of deriving the conjecture. -/
theorem Theory.derive_relabel (T : Theory) (conjecture : Formula) (premises : Sequence)
    (rule : InferenceRule) :
    (T.relabel ρ).derive (conjecture.relabel ρ) (premises.relabel ρ) (rule.relabel ρ) =
      (T.derive conjecture premises rule).relabel ρ (Prod.map (·.relabel ρ) (·.relabel ρ)) := by
  have hfind : ((premises.relabel ρ).elements.find? fun p => ¬ (T.relabel ρ).IsValid p) =
      (premises.elements.find? fun p => ¬ T.IsValid p).map (·.relabel ρ) := by
    simp only [Sequence.relabel_elements, List.find?_map, Function.comp_def, isValid_relabel]
  rw [derive, derive, hfind]
  cases premises.elements.find? fun p => ¬ T.IsValid p with
  | some p => rfl
  | none =>
    have hinference : Theorem.ofInference (conjecture.relabel ρ)
        ⟨rule.relabel ρ, premises.relabel ρ⟩ = mapResult (·.relabel ρ) (·.relabel ρ)
          (Theorem.ofInference conjecture ⟨rule, premises⟩) :=
      Theorem.ofInference_relabel conjecture ⟨rule, premises⟩
    simp only [Option.map_none, hinference]
    refine Run.relabel_bind (r := liftM (Theorem.ofInference conjecture ⟨rule, premises⟩))
      fun t => ?_
    have hextending := @Theory.extending_relabel ρ T [.proved t]
    rw [List.map_singleton, Derivation.relabel_proved] at hextending
    rw [hextending]
    refine Run.relabel_bind fun S => ?_
    rfl

/-! ## Candidates -/

theorem assignments_relabel (vs pool : List Formula) (m : Map) :
    assignments (vs.map (·.relabel ρ)) (pool.map (·.relabel ρ)) (m.relabel ρ) =
      (assignments vs pool m).map (·.relabel ρ) := by
  induction vs generalizing pool m with
  | nil => rfl
  | cons v vs ih =>
    simp [assignments, picks_map, List.flatMap_map, List.map_flatMap, ih]

theorem firstAssignment_relabel {α β : Type} {g : α → β} {k : Map → Run (Option α)}
    {k' : Map → Run (Option β)} (hk : ∀ m : Map, k' (m.relabel ρ) = (k m).relabel ρ (Option.map g))
    (vs pool : List Formula) (m : Map) :
    firstAssignment k' (vs.map (·.relabel ρ)) (pool.map (·.relabel ρ)) (m.relabel ρ) =
      (firstAssignment k vs pool m).relabel ρ (Option.map g) := by
  rw [firstAssignment_eq_firstSome, firstAssignment_eq_firstSome, assignments_relabel]
  exact Run.firstSome_relabel hk _

namespace Search

/-- The second way to settle premises is the image of the first. -/
def SettlesAlike (ρ : Relabeling) (settle settle' : List Formula → Run (Option Theory)) : Prop :=
  ∀ premises : List Formula,
    settle' (premises.map (·.relabel ρ)) = (settle premises).relabel ρ (Option.map (·.relabel ρ))

variable {settle settle' : List Formula → Run (Option Theory)}

theorem tryCandidate_relabel (hsettle : SettlesAlike ρ settle settle') (target : Formula)
    (rule : InferenceRule) (m : Map) :
    tryCandidate settle' (target.relabel ρ) (rule.relabel ρ) (m.relabel ρ) =
      (tryCandidate settle target rule m).relabel ρ (Option.map (·.relabel ρ)) := by
  let premises := rule.transformation.necessaryPremises m
  have hpremises : (rule.relabel ρ).transformation.necessaryPremises (m.relabel ρ) =
      premises.relabel ρ := Transformation.necessaryPremises_relabel _ m
  have happly : (rule.relabel ρ).transformation.apply (premises.relabel ρ).elements =
      mapResult (·.relabel ρ) (·.relabel ρ) (rule.transformation.apply premises.elements) :=
    Transformation.apply_relabel _ _
  unfold tryCandidate
  rw [hpremises]
  refine Run.relabel_bind (f := id) (r := Run.note (.candidate rule premises)) fun _ => ?_
  simp only [happly]
  -- The image of a lifted result is a lifted result, so the run has to be named.
  refine Run.relabel_bind (r := liftM (rule.transformation.apply premises.elements))
    fun conclusion => ?_
  by_cases hconclusion : conclusion = target
  · simp only [hconclusion, ne_eq, not_true_eq_false, if_false]
    rw [Sequence.relabel_elements, hsettle]
    refine Run.relabel_bind ?_
    rintro (_ | T)
    · rfl
    · simp only [Option.map_some, Theory.derive_relabel]
      exact Run.relabel_bind fun _ => rfl
  · simp [hconclusion, Run.relabel_pure]

theorem applyRule_relabel (hsettle : SettlesAlike ρ settle settle') (T : Theory) (target : Formula)
    (rule : InferenceRule) :
    applyRule settle' (T.relabel ρ) (target.relabel ρ) (rule.relabel ρ) =
      (applyRule settle T target rule).relabel ρ (Option.map (·.relabel ρ)) := by
  unfold applyRule
  rw [InferenceRule.relabel_transformation, Transformation.matchConclusion_relabel,
    Run.lift_mapResult]
  refine Run.relabel_bind (r := liftM (liftM (rule.transformation.matchConclusion target)
    : Except Error (Option Map))) ?_
  rintro (_ | m)
  · rfl
  · simp only [Option.map_some, Transformation.freeVariables_relabel,
      Theory.validStatements_relabel]
    exact firstAssignment_relabel (tryCandidate_relabel hsettle target rule) _ _ m

theorem applyRules_relabel (hsettle : SettlesAlike ρ settle settle') (T : Theory)
    (target : Formula) :
    applyRules settle' (T.relabel ρ) (target.relabel ρ) =
      (applyRules settle T target).relabel ρ (Option.map (·.relabel ρ)) := by
  rw [applyRules, applyRules, Theory.rules_relabel]
  exact Run.firstSome_relabel (applyRule_relabel hsettle T target) T.rules

theorem settled_relabel (T : Theory) : SettlesAlike ρ (settled T) (settled (T.relabel ρ)) := by
  intro premises
  have hall : (premises.map (·.relabel ρ)).all ((T.relabel ρ).IsValid ·) =
      premises.all (T.IsValid ·) := by
    simp [List.all_map, Function.comp_def, Theory.isValid_relabel]
  rw [settled, settled, hall, Run.relabel_pure]
  cases premises.all (T.IsValid ·) <;> rfl

/-! ## Levels -/

theorem lookUp_relabel (T : Theory) (target : Formula) :
    lookUp (T.relabel ρ) (target.relabel ρ) =
      (lookUp T target).relabel ρ (Option.map (·.relabel ρ)) := by
  rw [lookUp, lookUp, Theory.justification?_relabel]
  cases T.justification? target with
  | none => rfl
  | some d => rfl

theorem establish_relabel {search search' : Theory → Formula → Run Outcome}
    (hsearch : ∀ (T : Theory) (target : Formula),
      search' (T.relabel ρ) (target.relabel ρ) = (search T target).relabel ρ (·.relabel ρ))
    (excluded : List Formula) (T : Theory) :
    SettlesAlike ρ (establish search excluded T)
      (establish search' (excluded.map (·.relabel ρ)) (T.relabel ρ)) := by
  intro premises
  induction premises generalizing T with
  | nil => rfl
  | cons p ps ih =>
    simp only [List.map_cons, establish, Theory.isValid_relabel, Formula.mem_map_relabel]
    by_cases hvalid : T.IsValid p
    · simp only [hvalid, if_true]
      exact ih T
    · by_cases hexcluded : p ∈ excluded
      · simp only [hvalid, hexcluded, if_true, if_false]
        rfl
      · simp only [hvalid, hexcluded, if_false, hsearch]
        refine Run.relabel_bind fun outcome => ?_
        rw [Outcome.relabel_success, Outcome.relabel_theory]
        by_cases hsuccess : outcome.success = true
        · simp only [hsuccess, if_true]
          exact ih outcome.theory
        · simp only [hsuccess]
          rfl

theorem orElse_relabel {attempt attempt' : Run (Option Outcome)} {next next' : Run Outcome}
    (hattempt : attempt' = attempt.relabel ρ (Option.map (·.relabel ρ)))
    (hnext : next' = next.relabel ρ (·.relabel ρ)) :
    attempt'.orElse next' = (attempt.orElse next).relabel ρ (·.relabel ρ) := by
  rw [hattempt]
  refine Run.relabel_bind ?_
  rintro (_ | outcome)
  · exact hnext
  · rfl

theorem level_relabel (depth : Nat) {deeper? deeper?' : Option (List Formula → Run (Option Theory))}
    (hdeeper : Option.Rel (SettlesAlike ρ) deeper? deeper?') (T : Theory) (target : Formula) :
    level depth deeper?' (T.relabel ρ) (target.relabel ρ) =
      (level depth deeper? T target).relabel ρ (·.relabel ρ) := by
  have happly := applyRules_relabel (@settled_relabel ρ T) T target
  unfold level
  rw [Run.relabel_within]
  refine congrArg (Run.within _) (orElse_relabel (lookUp_relabel T target)
    (orElse_relabel happly ?_))
  cases hdeeper with
  | none => rfl
  | some hsettle => exact orElse_relabel (applyRules_relabel hsettle T target) rfl

/-- The recursive search for the relabeled target is the image of the search for the target, with
any number of levels and inside of any searches. -/
theorem step_relabel (remaining : Nat) (excluded : List Formula) (T : Theory) (target : Formula) :
    step remaining (excluded.map (·.relabel ρ)) (T.relabel ρ) (target.relabel ρ) =
      (step remaining excluded T target).relabel ρ (·.relabel ρ) := by
  induction remaining generalizing excluded T target with
  | zero => exact level_relabel 0 .none T target
  | succ n ih =>
    cases n with
    | zero => exact level_relabel 1 .none T target
    | succ n =>
      -- The target joins what is excluded below it, and so does its image.
      have hestablish := establish_relabel (ih (excluded ++ [target])) (excluded ++ [target]) T
      rw [List.map_append, List.map_singleton] at hestablish
      exact level_relabel (n + 2) (.some hestablish) T target

theorem recursive_relabel (T : Theory) (target : Formula) (depth : Nat) :
    recursive (T.relabel ρ) (target.relabel ρ) depth =
      (recursive T target depth).relabel ρ (·.relabel ρ) :=
  step_relabel depth [] T target

end Search

/-! ## All operations -/

/-- Connectives matter through their equality only.  Take an injective change of connectives that
keeps the structural ones and all arities.  The image of a formula is what renaming its connectives
yields, the images of maps, transformations, derivations and theories have the images of their
formulas, and the image of an error has its code.  Then matching, substituting by a map or by any
lookup, applying a transformation, making a theory of a list, deriving by hand and searching all
lead from the images of their inputs to the image of their result, whether that is a value, nothing
or an error. -/
theorem Relabeling.operations_commute (ρ : Relabeling) :
    -- What images are.
    (∀ φ ψ : Formula, φ.rename ρ = .ok ψ ↔ φ.WellFormed ∧ φ.relabel ρ = ψ) ∧
    ((∀ m : Map, (m.relabel ρ).formula = m.formula.relabel ρ) ∧
      (∀ t : Transformation, (t.relabel ρ).formula = t.formula.relabel ρ) ∧
      (∀ d : Derivation, (d.relabel ρ).formula = d.formula.relabel ρ) ∧
      (∀ T : Theory, (T.relabel ρ).formula = T.formula.relabel ρ)) ∧
    ((∀ e : SyntaxError, (e.relabel ρ).code = e.code) ∧
      (∀ e : Error, (e.relabel ρ).code = e.code)) ∧
    -- What is done with them.
    (∀ (target pattern : Formula) (vars : List Formula) (m : Map),
      (target.relabel ρ).matchPattern (pattern.relabel ρ) (vars.map (·.relabel ρ)) (m.relabel ρ) =
        mapResult (·.relabel ρ) (Option.map (·.relabel ρ)) (target.matchPattern pattern vars m)) ∧
    (∀ (φ : Formula) (m : Map),
      (φ.relabel ρ).substitute (m.relabel ρ) = (φ.substitute m).relabel ρ) ∧
    (∀ f f' : Lookup, (∀ ψ : Formula, f' (ψ.relabel ρ) = (f ψ).map (·.relabel ρ)) →
      ∀ φ : Formula, (φ.relabel ρ).replace f' = (φ.replace f).relabel ρ) ∧
    (∀ (t : Transformation) (arguments : List Formula),
      (t.relabel ρ).apply (arguments.map (·.relabel ρ)) =
        mapResult (·.relabel ρ) (·.relabel ρ) (t.apply arguments)) ∧
    (∀ ds : List Derivation, Theory.ofList (ds.map (·.relabel ρ)) =
      mapResult (·.relabel ρ) (·.relabel ρ) (Theory.ofList ds)) ∧
    (∀ (T : Theory) (conjecture : Formula) (premises : Sequence) (rule : InferenceRule),
      (T.relabel ρ).derive (conjecture.relabel ρ) (premises.relabel ρ) (rule.relabel ρ) =
        (T.derive conjecture premises rule).relabel ρ (Prod.map (·.relabel ρ) (·.relabel ρ))) ∧
    (∀ (T : Theory) (target : Formula) (depth : Nat),
      Search.recursive (T.relabel ρ) (target.relabel ρ) depth =
        (Search.recursive T target depth).relabel ρ (·.relabel ρ)) :=
  ⟨fun _ _ => Formula.rename_eq_ok,
    ⟨Map.formula_relabel, Transformation.formula_relabel, Derivation.formula_relabel,
      Theory.formula_relabel⟩,
    ⟨SyntaxError.code_relabel, Error.code_relabel⟩,
    Formula.matchPattern_relabel, Formula.substitute_relabel, fun _ _ => Formula.replace_relabel,
    Transformation.apply_relabel, Theory.ofList_relabel, Theory.derive_relabel,
    Search.recursive_relabel⟩

/-- The atom `p` is exchanged for one that has the label of `q` and another style. -/
def Propositional.sameLabel : Relabeling :=
  .swap (.ofArity 0 "P" 0) (.declared 8 "Q" (.fixed 0) (.infixed "⊃")) rfl rfl rfl

open Propositional in
/-- The two atoms are written alike, but they are not taken for each other: what is found for a
nested conjunction is found for its image. -/
theorem Relabeling.operations_commute_sameLabel :
    (p.relabel sameLabel).text = q.text ∧ p.relabel sameLabel ≠ q ∧
      ∃ o, (Search.recursive developed (both (both p q) r) 2).result = .ok o ∧ o.success = true ∧
        (Search.recursive (developed.relabel sameLabel)
          ((both (both p q) r).relabel sameLabel) 2).result = .ok (o.relabel sameLabel) := by
  obtain ⟨o, ho, hsuccess⟩ : ∃ o,
      (Search.recursive developed (both (both p q) r) 2).result = .ok o ∧ o.success = true :=
    Search.exists_ok_of_success (by decide +kernel)
  obtain ⟨-, -, -, -, -, -, -, -, -, hsearch⟩ := Relabeling.operations_commute sameLabel
  refine ⟨by decide, by decide, o, ho, hsuccess, ?_⟩
  rw [hsearch, Run.relabel_result, ho, mapResult_ok]

end Deduction
