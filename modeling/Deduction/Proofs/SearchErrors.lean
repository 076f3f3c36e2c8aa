import Deduction.Proofs.SearchSoundness
import Deduction.Proofs.Transformations

/-!
# Errors of searches

Not finding a derivation is an outcome of a search and no error.  What remains as an error is that a
formula is to be matched in which a variable of the rule occurs, and `Search.searches_error` says
that nothing else does.  At each level, applying a rule to the premises that it needs cannot fail in
another way, the premises that were settled are still valid when the theorem is derived from them,
and the theorem can be appended.

A run `Ensures` a condition on its value and another on its error.  A search ensures that its theory
holds *good* statements only and that its error is a *fault*, provided that premises of good targets
are good and that variables in good formulas are faults (`Search.Regime`).  For the result here
every formula is good.
-/

namespace Deduction

/-! ## Runs with a condition on their end -/

namespace Run

variable {α β : Type} {r : Run α} {post : α → Prop} {fault : Error → Prop}

/-- A value that the run ends with meets `post`, an error that it ends with meets `fault`. -/
structure Ensures (r : Run α) (post : α → Prop) (fault : Error → Prop) : Prop where
  value : ∀ a, r.result = .ok a → post a
  error : ∀ e, r.result = .error e → fault e

theorem ensures_pure {a : α} (h : post a) : (pure a : Run α).Ensures post fault where
  value b hb := by
    obtain rfl : a = b := by simpa using hb
    exact h
  error e he := by simp at he

theorem Ensures.bind {f : α → Run β} {post' : β → Prop} (h : r.Ensures post fault)
    (hf : ∀ a, r.result = .ok a → post a → (f a).Ensures post' fault) :
    (r >>= f).Ensures post' fault where
  value b hb := by
    obtain ⟨a, ha, hb⟩ := bind_eq_ok.mp hb
    exact (hf a ha (h.value a ha)).value b hb
  error e he := by
    rw [result_bind] at he
    cases ha : r.result with
    | error e' =>
      rw [ha] at he
      obtain rfl : e' = e := Except.error.inj he
      exact h.error e' ha
    | ok a =>
      rw [ha] at he
      exact (hf a ha (h.value a ha)).error e he

theorem Ensures.exists_ok (h : r.Ensures post fun _ => False) :
    ∃ a, r.result = .ok a ∧ post a := by
  cases hresult : r.result with
  | error e => exact (h.error e hresult).elim
  | ok a => exact ⟨a, rfl, h.value a hresult⟩

theorem ensures_within {call : Call} (h : r.Ensures post fault) :
    (within call r).Ensures post fault :=
  ⟨h.value, h.error⟩

/-- The first value that is found meets the condition that all the values meet. -/
theorem ensures_firstSome {f : α → Run (Option β)} {post : β → Prop} {xs : List α}
    (h : ∀ x ∈ xs, (f x).Ensures (fun b? => ∀ b ∈ b?, post b) fault) :
    (firstSome f xs).Ensures (fun b? => ∀ b ∈ b?, post b) fault := by
  induction xs with
  | nil => exact ensures_pure (by simp)
  | cons x xs ih =>
    refine (h x (by simp)).bind fun b? _ hb? => ?_
    cases b? with
    | some b => exact ensures_pure hb?
    | none => exact ih fun y hy => h y (by simp [hy])

end Run

namespace Search

variable {settle : List Formula → Run (Option Theory)} {T : Theory} {target : Formula}
  {rule : InferenceRule} {Good : Formula → Prop} {fault : Error → Prop}

/-! ## Settled premises -/

/-- In a theory that `settle` returns for some premises these are valid, and it has everything that
`T` has. -/
def Secures (settle : List Formula → Run (Option Theory)) (T : Theory) : Prop :=
  ∀ premises W, (settle premises).result = .ok (some W) →
    (∀ p ∈ premises, W.IsValid p) ∧ T.derivations ⊆ W.derivations

theorem settled_secures (T : Theory) : Secures (settled T) T := by
  intro premises W h
  obtain ⟨rfl, hvalid⟩ := settled_eq_some.mp h
  exact ⟨hvalid, fun _ hd => hd⟩

theorem establish_valid {search : Theory → Formula → Run Outcome} {excluded : List Formula}
    (hsearch : ∀ T p o, p ∉ excluded → (search T p).result = .ok o → o.success = true →
      Finds excluded T p o) {premises : List Formula} {W : Theory}
    (h : (establish search excluded T premises).result = .ok (some W)) :
    ∀ p ∈ premises, W.IsValid p := by
  induction premises generalizing T with
  | nil => simp
  | cons p ps ih =>
    -- What is valid when the other premises are taken up is valid in the end.
    have hrest (S : Theory) (hS : (establish search excluded S ps).result = .ok (some W))
        (hp : S.IsValid p) : ∀ q ∈ p :: ps, W.IsValid q := by
      obtain ⟨ths, hths⟩ := establish_settles hsearch _ W hS
      exact List.forall_mem_cons.mpr ⟨hths.followed.isValid hp, ih hS⟩
    rw [establish] at h
    split at h
    next hp => exact hrest T h hp
    next =>
      split at h
      · simp at h
      next hexcluded =>
        obtain ⟨o, ho, h⟩ := Run.bind_eq_ok.mp h
        split at h
        next hsuccess =>
          exact hrest o.theory h (hsearch T p o hexcluded ho hsuccess).established.valid
        · simp at h

theorem establish_secures {search : Theory → Formula → Run Outcome} {excluded : List Formula}
    (hsearch : ∀ T p o, p ∉ excluded → (search T p).result = .ok o → o.success = true →
      Finds excluded T p o) : Secures (establish search excluded T) T := by
  intro premises W h
  obtain ⟨ths, hths⟩ := establish_settles hsearch premises W h
  have hderivations : W.derivations = T.derivations ++ ths.map .proved := hths.followed
  refine ⟨establish_valid hsearch h, ?_⟩
  rw [hderivations]
  exact List.subset_append_left _ _

/-! ## One rule -/

/-- All that is valid in the theory is good. -/
def AllGood (Good : Formula → Prop) (T : Theory) : Prop := ∀ φ, T.IsValid φ → Good φ

/-- The error that a variable occurs in a formula that is to be matched. -/
abbrev occurrence (v φ : Formula) : Error := .ofFormulas (.variableOccurs v φ)

theorem lift_ensures {α : Type} {x : Except Error α} {post : α → Prop}
    (hvalue : ∀ a, x = .ok a → post a) (herror : ∀ e, x = .error e → fault e) :
    (liftM x : Run α).Ensures post fault :=
  ⟨hvalue, herror⟩

theorem derive_ensures {W : Theory} {premises : Sequence} (hgood : Good target)
    (hW : AllGood Good W) (hpremises : ∀ p ∈ premises.elements, W.IsValid p)
    (hrule : .rule rule ∈ W.derivations)
    (happly : rule.transformation.apply premises.elements = .ok target) :
    (W.derive target premises rule).Ensures (fun (T', _) => AllGood Good T') fault := by
  obtain ⟨T', t, hderive⟩ := Theory.derive_of_valid hpremises hrule happly
  constructor
  · intro a ha
    obtain rfl : (T', t) = a := by simpa [hderive] using ha
    obtain ⟨-, hstatement, -, hT'⟩ := Theory.derive_eq_ok.mp hderive
    intro φ hφ
    obtain ⟨d, hd, hstated⟩ := Theory.isValid_iff.mp hφ
    rw [hT', mem_appendNew, List.mem_singleton] at hd
    rcases hd with hd | rfl
    · exact hW φ (Theory.isValid_iff.mpr ⟨d, hd, hstated⟩)
    · obtain rfl : t.statement = φ := Option.some.inj hstated
      exact hstatement ▸ hgood
  · intro e he
    simp [hderive] at he

/-- Trying bindings of the variables keeps to good statements and to faults, if settling the
premises that they need does and a variable of the rule in one of these is a fault. -/
theorem tryCandidate_ensures (hsecures : Secures settle T) (hrule : rule ∈ T.rules)
    (hgood : Good target) {m : Map} (hm : m.keys ⊆ rule.transformation.vars.elements)
    (hoccurs : ∀ p ∈ (rule.transformation.necessaryPremises m).elements,
      ∀ v ∈ rule.transformation.vars.elements, p.contains v = true → fault (occurrence v p))
    (hsettle : (settle (rule.transformation.necessaryPremises m).elements).Ensures
      (fun W? => ∀ W ∈ W?, AllGood Good W) fault) :
    (tryCandidate settle target rule m).Ensures (fun o? => ∀ o ∈ o?, AllGood Good o.theory)
      fault := by
  have hnote : (Run.note (.candidate rule (rule.transformation.necessaryPremises m))).Ensures
      (fun _ => True) fault := ⟨fun _ _ => trivial, by simp⟩
  have happly : (liftM (rule.transformation.apply
      (rule.transformation.necessaryPremises m).elements) : Run Formula).Ensures
      (fun _ => True) fault := by
    refine lift_ensures (fun _ _ => trivial) fun e he => ?_
    obtain ⟨v, hv, p, hp, hvp, rfl⟩ := Transformation.apply_necessaryPremises_eq_error hm he
    exact hoccurs p hp v hv hvp
  refine hnote.bind fun _ _ _ => happly.bind fun conclusion hconclusion _ => ?_
  split
  · exact Run.ensures_pure (by simp)
  next heq =>
    obtain rfl : conclusion = target := by simpa using heq
    refine hsettle.bind fun W? hW? hgoodW => ?_
    cases W? with
    | none => exact Run.ensures_pure (by simp)
    | some W =>
      obtain ⟨hvalid, hsub⟩ := hsecures _ W hW?
      have hmem : .rule rule ∈ W.derivations := hsub (Theory.mem_rules.mp hrule)
      refine (derive_ensures hgood (hgoodW W rfl) hvalid hmem hconclusion).bind
        fun (T', t) _ hT' => Run.ensures_pure fun o ho => ?_
      obtain rfl : Outcome.found T' (.proved t) = o := by simpa using ho
      exact hT'

/-- What trying the rule for the target can come to.  The target is good, a variable of the rule in
the target or in a premise that is needed is a fault, and settling these premises keeps to good
statements and to faults. -/
structure Attempt (Good : Formula → Prop) (fault : Error → Prop)
    (settle : List Formula → Run (Option Theory)) (T : Theory) (target : Formula)
    (rule : InferenceRule) : Prop where
  good : Good target
  target_fault : ∀ v ∈ rule.transformation.vars.elements,
    target.contains v = true → fault (occurrence v target)
  premise_fault : ∀ m, rule.transformation.Completes target T.validStatements m →
    ∀ p ∈ (rule.transformation.necessaryPremises m).elements,
      ∀ v ∈ rule.transformation.vars.elements, p.contains v = true → fault (occurrence v p)
  settles : ∀ m, rule.transformation.Completes target T.validStatements m →
    (settle (rule.transformation.necessaryPremises m).elements).Ensures
      (fun W? => ∀ W ∈ W?, AllGood Good W) fault

theorem Attempt.applyRule (h : Attempt Good fault settle T target rule)
    (hsecures : Secures settle T) (hrule : rule ∈ T.rules) :
    (applyRule settle T target rule).Ensures (fun o? => ∀ o ∈ o?, AllGood Good o.theory)
      fault := by
  have hmatch : (liftM (liftM (rule.transformation.matchConclusion target) :
      Except Error (Option Map)) : Run (Option Map)).Ensures
      (fun b? => rule.transformation.matchConclusion target = .ok b?) fault := by
    cases hresult : rule.transformation.matchConclusion target with
    | error e =>
      obtain ⟨v, hv, hoccurs, rfl⟩ := Transformation.matchConclusion_eq_error hresult
      refine lift_ensures (fun a ha => by cases ha) fun e he => ?_
      obtain rfl : occurrence v target = e := Except.error.inj he
      exact h.target_fault v hv hoccurs
    | ok b? =>
      refine lift_ensures (fun a ha => ?_) fun e he => by cases he
      exact congrArg _ (Except.ok.inj ha)
  refine hmatch.bind fun b? _ hb? => ?_
  cases b? with
  | none => exact Run.ensures_pure (by simp)
  | some b =>
    simp only [firstAssignment_eq_firstSome]
    refine Run.ensures_firstSome fun m hm => ?_
    have hcompletes : rule.transformation.Completes target T.validStatements m := ⟨b, hb?, hm⟩
    exact tryCandidate_ensures hsecures hrule h.good hcompletes.keys_subset
      (h.premise_fault m hcompletes) (h.settles m hcompletes)

theorem applyRules_ensures (h : ∀ rule ∈ T.rules, Attempt Good fault settle T target rule)
    (hsecures : Secures settle T) :
    (applyRules settle T target).Ensures (fun o? => ∀ o ∈ o?, AllGood Good o.theory) fault :=
  Run.ensures_firstSome fun rule hrule => (h rule hrule).applyRule hsecures hrule

/-! ## Levels -/

/-- A search that goes on when an attempt finds nothing. -/
theorem ensures_orElse {attempt : Run (Option Outcome)} {next : Run Outcome}
    {post : Outcome → Prop} (h : attempt.Ensures (fun o? => ∀ o ∈ o?, post o) fault)
    (hnext : next.Ensures post fault) :
    (attempt.orElse next).Ensures post fault := by
  refine h.bind fun o? _ ho? => ?_
  cases o? with
  | some o => exact Run.ensures_pure (ho? o rfl)
  | none => exact hnext

theorem lookUp_ensures (hT : AllGood Good T) (target : Formula) :
    (lookUp T target).Ensures (fun o? => ∀ o ∈ o?, AllGood Good o.theory) fault := by
  unfold lookUp
  cases T.justification? target with
  | none => exact Run.ensures_pure (by simp)
  | some d =>
    refine ⟨fun o? ho? o ho => ?_, fun e he => by cases he⟩
    obtain rfl : some (Outcome.found T d) = o? := Except.ok.inj ho?
    obtain rfl : Outcome.found T d = o := by simpa using ho
    exact hT

theorem fail_ensures (hT : AllGood Good T) (rule? : Option InferenceRule) :
    (fail T rule?).Ensures (fun o => AllGood Good o.theory) fault := by
  refine ⟨fun o ho => ?_, fun e he => by cases he⟩
  obtain rfl : Outcome.failure T = o := Except.ok.inj ho
  exact hT

theorem singleLevel_ensures (hT : AllGood Good T)
    (h : ∀ rule ∈ T.rules, Attempt Good fault (settled T) T target rule) :
    (singleLevel T target).Ensures (fun o => AllGood Good o.theory) fault := by
  have hrules := applyRules_ensures h (settled_secures T)
  have hsearch := ensures_orElse hrules (fail_ensures hT none)
  exact Run.ensures_within (ensures_orElse (lookUp_ensures hT target) hsearch)

theorem withRule_ensures (hT : AllGood Good T)
    (h : rule ∈ T.rules → Attempt Good fault (settled T) T target rule) :
    (withRule T target rule).Ensures (fun o => AllGood Good o.theory) fault := by
  refine Run.ensures_within ?_
  split
  next hmem =>
    have hrule : rule ∈ T.rules := Theory.mem_rules.mpr hmem
    have happly := (h hrule).applyRule (settled_secures T) hrule
    exact ensures_orElse (lookUp_ensures hT target)
      (ensures_orElse happly (fail_ensures hT rule))
  next => exact fail_ensures hT rule

theorem level_ensures {depth : Nat} {deeper? : Option (List Formula → Run (Option Theory))}
    (hT : AllGood Good T) (h : ∀ rule ∈ T.rules, Attempt Good fault (settled T) T target rule)
    (hdeeper : ∀ settle ∈ deeper?, Secures settle T ∧
      ∀ rule ∈ T.rules, Attempt Good fault settle T target rule) :
    (level depth deeper? T target).Ensures (fun o => AllGood Good o.theory) fault := by
  have hrules := applyRules_ensures h (settled_secures T)
  refine Run.ensures_within
    (ensures_orElse (lookUp_ensures hT target) (ensures_orElse hrules ?_))
  cases deeper? with
  | none =>
    have hnote : (Run.note .exhausted).Ensures (fun _ => True) fault :=
      ⟨fun _ _ => trivial, by simp⟩
    exact hnote.bind fun _ _ _ => fail_ensures hT none
  | some settle =>
    obtain ⟨hsecures, hattempt⟩ := hdeeper settle rfl
    exact ensures_orElse (applyRules_ensures hattempt hsecures) (fail_ensures hT none)

/-! ## The recursive search -/

/-- With these rules, the premises that are needed for a good target among good statements are
good, and a variable of a rule in a good formula is a fault. -/
structure Regime (rules : List InferenceRule) (Good : Formula → Prop) (fault : Error → Prop) :
    Prop where
  occurs : ∀ rule ∈ rules, ∀ φ, Good φ → ∀ v ∈ rule.transformation.vars.elements,
    φ.contains v = true → fault (occurrence v φ)
  premises : ∀ rule ∈ rules, ∀ target pool m, Good target → (∀ φ ∈ pool, Good φ) →
    rule.transformation.Completes target pool m →
      ∀ p ∈ (rule.transformation.necessaryPremises m).elements, Good p

theorem Regime.attempt (h : Regime T.rules Good fault) (hT : AllGood Good T)
    (hgood : Good target) (hrule : rule ∈ T.rules)
    (hsettle : ∀ premises, (∀ p ∈ premises, Good p) →
      (settle premises).Ensures (fun W? => ∀ W ∈ W?, AllGood Good W) fault) :
    Attempt Good fault settle T target rule := by
  have hpremises (m : Map) (hm : rule.transformation.Completes target T.validStatements m) :
      ∀ p ∈ (rule.transformation.necessaryPremises m).elements, Good p :=
    h.premises rule hrule target T.validStatements m hgood hT hm
  exact {
    good := hgood
    target_fault := h.occurs rule hrule target hgood
    premise_fault := fun m hm p hp => h.occurs rule hrule p (hpremises m hm p hp)
    settles := fun m hm => hsettle _ (hpremises m hm) }

theorem settled_ensures (hT : AllGood Good T) (premises : List Formula) :
    (settled T premises).Ensures (fun W? => ∀ W ∈ W?, AllGood Good W) fault := by
  refine Run.ensures_pure fun W hW => ?_
  split at hW
  · obtain rfl : T = W := by simpa using hW
    exact hT
  · simp at hW

theorem establish_ensures {search : Theory → Formula → Run Outcome} {excluded : List Formula}
    (hfinds : ∀ T p o, p ∉ excluded → (search T p).result = .ok o → o.success = true →
      Finds excluded T p o)
    (hsearch : ∀ W p, W.rules = T.rules → p ∉ excluded → AllGood Good W → Good p →
      (search W p).Ensures (fun o => AllGood Good o.theory) fault)
    (hT : AllGood Good T) {premises : List Formula} (hpremises : ∀ p ∈ premises, Good p) :
    (establish search excluded T premises).Ensures (fun W? => ∀ W ∈ W?, AllGood Good W)
      fault := by
  induction premises generalizing T with
  | nil =>
    refine Run.ensures_pure fun W hW => ?_
    obtain rfl : T = W := by simpa using hW
    exact hT
  | cons p ps ih =>
    obtain ⟨hp, hps⟩ := List.forall_mem_cons.mp hpremises
    rw [establish]
    split
    · exact ih hsearch hT hps
    · split
      · exact Run.ensures_pure (by simp)
      next hexcluded =>
        refine (hsearch T p rfl hexcluded hT hp).bind fun o ho hgood => ?_
        split
        next hsuccess =>
          obtain ⟨ths, hths⟩ := (hfinds T p o hexcluded ho hsuccess).adds
          have hrules : o.theory.rules = T.rules := hths.followed.rules_eq
          exact ih (fun W q hW => hsearch W q (hW.trans hrules)) hgood hps
        · exact Run.ensures_pure (by simp)

/-- A level of the recursive search keeps to good statements and to faults if the level below it
does. -/
theorem step_ensures {remaining : Nat} {excluded : List Formula} (h : Regime T.rules Good fault)
    (hT : AllGood Good T) (hgood : Good target) (hexcluded : target ∉ excluded) :
    (step remaining excluded T target).Ensures (fun o => AllGood Good o.theory) fault := by
  have hsettled {T : Theory} {target : Formula} (h : Regime T.rules Good fault)
      (hT : AllGood Good T) (hgood : Good target) :
      ∀ rule ∈ T.rules, Attempt Good fault (settled T) T target rule :=
    fun rule hrule => h.attempt hT hgood hrule fun premises _ => settled_ensures hT premises
  induction remaining generalizing excluded T target with
  | zero => exact level_ensures hT (hsettled h hT hgood) (by simp)
  | succ n ih =>
    cases n with
    | zero => exact level_ensures hT (hsettled h hT hgood) (by simp)
    | succ n =>
      have hfinds : ∀ T p o, p ∉ excluded ++ [target] →
          (step (n + 1) (excluded ++ [target]) T p).result = .ok o → o.success = true →
            Finds (excluded ++ [target]) T p o :=
        fun T p o hp ho hsuccess => step_finds hp ho hsuccess
      rw [step]
      refine level_ensures hT (hsettled h hT hgood) fun settle hsettle => ?_
      obtain rfl : establish (step (n + 1) (excluded ++ [target])) (excluded ++ [target]) T =
          settle := by simpa using hsettle
      refine ⟨establish_secures hfinds, fun rule hrule => ?_⟩
      refine h.attempt hT hgood hrule fun premises hpremises => ?_
      refine establish_ensures hfinds (fun W p hW hp hgoodW hgoodp => ?_) hT hpremises
      exact ih (hW ▸ h) hgoodW hgoodp hp

/-! ## The one possible error -/

/-- A variable of one of the rules occurs in a formula that is to be matched. -/
def VariableOccurs (rules : List InferenceRule) (e : Error) : Prop :=
  ∃ rule ∈ rules, ∃ v ∈ rule.transformation.vars.elements, ∃ φ : Formula,
    φ.contains v = true ∧ e = occurrence v φ

theorem VariableOccurs.code_eq {rules : List InferenceRule} {e : Error}
    (h : VariableOccurs rules e) : e.code = "SYN-006" := by
  obtain ⟨rule, -, v, -, φ, -, rfl⟩ := h
  rfl

theorem regime_variableOccurs (rules : List InferenceRule) :
    Regime rules (fun _ => True) (VariableOccurs rules) where
  occurs rule hrule φ _ v hv hoccurs := ⟨rule, hrule, v, hv, φ, hoccurs, rfl⟩
  premises _ _ _ _ _ _ _ _ _ _ := trivial

/-- Searches have one possible error: a variable of a rule occurs in a formula that is to be
matched.  In particular a rule applied to the premises that a candidate needs fails in no other way,
and deriving the target from valid premises by a rule that leads to it does not fail. -/
theorem searches_error (T : Theory) (target : Formula) (rule : InferenceRule) (depth : Nat) :
    (∀ run ∈ [singleLevel T target, withRule T target rule, recursive T target depth],
      ∀ e, run.result = .error e → e.code = "SYN-006" ∧ VariableOccurs T.rules e) ∧
    (∀ m, rule.transformation.Completes target T.validStatements m →
      ∀ e, rule.transformation.apply (rule.transformation.necessaryPremises m).elements = .error e →
        e.code = "SYN-006") ∧
    ∀ premises : Sequence, (∀ p ∈ premises.elements, T.IsValid p) → rule ∈ T.rules →
      rule.transformation.apply premises.elements = .ok target →
        ∃ T' t, (T.derive target premises rule).result = .ok (T', t) := by
  have hregime := regime_variableOccurs T.rules
  have hT : AllGood (fun _ => True) T := fun _ _ => trivial
  have hattempt : ∀ r ∈ T.rules,
      Attempt (fun _ => True) (VariableOccurs T.rules) (settled T) T target r :=
    fun r hr => hregime.attempt hT trivial hr fun premises _ => settled_ensures hT premises
  refine ⟨fun run hrun e he => ?_, fun m hm e he => ?_, fun premises hpremises hrule happly => ?_⟩
  · have hoccurs : VariableOccurs T.rules e := by
      simp only [List.mem_cons, List.not_mem_nil, or_false] at hrun
      rcases hrun with rfl | rfl | rfl
      · exact (singleLevel_ensures hT hattempt).error e he
      · exact (withRule_ensures hT (hattempt rule)).error e he
      · exact (step_ensures hregime hT trivial List.not_mem_nil).error e he
    exact ⟨hoccurs.code_eq, hoccurs⟩
  · obtain ⟨v, -, p, -, -, rfl⟩ :=
      Transformation.apply_necessaryPremises_eq_error hm.keys_subset he
    rfl
  · exact Theory.derive_of_valid hpremises (Theory.mem_rules.mp hrule) happly

open Propositional in
/-- A target with a variable of detachment stops the search by that rule. -/
theorem searches_error_variable :
    (withRule axiomatization.theory x detachment).result = .error (occurrence x x) ∧
      (occurrence x x).code = "SYN-006" ∧
        VariableOccurs axiomatization.theory.rules (occurrence x x) := by
  have hrun : (withRule axiomatization.theory x detachment).result = .error (occurrence x x) := rfl
  exact ⟨hrun, (searches_error axiomatization.theory x detachment 0).1 _ (by simp) _ hrun⟩

end Search

end Deduction
