import Deduction.Proofs.SearchErrors
import Deduction.Proofs.SequencedSearches
import Deduction.Proofs.WellFormedValues

/-!
# Theories of well-formed formulas

The axioms and the rules decide whether a theory is proper: a theorem is what a rule concludes from
earlier statements, so it is well formed if these are (`Theory.proper_iff`).  What is appended to a
theory by hand or by a search are theorems, and therefore a search leads from a proper theory to
proper outcomes, whatever it tries.  Where it ends with an error, the formulas in the error are a
variable of a rule and a target or a premise (`Search.regime_proper`).
-/

namespace Deduction

/-! ## Transformations -/

namespace Transformation

variable {t : Transformation}

theorem ofParts_proper {premises : Sequence} {conclusion : Formula} {vars : Enumeration}
    (hpremises : Proper premises) (hconclusion : Proper conclusion) (hvars : Proper vars) :
    Proper (ofParts premises conclusion vars) := by
  unfold ofParts
  split
  next v hv => exact (proper_enumeration.mp hvars).mem (List.mem_of_find?_eq_some hv)
  next => exact proper_transformation.mpr ⟨hconclusion, hvars, hpremises⟩

theorem solve_proper {vars : List Formula} (hvars : Proper vars) (ps : List Formula)
    {as : List Formula} {b : Map} (has : Proper as) (hb : Proper b) :
    Proper (solve vars ps as b) := by
  induction ps generalizing as b with
  | nil => simpa [solve] using hb
  | cons p ps ih =>
    cases as with
    | nil => simpa [solve] using hb
    | cons a as =>
      rw [solve]
      refine (a.matchPattern_proper p (has.mem (by simp)) hvars hb).bind fun b? _ hb? => ?_
      cases b? with
      | none => exact proper_none
      | some b' => exact ih (has.subset (by simp)) (proper_some.mp hb?)

theorem apply_proper (ht : Proper t) {arguments : List Formula} (harguments : Proper arguments) :
    Proper (t.apply arguments) := by
  obtain ⟨hconclusion, hvars, -⟩ := proper_transformation.mp ht
  have hmismatch : Proper (.error (.mismatch (Sequence.mk arguments).formula t.formula) :
      Except Error Formula) :=
    Proper.prod (proper_sequence.mpr harguments) ht
  have hsolve := solve_proper (proper_enumeration.mp hvars) t.premises.elements harguments
    Map.empty_proper
  unfold apply
  split
  · exact hmismatch
  · split
    next e he => exact hsolve.fault he
    next => exact hmismatch
    next m hm =>
      exact Formula.substitute_proper hconclusion (proper_some.mp (hsolve.value hm))

theorem matchConclusion_proper (ht : Proper t) {target : Formula} (htarget : Proper target) :
    Proper (t.matchConclusion target) := by
  obtain ⟨-, hvars, -⟩ := proper_transformation.mp ht
  exact target.matchPattern_proper t.conclusion htarget (proper_enumeration.mp hvars)
    Map.empty_proper

theorem necessaryPremises_proper (ht : Proper t) {bindings : Map} (hbindings : Proper bindings) :
    Proper (t.necessaryPremises bindings) := by
  obtain ⟨-, -, hpremises⟩ := proper_transformation.mp ht
  refine proper_sequence.mpr (proper_list.mpr fun φ hφ => ?_)
  obtain ⟨p, hp, rfl⟩ := List.mem_map.mp hφ
  exact Formula.substitute_proper ((proper_sequence.mp hpremises).mem hp) hbindings

/-- Matching the conclusion binds parts of the target, and the other variables are bound to
formulas of the pool. -/
theorem Completes.proper {target : Formula} {pool : List Formula} {m : Map}
    (h : t.Completes target pool m) (ht : Proper t) (htarget : Proper target)
    (hpool : Proper pool) : Proper m := by
  obtain ⟨-, hvars, -⟩ := proper_transformation.mp ht
  have hkeys := h.keys_subset
  obtain ⟨b, hmatch, hm⟩ := h
  have hb : Proper b := proper_some.mp ((matchConclusion_proper ht htarget).value hmatch)
  refine proper_map.mpr (proper_list.mpr fun p hp => ?_)
  rcases mem_pairs_assignments hm hp with hbound | himage
  · exact (proper_map.mp hb).mem hbound
  · have hkey : p.1 ∈ t.vars.elements := hkeys (Map.mem_keys_of_mem hp)
    exact proper_prod.mpr ⟨(proper_enumeration.mp hvars).mem hkey, hpool.mem himage⟩

end Transformation

/-! ## Derivations -/

theorem Theorem.ofInference_proper {statement : Formula} {inference : Inference}
    (hstatement : Proper statement) (hinference : Proper inference) :
    Proper (ofInference statement inference) := by
  obtain ⟨hrule, hpremises⟩ := proper_inference.mp hinference
  have happly : Proper inference.apply :=
    Transformation.apply_proper (proper_rule.mp hrule) (proper_sequence.mp hpremises)
  unfold ofInference
  split
  next e he => exact happly.fault he
  next derived hderived =>
    split
    · exact proper_theorem.mpr ⟨hstatement, hinference⟩
    · exact Proper.prod hstatement (happly.value hderived)

theorem Derivation.statement?_proper {d : Derivation} (hd : Proper d) {φ : Formula}
    (h : d.statement? = some φ) : Proper φ := by
  cases d with
  | stated a =>
    obtain rfl := Option.some.inj h
    exact proper_axiom.mp hd
  | rule r => simp [statement?] at h
  | proved t =>
    obtain rfl := Option.some.inj h
    exact (proper_theorem.mp hd).1

/-! ## Theories -/

theorem checkPremise_proper (ds : List Derivation) (index : Nat) {t : Theorem} {p : Formula}
    (ht : Proper t) (hp : Proper p) : Proper (checkPremise ds index t p) := by
  unfold checkPremise
  split
  · exact hp.prod ht
  · split
    · exact proper_unit ()
    · exact hp.prod ht

theorem checkPremises_proper (ds : List Derivation) (index : Nat) {t : Theorem}
    {ps : List Formula} (ht : Proper t) (hps : Proper ps) :
    Proper (checkPremises ds index t ps) := by
  induction ps with
  | nil => exact proper_unit ()
  | cons p ps ih =>
    rw [checkPremises]
    exact (checkPremise_proper ds index ht (hps.mem (by simp))).bind fun _ _ _ =>
      ih (hps.subset (by simp))

theorem checkRule_proper (ds : List Derivation) (index : Nat) {t : Theorem} (ht : Proper t) :
    Proper (checkRule ds index t) := by
  have hrule : Proper t.inference.rule := (proper_inference.mp (proper_theorem.mp ht).2).1
  unfold checkRule
  split
  · exact hrule.prod ht
  · split
    · exact proper_unit ()
    · exact hrule.prod ht

theorem checkFrom_proper (ds : List Derivation) (index : Nat) {rest : List Derivation}
    (hrest : Proper rest) : Proper (checkFrom ds index rest) := by
  induction rest generalizing index with
  | nil => exact proper_unit ()
  | cons d rest ih =>
    have htail (index : Nat) : Proper (checkFrom ds index rest) :=
      ih index (hrest.subset (by simp))
    cases d with
    | stated a => exact htail _
    | rule r => exact htail _
    | proved t =>
      have ht : Proper t := hrest.mem (List.mem_cons_self ..)
      have hpremises : Proper t.inference.premises :=
        (proper_inference.mp (proper_theorem.mp ht).2).2
      rw [checkFrom, checkTheorem]
      refine Proper.bind ?_ fun _ _ _ => htail _
      exact (checkPremises_proper ds index ht (proper_sequence.mp hpremises)).bind fun _ _ _ =>
        checkRule_proper ds index ht

theorem Derivation.enumerate_proper {ds : List Derivation} (hds : Proper ds) :
    Proper (enumerate ds) := by
  refine Proper.lift (Enumeration.ofList_proper (proper_list.mpr ?_))
  exact List.forall_mem_map.mpr fun d hd => proper_derivation.mp (hds.mem hd)

namespace Theory

variable {T : Theory} {ds : List Derivation}

theorem ofList_proper (hds : Proper ds) : Proper (ofList ds) := by
  cases h : ofList ds with
  | ok T => exact proper_theory.mpr (ofList_eq_ok.mp h ▸ hds)
  | error e =>
    rcases ofList_eq_error.mp h with hrepeat | ⟨-, hcheck⟩
    · exact (Derivation.enumerate_proper hds).fault (Derivation.enumerate_eq_error.mpr hrepeat)
    · exact (checkFrom_proper ds 0 hds).fault hcheck

theorem extend_proper (hT : Proper T) (hds : Proper ds) : Proper (T.extend ds) := by
  have happend : Proper (appendNew T.derivations ds) :=
    appendNew_proper (proper_theory.mp hT) hds
  cases h : T.extend ds with
  | ok T' => exact proper_theory.mpr (extend_eq_ok.mp h ▸ happend)
  | error e =>
    have hnew : Proper (T.newIn ds) := happend.subset (List.drop_subset _ _)
    exact (checkFrom_proper _ _ hnew).fault (extend_eq_error.mp h)

/-- A theory is proper as soon as its axioms and its rules are. -/
theorem proper_iff :
    Proper T ↔ (∀ a ∈ T.axioms, Proper a) ∧ ∀ r ∈ T.rules, Proper r := by
  constructor
  · intro hT
    exact ⟨fun a ha => (proper_theory.mp hT).mem (mem_axioms.mp ha),
      fun r hr => (proper_theory.mp hT).mem (mem_rules.mp hr)⟩
  · rintro ⟨haxioms, hrules⟩
    -- What a theorem cites stands at smaller positions.
    have hat : ∀ (i : Nat) (d : Derivation), T.derivations[i]? = some d → Proper d := by
      intro i
      induction i using Nat.strong_induction_on with
      | _ i ih =>
        intro d hi
        have hd : d ∈ T.derivations := List.mem_of_getElem? hi
        cases d with
        | stated a => exact haxioms a (mem_axioms.mpr hd)
        | rule r => exact hrules r (mem_rules.mpr hd)
        | proved t =>
          have hcites := T.accepted.cites i t hi
          have hrule : Proper t.inference.rule :=
            hrules _ (mem_rules.mpr (List.mem_of_mem_take hcites.rule))
          have hpremises : Proper t.inference.premises.elements := by
            refine proper_list.mpr fun p hp => ?_
            obtain ⟨d, hd, hstated⟩ := hcites.premises p hp
            obtain ⟨j, hj, hd⟩ := exists_lt_of_mem_take hd
            exact Derivation.statement?_proper (ih j hj d hd) hstated
          have hstatement : Proper t.statement :=
            (Transformation.apply_proper (proper_rule.mp hrule) hpremises).value t.derives
          exact proper_theorem.mpr ⟨hstatement,
            proper_inference.mpr ⟨hrule, proper_sequence.mpr hpremises⟩⟩
    refine proper_theory.mpr (proper_list.mpr fun d hd => ?_)
    obtain ⟨i, hi⟩ := List.mem_iff_getElem?.mp hd
    exact hat i d hi

theorem FollowedBy.proper {T' : Theory} {ths : List Theorem} (h : T.FollowedBy ths T')
    (hT : Proper T) : Proper T' := by
  rw [proper_iff] at hT ⊢
  rwa [h.axioms_eq, h.rules_eq]

theorem isValid_proper (hT : Proper T) {φ : Formula} (h : T.IsValid φ) : Proper φ := by
  obtain ⟨d, hd, hstated⟩ := isValid_iff.mp h
  exact Derivation.statement?_proper ((proper_theory.mp hT).mem hd) hstated

end Theory

namespace Axiomatization

variable {A : Axiomatization} {ds : List Derivation}

theorem ofList_proper (hds : Proper ds) : Proper (ofList ds) := by
  unfold ofList
  split
  next d hd =>
    have hformula : Proper d.formula :=
      proper_derivation.mp (hds.mem (List.mem_of_find?_eq_some hd))
    exact hformula
  next =>
    split
    next h => exact (Derivation.enumerate_proper hds).fault h
    next => exact proper_axiomatization.mpr hds

theorem extend_proper (hA : Proper A) (hds : Proper ds) : Proper (A.extend ds) :=
  ofList_proper (appendNew_proper (proper_axiomatization.mp hA) hds)

theorem theory_proper (hA : Proper A) : Proper A.theory :=
  proper_theory.mpr (proper_axiomatization.mp hA)

end Axiomatization

/-! ## Searches -/

theorem Proper.andThen {α β : Type} [HasFormulas α] [HasFormulas β] {r : Run α} {f : α → Run β}
    (hr : Proper r) (hf : ∀ a, r.result = .ok a → Proper a → Proper (f a)) :
    Proper (r >>= f) := by
  change Proper (r >>= f).result
  rw [Run.result_bind]
  exact Proper.bind hr hf

theorem Theory.derive_proper {T : Theory} {conjecture : Formula} {premises : Sequence}
    {rule : InferenceRule} (hT : Proper T) (hconjecture : Proper conjecture)
    (hpremises : Proper premises) (hrule : Proper rule) :
    Proper (T.derive conjecture premises rule) := by
  unfold Theory.derive
  split
  next p hp => exact (proper_sequence.mp hpremises).mem (List.mem_of_find?_eq_some hp)
  next =>
    have htheorem :
        Proper (liftM (Theorem.ofInference conjecture ⟨rule, premises⟩) : Run Theorem) :=
      Theorem.ofInference_proper hconjecture (proper_inference.mpr ⟨hrule, hpremises⟩)
    refine htheorem.andThen fun t _ ht => ?_
    have hextending : Proper (T.extending [.proved t]) :=
      extend_proper hT (Proper.cons ht proper_nil)
    refine hextending.andThen fun T' _ hT' => ?_
    exact Proper.andThen (proper_unit ()) fun _ _ _ => hT'.prod ht

namespace Search

variable {T : Theory} {target : Formula} {o : Outcome}

theorem failure_proper (hT : Proper T) : Proper (Outcome.failure T) :=
  hT.prod proper_nil

/-- With proper rules, the premises that are needed for a well-formed target are well formed, and
an error about a variable in a well-formed formula is proper. -/
theorem regime_proper {rules : List InferenceRule} (hrules : Proper rules) :
    Regime rules Formula.WellFormed Proper where
  occurs rule hrule φ hφ v hv _ := by
    obtain ⟨-, hvars, -⟩ := proper_transformation.mp (proper_rule.mp (hrules.mem hrule))
    exact ((proper_enumeration.mp hvars).mem hv).prod (proper_formula.mpr hφ)
  premises rule hrule target pool m htarget hpool hm p hp := by
    have ht : Proper rule.transformation := proper_rule.mp (hrules.mem hrule)
    have hm : Proper m := hm.proper ht (proper_formula.mpr htarget)
      (proper_list.mpr fun φ hφ => proper_formula.mpr (hpool φ hφ))
    have hpremises := Transformation.necessaryPremises_proper ht hm
    exact proper_formula.mp ((proper_sequence.mp hpremises).mem hp)

/-- What is known of the parts of a proper theory in which a well-formed target is searched for. -/
theorem attempt_proper (hT : Proper T) (htarget : Proper target) :
    Regime T.rules Formula.WellFormed Proper ∧ AllGood Formula.WellFormed T ∧
      ∀ rule ∈ T.rules, Attempt Formula.WellFormed Proper (settled T) T target rule := by
  have hregime := regime_proper (proper_list.mpr (Theory.proper_iff.mp hT).2)
  have hgood : AllGood Formula.WellFormed T :=
    fun φ hφ => proper_formula.mp (Theory.isValid_proper hT hφ)
  refine ⟨hregime, hgood, fun rule hrule => ?_⟩
  exact hregime.attempt hgood (proper_formula.mp htarget) hrule fun premises _ =>
    settled_ensures hgood premises

/-- A reliable search appends theorems and hands over derivations of the theory, so only its errors
have to be looked at. -/
theorem Reliable.proper {search : Theory → Formula → Run Outcome} (hsearch : Reliable search)
    (hT : Proper T) {post : Outcome → Prop} (hensures : (search T target).Ensures post Proper) :
    Proper (search T target) := by
  change Proper (search T target).result
  cases h : (search T target).result with
  | error e => exact hensures.error e h
  | ok o =>
    cases hsuccess : o.success with
    | false =>
      rw [hsearch.failure h hsuccess]
      exact failure_proper hT
    | true =>
      have hfinds := hsearch.success h hsuccess
      obtain ⟨ths, hths⟩ := hfinds.adds
      obtain ⟨d, hd, hderivations, -⟩ := hfinds.justified
      have htheory : Proper o.theory := hths.followed.proper hT
      have hds : Proper o.derivations := by
        rw [hderivations]
        exact ((proper_theory.mp htheory).mem hd).cons proper_nil
      exact htheory.prod hds

end Search

namespace Strategy

variable {T : Theory} {target : Formula}

theorem searchFirst_proper {strategies : List Strategy}
    (h : ∀ s ∈ strategies, Proper (s.search T target)) (hT : Proper T) :
    Proper (searchFirst strategies T target) := by
  induction strategies with
  | nil => exact Search.failure_proper hT
  | cons s rest ih =>
    rw [searchFirst]
    refine (h s (by simp)).andThen fun o _ ho => ?_
    split
    · exact ho
    · exact ih fun r hr => h r (by simp [hr])

theorem search_proper (s : Strategy) (hT : Proper T) (htarget : Proper target) :
    Proper (s.search T target) := by
  obtain ⟨hregime, hgood, hattempt⟩ := Search.attempt_proper hT htarget
  induction s using induct with
  | exactMatch =>
    exact Search.exact_reliable.proper hT (Run.ensures_within (Search.ensures_orElse
      (Search.lookUp_ensures hgood target) (Search.fail_ensures hgood none)))
  | singleLevel =>
    exact Search.singleLevel_reliable.proper hT (Search.singleLevel_ensures hgood hattempt)
  | recursive options =>
    exact (Search.recursive_reliable options.maxDepth).proper hT
      (Search.step_ensures hregime hgood (proper_formula.mp htarget) List.not_mem_nil)
  | withRule rule =>
    exact (Search.withRule_reliable rule).proper hT
      (Search.withRule_ensures hgood (hattempt rule))
  | escalating strategies ih => exact searchFirst_proper ih hT

end Strategy

namespace Search

variable {search : Theory → Formula → Run Outcome}

theorem collect_proper (hsearch : ∀ T target, Proper T → Proper target → Proper (search T target))
    {T : Theory} {targets : List Formula} (hT : Proper T) (htargets : Proper targets) :
    Proper (collect search T targets) := by
  induction targets generalizing T with
  | nil => exact proper_some.mpr (hT.prod proper_nil)
  | cons target targets ih =>
    rw [collect]
    refine (hsearch T target hT (htargets.mem (by simp))).andThen fun o _ ho => ?_
    obtain ⟨htheory, hds⟩ : Proper o.theory ∧ Proper o.derivations := proper_prod.mp ho
    split
    · refine (ih htheory (htargets.subset (by simp))).andThen fun found? _ hfound? => ?_
      cases found? with
      | none => exact proper_none
      | some found =>
        obtain ⟨hT', hds'⟩ := proper_prod.mp (proper_some.mp hfound?)
        refine proper_some.mpr (hT'.prod (proper_list.mpr fun d hd => ?_))
        rcases List.mem_append.mp hd with hd | hd
        · exact hds.mem hd
        · exact hds'.mem hd
    · exact proper_none

theorem sequence_proper
    (hsearch : ∀ T target, Proper T → Proper target → Proper (search T target)) {T : Theory}
    {targets : List Formula} (hT : Proper T) (htargets : Proper targets) :
    Proper (sequence search T targets) := by
  refine (collect_proper hsearch hT htargets).andThen fun found? _ hfound? => ?_
  cases found? with
  | none => exact failure_proper hT
  | some found =>
    obtain ⟨hT', hds⟩ := proper_prod.mp (proper_some.mp hfound?)
    exact hT'.prod hds

end Search

/-! ## Reading -/

theorem Sequence.ofFormula_proper {φ : Formula} (h : Proper φ) : Proper (ofFormula φ) := by
  unfold ofFormula
  split
  · exact proper_sequence.mpr (Formula.terms_proper h)
  · exact proper_sequence.mpr (Formula.terms_proper h)
  · exact h

theorem Enumeration.ofFormula_proper {φ : Formula} (h : Proper φ) : Proper (ofFormula φ) := by
  unfold ofFormula
  split
  · exact ofList_proper (Formula.terms_proper h)
  · exact ofList_proper (Formula.terms_proper h)
  · exact h

theorem Map.ofFormula_proper {φ : Formula} (h : Proper φ) : Proper (ofFormula φ) := by
  unfold ofFormula
  split
  next domain codomain =>
    have hterms := Formula.terms_proper h
    refine (Enumeration.ofFormula_proper (hterms.mem (by simp))).bind fun e _ he => ?_
    exact (Sequence.ofFormula_proper (hterms.mem (by simp))).bind fun s _ hs => ofParts_proper he hs
  · exact h

theorem Transformation.ofFormula_proper {φ : Formula} (h : Proper φ) : Proper (ofFormula φ) := by
  unfold ofFormula
  split
  next conclusion vars premises =>
    have hterms := Formula.terms_proper h
    refine (Sequence.ofFormula_proper (hterms.mem (by simp))).bind fun s _ hs => ?_
    refine (Enumeration.ofFormula_proper (hterms.mem (by simp))).bind fun e _ he => ?_
    exact ofParts_proper hs (hterms.mem (by simp)) he
  · exact h

theorem Axiom.ofFormula_proper {φ : Formula} (h : Proper φ) : Proper (ofFormula φ) := by
  unfold ofFormula
  split
  · exact h
  · exact h

theorem InferenceRule.ofFormula_proper {φ : Formula} (h : Proper φ) : Proper (ofFormula φ) := by
  unfold ofFormula
  split
  next transformation =>
    have hterm : Proper transformation := (Formula.terms_proper h).mem (by simp)
    exact (Transformation.ofFormula_proper hterm).lift.bind fun t _ ht => proper_rule.mpr ht
  · exact h

theorem Inference.ofFormula_proper {φ : Formula} (h : Proper φ) : Proper (ofFormula φ) := by
  unfold ofFormula
  split
  next rule premises =>
    have hterms := Formula.terms_proper h
    refine (InferenceRule.ofFormula_proper (hterms.mem (by simp))).bind fun r _ hr => ?_
    have hpremises : Proper premises := hterms.mem (by simp)
    exact (Sequence.ofFormula_proper hpremises).lift.bind fun s _ hs =>
      proper_inference.mpr ⟨hr, hs⟩
  · exact h

theorem Theorem.ofFormula_proper {φ : Formula} (h : Proper φ) : Proper (ofFormula φ) := by
  unfold ofFormula
  split
  next statement inference =>
    have hterms := Formula.terms_proper h
    refine (Inference.ofFormula_proper (hterms.mem (by simp))).bind fun i _ hi => ?_
    exact ofInference_proper (hterms.mem (by simp)) hi
  · exact h

namespace Derivation

theorem ofFormula_proper {φ : Formula} (h : Proper φ) : Proper (ofFormula φ) := by
  unfold ofFormula
  split
  · exact (Axiom.ofFormula_proper h).bind fun a _ ha => ha
  · exact (InferenceRule.ofFormula_proper h).bind fun r _ hr => hr
  · exact (Theorem.ofFormula_proper h).bind fun t _ ht => ht
  · exact h

theorem ofFormulas_proper {φs : List Formula} (h : Proper φs) : Proper (ofFormulas φs) := by
  induction φs with
  | nil => exact proper_nil
  | cons φ φs ih =>
    rw [ofFormulas]
    refine (ofFormula_proper (h.mem (by simp))).bind fun d _ hd => ?_
    exact (ih (h.subset (by simp))).bind fun ds _ hds => hd.cons hds

end Derivation

theorem Theory.ofFormula_proper {φ : Formula} (h : Proper φ) : Proper (ofFormula φ) := by
  unfold ofFormula
  split
  · exact (Derivation.ofFormulas_proper (Formula.terms_proper h)).bind fun ds _ hds =>
      ofList_proper hds
  · exact h

theorem Axiomatization.ofFormula_proper {φ : Formula} (h : Proper φ) : Proper (ofFormula φ) := by
  unfold ofFormula
  split
  · exact (Derivation.ofFormulas_proper (Formula.terms_proper h)).bind fun ds _ hds =>
      ofList_proper hds
  · exact h

end Deduction
