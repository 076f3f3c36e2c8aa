import Deduction.Proofs.Extensions
import Deduction.Proofs.RuleApplication
import Deduction.Proofs.SearchInversion

/-!
# What can be derived by hand, and why the rest is refused

Deriving by hand checks a theorem several times over.  First the premises are looked up, then the
rule is applied to them, and in the end the theory is extended, which checks again what the theorem
cites.  `Theory.derive_exact` says what this comes to: it succeeds when the premises are valid, the
rule is one of the theory and leads from the premises to the conjecture, and otherwise the first of
these reasons decides the error.

Of the last check only one part is left by then, that the rule is there.  The premises are valid, so
they are stated, and what is stated in the theory stands before a theorem that is appended to it.  A
rule of the theory stands before it as well, so nothing is ever found too late.  And if the theorem
stands in the theory already, nothing is appended and nothing checked; but then the theory has
accepted the theorem, and its rule is there (`Accepted.cites_of_mem`).
-/

namespace Deduction

/-! ## Theorems to be appended -/

/-- A theorem of an accepted list cites what stands there. -/
theorem Accepted.cites_of_mem {ds : List Derivation} {t : Theorem} (h : Accepted ds)
    (hmem : .proved t ∈ ds) : Cites ds t := by
  obtain ⟨i, hi⟩ := List.mem_iff_getElem?.mp hmem
  exact (h.cites i t hi).mono (List.take_subset i ds)

/-- The arguments of a transformation are refused with one of two codes. -/
theorem Transformation.code_of_apply_eq_error {t : Transformation} {arguments : List Formula}
    {e : Error} (h : t.apply arguments = .error e) : e.code = "THY-001" ∨ e.code = "SYN-006" := by
  have hno : ∀ c, t.apply arguments ≠ .ok c := by simp [h]
  obtain ⟨e', code, hrefused⟩ := exists_refused hno
  have hcode : code = "THY-001" ∨ code = "SYN-006" := by cases hrefused <;> simp
  obtain ⟨he', rfl⟩ := apply_of_refused hrefused
  obtain rfl : e' = e := Except.error.inj (he'.symm.trans h)
  exact hcode

namespace Theory

variable {T T' : Theory} {conjecture : Formula} {premises : Sequence} {rule : InferenceRule}
  {t : Theorem} {e : Error}

/-- A theorem cites what is in a theory when its premises are valid and its rule is there. -/
theorem cites_iff : Cites T.derivations t ↔
    (∀ p ∈ t.inference.premises.elements, T.IsValid p) ∧ t.inference.rule ∈ T.rules := by
  simp only [isValid_iff, mem_rules]
  exact ⟨fun h => ⟨h.premises, h.rule⟩, fun h => ⟨h.1, h.2⟩⟩

/-- A theorem whose premises are valid is refused by a theory that does not have its rule. -/
theorem extend_of_ruleAbsent (hvalid : ∀ p ∈ t.inference.premises.elements, T.IsValid p)
    (hrule : t.inference.rule ∉ T.rules) :
    T.extend [.proved t] = .error (.ruleAbsent t.inference.rule.formula t.formula) := by
  have hnew : .proved t ∉ T.derivations := fun hmem =>
    hrule (cites_iff.mp (T.accepted.cites_of_mem hmem)).2
  have happend : appendNew T.derivations [.proved t] = T.derivations ++ [.proved t] := by
    simp [appendNew, hnew]
  have hpremises : checkPremises (T.derivations ++ [.proved t]) T.derivations.length t
      t.inference.premises.elements = .ok () := by
    rw [checkPremises_eq_ok_iff, List.take_left]
    exact fun p hp => isValid_iff.mp (hvalid p hp)
  have habsent : ∀ d ∈ T.derivations ++ [.proved t],
      ¬ (Citation.rule t.inference.rule).Fits d := by
    intro d hd hfits
    rw [Citation.fits_rule] at hfits
    subst hfits
    simp [← mem_rules, hrule] at hd
  have hruleAbsent : checkRule (T.derivations ++ [.proved t]) T.derivations.length t =
      .error (.ruleAbsent t.inference.rule.formula t.formula) := by
    rw [checkRule_eq_check]
    exact Citation.check_eq_error_iff.mpr (.absent habsent)
  rw [extend_eq_error, newIn, happend, List.drop_left, checkFrom, checkTheorem, hpremises,
    hruleAbsent]
  rfl

/-! ## Success -/

/-- After a derivation by hand, the theory is followed by the theorem or has it already, and either
way it has what the theorem cites. -/
theorem cites_of_extends (h : T'.derivations = appendNew T.derivations [.proved t]) :
    Cites T.derivations t := by
  by_cases hmem : .proved t ∈ T.derivations
  · exact T.accepted.cites_of_mem hmem
  · have happend : T'.derivations = T.derivations ++ [.proved t] := by simp [h, appendNew, hmem]
    exact (happend ▸ T'.accepted).cites_last

theorem exists_derive_iff :
    (∃ T' t, (T.derive conjecture premises rule).result = .ok (T', t)) ↔
      (∀ p ∈ premises.elements, T.IsValid p) ∧ rule ∈ T.rules ∧
        rule.transformation.apply premises.elements = .ok conjecture := by
  constructor
  · rintro ⟨T', t, h⟩
    obtain ⟨hvalid, rfl, hinference, hT'⟩ := derive_eq_ok.mp h
    have hrule := (cites_iff.mp (cites_of_extends hT')).2
    have happly := t.derives
    rw [hinference] at hrule happly
    exact ⟨hvalid, hrule, happly⟩
  · rintro ⟨hvalid, hrule, happly⟩
    exact derive_of_valid hvalid (mem_rules.mp hrule) happly

/-! ## Refusals -/

/-- Why a derivation by hand is refused, with the code of the error.  Each reason supposes that the
ones before it do not apply. -/
inductive DeriveRefused (T : Theory) (conjecture : Formula) (premises : Sequence)
    (rule : InferenceRule) : Error → String → Prop where
  /-- A premise is not valid.  The first one is named. -/
  | premise {i : Nat} {p : Formula} (hp : premises.elements[i]? = some p) (hnot : ¬ T.IsValid p)
      (hbefore : ∀ j q, j < i → premises.elements[j]? = some q → T.IsValid q) :
      DeriveRefused T conjecture premises rule (.premiseNotValid p) "THY-007"
  /-- The rule draws no conclusion from the premises.  The error is the one of applying it. -/
  | application {e : Error} (hvalid : ∀ p ∈ premises.elements, T.IsValid p)
      (happly : rule.transformation.apply premises.elements = .error e)
      (hcode : e.code = "THY-001" ∨ e.code = "SYN-006") :
      DeriveRefused T conjecture premises rule e e.code
  /-- The rule draws another conclusion. -/
  | conclusion {derived : Formula} (hvalid : ∀ p ∈ premises.elements, T.IsValid p)
      (happly : rule.transformation.apply premises.elements = .ok derived)
      (hother : derived ≠ conjecture) :
      DeriveRefused T conjecture premises rule (.notDerived conjecture derived) "THY-002"
  /-- The rule is not one of the theory. -/
  | rule (hvalid : ∀ p ∈ premises.elements, T.IsValid p)
      (happly : rule.transformation.apply premises.elements = .ok conjecture)
      (habsent : rule ∉ T.rules) :
      DeriveRefused T conjecture premises rule
        (.ruleAbsent rule.formula (Theorem.mk conjecture ⟨rule, premises⟩ happly).formula) "THY-005"

theorem derive_of_ofInference_eq_error (hvalid : ∀ p ∈ premises.elements, T.IsValid p)
    (h : Theorem.ofInference conjecture ⟨rule, premises⟩ = .error e) :
    (T.derive conjecture premises rule).result = .error e := by
  rw [derive_result hvalid, h]
  rfl

/-- A refusal is what the derivation comes to. -/
theorem derive_of_refused {code : String}
    (h : T.DeriveRefused conjecture premises rule e code) :
    (T.derive conjecture premises rule).result = .error e := by
  cases h with
  | @premise i p hp hnot hbefore =>
    apply derive_of_find
    obtain ⟨hlt, hget⟩ := List.getElem?_eq_some_iff.mp hp
    rw [List.find?_eq_some_iff_getElem]
    refine ⟨by simpa using hnot, i, hlt, hget, fun j hj => ?_⟩
    simpa using hbefore j _ hj (List.getElem?_eq_getElem (by omega))
  | application hvalid happly hcode =>
    apply derive_of_ofInference_eq_error hvalid
    exact Theorem.ofInference_eq_error.mpr (.inl happly)
  | @conclusion derived hvalid happly hother =>
    apply derive_of_ofInference_eq_error hvalid
    exact Theorem.ofInference_eq_error.mpr (.inr ⟨derived, happly, hother, rfl⟩)
  | rule hvalid happly habsent =>
    have hmade : Theorem.ofInference conjecture ⟨rule, premises⟩ =
        .ok ⟨conjecture, ⟨rule, premises⟩, happly⟩ :=
      Theorem.ofInference_eq_ok.mpr ⟨rfl, rfl⟩
    have hextend := extend_of_ruleAbsent (T := T)
      (t := ⟨conjecture, ⟨rule, premises⟩, happly⟩) hvalid habsent
    rw [derive_result hvalid, hmade]
    change (T.extend _ >>= _) = _
    rw [hextend]
    rfl

/-- If nothing is derived, there is a reason to refuse it. -/
theorem exists_deriveRefused
    (h : ¬ ∃ T' t, (T.derive conjecture premises rule).result = .ok (T', t)) :
    ∃ e, T.DeriveRefused conjecture premises rule e e.code := by
  cases hfind : premises.elements.find? (fun q => ¬ T.IsValid q) with
  | some p =>
    obtain ⟨hnot, i, hlt, hget, hbefore⟩ := List.find?_eq_some_iff_getElem.mp hfind
    refine ⟨_, .premise (List.getElem?_eq_some_iff.mpr ⟨hlt, hget⟩) (by simpa using hnot) ?_⟩
    intro j q hj hq
    obtain ⟨hjlt, rfl⟩ := List.getElem?_eq_some_iff.mp hq
    simpa using hbefore j hj
  | none =>
    have hvalid : ∀ p ∈ premises.elements, T.IsValid p := by simpa using hfind
    cases happly : rule.transformation.apply premises.elements with
    | error e =>
      have hcode := Transformation.code_of_apply_eq_error happly
      exact ⟨e, .application hvalid happly hcode⟩
    | ok derived =>
      by_cases hderived : derived = conjecture
      · subst hderived
        exact ⟨_, .rule hvalid happly fun hrule =>
          h (exists_derive_iff.mpr ⟨hvalid, hrule, happly⟩)⟩
      · exact ⟨_, .conclusion hvalid happly hderived⟩

theorem derive_eq_error_iff :
    (T.derive conjecture premises rule).result = .error e ↔
      T.DeriveRefused conjecture premises rule e e.code := by
  constructor
  · intro h
    have hno : ¬ ∃ T' t, (T.derive conjecture premises rule).result = .ok (T', t) := by simp [h]
    obtain ⟨e', hrefused⟩ := exists_deriveRefused hno
    obtain rfl : e' = e := Except.error.inj ((derive_of_refused hrefused).symm.trans h)
    exact hrefused
  · exact derive_of_refused

/-- The codes of the errors that deriving by hand can end with. -/
theorem DeriveRefused.code_mem {code : String}
    (h : T.DeriveRefused conjecture premises rule e code) :
    code ∈ ["THY-007", "THY-001", "SYN-006", "THY-002", "THY-005"] := by
  cases h with
  | application _ _ hcode => rcases hcode with hcode | hcode <;> simp [hcode]
  | _ => simp

/-- Deriving by hand succeeds exactly when it should.  The premises have to be valid, and the rule
has to be one of the theory and to lead from them to the conjecture.  Then the theorem states the
conjecture, by the rule and the premises, and the theory is followed by it, unless it has the
theorem already and stays as it is.  Otherwise the error is for the first of the reasons that a
premise is not valid, that applying the rule is an error, that it leads to something else, and that
the rule is not there; so a premise or a rule that is cited too early, a premise that is cited and
absent, and a duplicate are never reported. -/
theorem derive_exact (T : Theory) (conjecture : Formula) (premises : Sequence)
    (rule : InferenceRule) :
    ((∃ T' t, (T.derive conjecture premises rule).result = .ok (T', t)) ↔
      (∀ p ∈ premises.elements, T.IsValid p) ∧ rule ∈ T.rules ∧
        rule.transformation.apply premises.elements = .ok conjecture) ∧
    (∀ T' t, (T.derive conjecture premises rule).result = .ok (T', t) →
      t.statement = conjecture ∧ t.inference = ⟨rule, premises⟩ ∧
        (.proved t ∈ T.derivations ∧ T' = T ∨
          .proved t ∉ T.derivations ∧ T'.derivations = T.derivations ++ [.proved t])) ∧
    (∀ e, (T.derive conjecture premises rule).result = .error e ↔
      T.DeriveRefused conjecture premises rule e e.code) ∧
    ∀ e, (T.derive conjecture premises rule).result = .error e →
      e.code ∉ ["THY-003", "THY-004", "THY-006", "SYN-002"] := by
  refine ⟨exists_derive_iff, fun T' t h => ?_, fun e => derive_eq_error_iff, fun e h => ?_⟩
  · obtain ⟨-, hstatement, hinference, hT'⟩ := derive_eq_ok.mp h
    refine ⟨hstatement, hinference, ?_⟩
    by_cases hmem : .proved t ∈ T.derivations
    · exact .inl ⟨hmem, Theory.ext (by simp [hT', appendNew, hmem])⟩
    · exact .inr ⟨hmem, by simp [hT', appendNew, hmem]⟩
  · have hcode := (derive_eq_error_iff.mp h).code_mem
    generalize e.code = code at hcode ⊢
    revert code
    decide

open Propositional in
-- A theorem is derived a second time, and a rule that is not there is found out last.
example :
    (developed.derive r ⟨[implies q r, q]⟩ detachment).result = .ok (developed, detached) ∧
    (developed.derive r ⟨[implies q r, q]⟩ (detachmentOf r)).result =
      .error (.ruleAbsent (detachmentOf r).formula
        (Theorem.mk r ⟨detachmentOf r, ⟨[implies q r, q]⟩⟩ rfl).formula) := by
  decide

end Theory

end Deduction
