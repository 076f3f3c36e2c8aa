import Deduction.Proofs.Derivability
import Deduction.Proofs.SearchInversion

/-!
# Everything derivable can be derived by hand

Deriving by hand proves one theorem at a time, from premises that are valid by then.  A derivable
formula is justified by a tree of rules, and a theory holds a list of theorems.  To get from the one
to the other, the premises of a rule are made valid one after the other and then the rule is
applied; what has been made valid stays valid, since theorems are only appended.

No step can be refused.  The premises are valid when the rule is applied to them, the rule is there,
and the theorem cites nothing else; a theorem that is there already is not appended again, and that
is no error.  `Theory.derivable_iff_deriveAll` also has the other direction: nothing else can be
derived by hand.
-/

namespace Deduction

namespace Theory

variable {T S S' : Theory} {φ : Formula}

/-! ## Sequences of derivations -/

/-- What to derive, from which premises and by which rule. -/
structure Argument where
  conjecture : Formula
  premises : Sequence
  rule : InferenceRule

/-- Derives by each argument in turn, in the theory that the one before it led to. -/
def deriveAll : Theory → List Argument → Run Theory
  | T, [] => return T
  | T, a :: rest => do
    let (extended, _) ← T.derive a.conjecture a.premises a.rule
    extended.deriveAll rest

open Propositional in
example : (axiomatization.theory.deriveAll [⟨r, ⟨[implies q r, q]⟩, detachment⟩,
    ⟨both r p, ⟨[r, p]⟩, joining⟩]).result = .ok developed := by
  decide

/-- The theory `S` is derived from `T` by hand. -/
def Reaches (T S : Theory) : Prop := ∃ arguments, (T.deriveAll arguments).result = .ok S

theorem Reaches.refl (T : Theory) : T.Reaches T := ⟨[], rfl⟩

theorem deriveAll_append (T : Theory) (as bs : List Argument) :
    T.deriveAll (as ++ bs) = T.deriveAll as >>= fun S => S.deriveAll bs := by
  induction as generalizing T with
  | nil => simp [deriveAll]
  | cons a as ih => simp only [List.cons_append, deriveAll, ih, bind_assoc]

theorem Reaches.trans (h : T.Reaches S) (h' : S.Reaches S') : T.Reaches S' := by
  obtain ⟨as, has⟩ := h
  obtain ⟨bs, hbs⟩ := h'
  refine ⟨as ++ bs, ?_⟩
  rw [deriveAll_append]
  exact Run.bind_eq_ok.mpr ⟨S, has, hbs⟩

/-- Deriving by hand appends a theorem or leaves the theory as it is. -/
theorem derive_followedBy {conjecture : Formula} {premises : Sequence} {rule : InferenceRule}
    {t : Theorem} (h : (T.derive conjecture premises rule).result = .ok (S, t)) :
    ∃ ths, T.FollowedBy ths S := by
  obtain ⟨-, -, -, hderivations⟩ := derive_eq_ok.mp h
  by_cases hmem : .proved t ∈ T.derivations
  · exact ⟨[], by simp [FollowedBy, hderivations, appendNew, hmem]⟩
  · exact ⟨[t], by simp [FollowedBy, hderivations, appendNew, hmem]⟩

theorem Reaches.followedBy (h : T.Reaches S) : ∃ ths, T.FollowedBy ths S := by
  obtain ⟨arguments, h⟩ := h
  induction arguments generalizing T with
  | nil =>
    obtain rfl : T = S := by simpa [deriveAll] using h
    exact ⟨[], T.followedBy_nil⟩
  | cons a rest ih =>
    obtain ⟨⟨T', t⟩, hderive, h⟩ := Run.bind_eq_ok.mp h
    obtain ⟨ths, hths⟩ := derive_followedBy hderive
    obtain ⟨ths', hths'⟩ := ih h
    exact ⟨ths ++ ths', hths.append hths'⟩

/-! ## From trees to sequences -/

/-- Formulas that can be made valid one by one can be made valid together. -/
theorem exists_reaches_all {premises : List Formula}
    (h : ∀ p ∈ premises, ∀ S, T.Reaches S → ∃ S', S.Reaches S' ∧ S'.IsValid p)
    (hS : T.Reaches S) : ∃ S', S.Reaches S' ∧ ∀ p ∈ premises, S'.IsValid p := by
  induction premises generalizing S with
  | nil => exact ⟨S, .refl S, by simp⟩
  | cons p ps ih =>
    obtain ⟨hp, hps⟩ := List.forall_mem_cons.mp h
    obtain ⟨S₁, hS₁, hvalid⟩ := hp S hS
    obtain ⟨S₂, hS₂, hvalids⟩ := ih hps (hS.trans hS₁)
    obtain ⟨ths, hths⟩ := hS₂.followedBy
    exact ⟨S₂, hS₁.trans hS₂, List.forall_mem_cons.mpr ⟨hths.isValid hvalid, hvalids⟩⟩

/-- From every theory that is derived by hand one gets on to a theory in which the derivable formula
is valid. -/
theorem Derivable.exists_reaches (h : T.Derivable φ) (hS : T.Reaches S) :
    ∃ S', S.Reaches S' ∧ S'.IsValid φ := by
  induction h generalizing S with
  | @ofAxiom a ha =>
    obtain ⟨ths, hths⟩ := hS.followedBy
    have hvalid : T.IsValid a.statement := isValid_iff.mpr ⟨_, mem_axioms.mp ha, rfl⟩
    exact ⟨S, .refl S, hths.isValid hvalid⟩
  | @ofRule rule premises conclusion hrule _ hconclusion ih =>
    let sequence : Sequence := ⟨premises⟩
    obtain ⟨S₁, hS₁, hvalid⟩ : ∃ S₁, S.Reaches S₁ ∧ ∀ p ∈ sequence.elements, S₁.IsValid p :=
      exists_reaches_all (fun p hp S hS => ih p hp hS) hS
    obtain ⟨ths, hths⟩ := (hS.trans hS₁).followedBy
    have hmem : .rule rule ∈ S₁.derivations := mem_rules.mp (hths.rules_eq ▸ hrule)
    obtain ⟨S₂, t, hderive⟩ := derive_of_valid hvalid hmem hconclusion
    obtain ⟨-, hstatement, -, hderivations⟩ := derive_eq_ok.mp hderive
    have hproved : .proved t ∈ S₂.derivations := by simp [hderivations]
    refine ⟨S₂, hS₁.trans ⟨[⟨conclusion, sequence, rule⟩], ?_⟩,
      isValid_iff.mpr ⟨_, hproved, by simp [Derivation.statement?, hstatement]⟩⟩
    exact Run.bind_eq_ok.mpr ⟨(S₂, t), hderive, rfl⟩

theorem Derivable.congr (h : T.Derivable φ) (haxioms : T.axioms = S.axioms)
    (hrules : T.rules = S.rules) : S.Derivable φ := by
  induction h with
  | ofAxiom ha => exact .ofAxiom (haxioms ▸ ha)
  | ofRule hrule _ hconclusion ih => exact .ofRule (hrules ▸ hrule) ih hconclusion

/-- A formula is derivable in a theory exactly when finitely many derivations by hand, none of which
is refused, make it valid.  The axioms and the rules stay those of the theory. -/
theorem derivable_iff_deriveAll {T : Theory} {φ : Formula} :
    T.Derivable φ ↔ ∃ arguments T', (T.deriveAll arguments).result = .ok T' ∧ T'.IsValid φ ∧
      T'.axioms = T.axioms ∧ T'.rules = T.rules := by
  constructor
  · intro h
    obtain ⟨T', hT', hvalid⟩ := h.exists_reaches (.refl T)
    obtain ⟨ths, hths⟩ := hT'.followedBy
    obtain ⟨arguments, harguments⟩ := hT'
    exact ⟨arguments, T', harguments, hvalid, hths.axioms_eq, hths.rules_eq⟩
  · rintro ⟨arguments, T', -, hvalid, haxioms, hrules⟩
    obtain ⟨d, hd, hstated⟩ := isValid_iff.mp hvalid
    obtain ⟨i, hi⟩ := List.mem_iff_getElem?.mp hd
    exact (derivable_at i hi hstated).congr haxioms hrules

end Theory

end Deduction
