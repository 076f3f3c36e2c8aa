import Deduction.Collection.Repeat
import Deduction.Derivation

/-!
# Which lists of derivations are theories

A list of derivations is accepted when it has no duplicates and every theorem in it cites what
stands before it: each premise of its inference is stated earlier, and its rule stands earlier.

Duplicates are found by enumerating the formulas of the list (`Derivation.enumerate`).  `checkFrom`
decides the rest theorem by theorem and names the first citation that fails, the premises of a
theorem in order and then its rule.  What a citation refers to is the *first* derivation that fits;
if that one is not earlier, no derivation that fits is.  `checkFrom_eq_ok_iff` ties the check to the
definition.
-/

namespace Deduction

/-- The derivations `earlier` state every premise of the theorem and have its rule. -/
structure Cites (earlier : List Derivation) (t : Theorem) : Prop where
  /-- Every premise is stated. -/
  premises : ∀ p ∈ t.inference.premises.elements, ∃ d ∈ earlier, d.statement? = some p
  /-- The rule is there. -/
  rule : .rule t.inference.rule ∈ earlier

theorem Cites.mono {earlier later : List Derivation} {t : Theorem} (h : Cites earlier t)
    (hsub : earlier ⊆ later) : Cites later t where
  premises p hp := by
    obtain ⟨d, hd, hstated⟩ := h.premises p hp
    exact ⟨d, hsub hd, hstated⟩
  rule := hsub h.rule

/-- No derivation repeats, and every theorem cites derivations that stand before it. -/
structure Accepted (ds : List Derivation) : Prop where
  /-- No derivation repeats. -/
  nodup : ds.Nodup
  /-- A theorem cites what stands before it. -/
  cites : ∀ i t, ds[i]? = some (.proved t) → Cites (ds.take i) t

theorem accepted_nil : Accepted [] where
  nodup := List.nodup_nil
  cites := by simp

/-! ## Duplicates -/

/-- The enumeration of the formulas of derivations, refused if one repeats. -/
def Derivation.enumerate (ds : List Derivation) : Except Error Enumeration :=
  liftM (Enumeration.ofList (ds.map (·.formula)))

theorem nodup_of_enumerate {ds : List Derivation} {e : Enumeration}
    (h : Derivation.enumerate ds = .ok e) : ds.Nodup := by
  have helements : e.elements = ds.map (·.formula) := Enumeration.ofList_eq_ok.mp (lift_eq_ok.mp h)
  have hnodup : (ds.map (·.formula)).Nodup := helements ▸ e.nodup
  exact (List.pairwise_map.mp hnodup).imp fun hne heq => hne (congrArg Derivation.formula heq)

/-! ## The check -/

/-- The index of the first derivation that states `φ`. -/
def statedAt? (ds : List Derivation) (φ : Formula) : Option Nat :=
  ds.findIdx? fun d => d.statement? = some φ

/-- The index of the rule. -/
def ruleAt? (ds : List Derivation) (r : InferenceRule) : Option Nat :=
  ds.findIdx? (· = .rule r)

/-- Checks that a premise of the theorem at `index` is stated earlier. -/
def checkPremise (ds : List Derivation) (index : Nat) (t : Theorem) (premise : Formula) :
    Except Error Unit :=
  match statedAt? ds premise with
  | none => .error (.premiseAbsent premise t.formula)
  | some position =>
    if position < index then .ok ()
    else .error (.premisePosterior premise t.formula index position)

/-- Checks the premises of the theorem at `index` in order. -/
def checkPremises (ds : List Derivation) (index : Nat) (t : Theorem) :
    (premises : List Formula) → Except Error Unit
  | [] => .ok ()
  | p :: ps => do
    checkPremise ds index t p
    checkPremises ds index t ps

/-- Checks that the rule of the theorem at `index` stands earlier. -/
def checkRule (ds : List Derivation) (index : Nat) (t : Theorem) : Except Error Unit :=
  match ruleAt? ds t.inference.rule with
  | none => .error (.ruleAbsent t.inference.rule.formula t.formula)
  | some position =>
    if position < index then .ok ()
    else .error (.rulePosterior t.inference.rule.formula t.formula index position)

/-- Checks what the theorem at `index` cites. -/
def checkTheorem (ds : List Derivation) (index : Nat) (t : Theorem) : Except Error Unit := do
  checkPremises ds index t t.inference.premises.elements
  checkRule ds index t

/-- Checks the theorems of `rest`, the derivations of `ds` from `index` on. -/
def checkFrom (ds : List Derivation) (index : Nat) : (rest : List Derivation) → Except Error Unit
  | [] => .ok ()
  | .proved t :: rest => do
    checkTheorem ds index t
    checkFrom ds (index + 1) rest
  | _ :: rest => checkFrom ds (index + 1) rest

/-! ## The check decides acceptance -/

/-- The first index at which a test succeeds lies below `n` exactly when it succeeds on one of the
first `n` elements. -/
theorem exists_findIdx?_lt_iff {α : Type} (test : α → Bool) (xs : List α) (n : Nat) :
    (∃ i, xs.findIdx? test = some i ∧ i < n) ↔ ∃ x ∈ xs.take n, test x = true := by
  induction xs generalizing n with
  | nil => simp
  | cons x xs ih =>
    cases n with
    | zero => simp
    | succ n =>
      by_cases hx : test x = true
      · simp [List.findIdx?_cons, hx]
      · simp only [List.findIdx?_cons, hx, List.take_succ_cons, List.mem_cons, ← ih,
          exists_eq_or_imp]
        cases xs.findIdx? test <;> simp

theorem checkPremise_eq_ok_iff {ds : List Derivation} {index : Nat} {t : Theorem} {p : Formula} :
    checkPremise ds index t p = .ok () ↔ ∃ d ∈ ds.take index, d.statement? = some p := by
  have h := exists_findIdx?_lt_iff (fun d : Derivation => d.statement? = some p) ds index
  simp only [decide_eq_true_eq] at h
  rw [← h, checkPremise, statedAt?]
  cases ds.findIdx? fun d => d.statement? = some p <;> simp

theorem checkPremises_eq_ok_iff {ds : List Derivation} {index : Nat} {t : Theorem}
    {ps : List Formula} :
    checkPremises ds index t ps = .ok () ↔
      ∀ p ∈ ps, ∃ d ∈ ds.take index, d.statement? = some p := by
  induction ps with
  | nil => simp [checkPremises]
  | cons p ps ih =>
    rw [List.forall_mem_cons, ← checkPremise_eq_ok_iff (t := t), ← ih, checkPremises]
    cases checkPremise ds index t p <;> simp [bind, Except.bind]

theorem checkRule_eq_ok_iff {ds : List Derivation} {index : Nat} {t : Theorem} :
    checkRule ds index t = .ok () ↔ .rule t.inference.rule ∈ ds.take index := by
  have h := exists_findIdx?_lt_iff (fun d : Derivation => d = .rule t.inference.rule) ds index
  simp only [decide_eq_true_eq, exists_eq_right] at h
  rw [← h, checkRule, ruleAt?]
  cases ds.findIdx? fun d => d = .rule t.inference.rule <;> simp

theorem checkTheorem_eq_ok_iff {ds : List Derivation} {index : Nat} {t : Theorem} :
    checkTheorem ds index t = .ok () ↔ Cites (ds.take index) t := by
  have h : Cites (ds.take index) t ↔
      checkPremises ds index t t.inference.premises.elements = .ok () ∧
        checkRule ds index t = .ok () := by
    rw [checkPremises_eq_ok_iff, checkRule_eq_ok_iff]
    exact ⟨fun h => ⟨h.premises, h.rule⟩, fun h => ⟨h.1, h.2⟩⟩
  rw [h, checkTheorem]
  cases checkPremises ds index t t.inference.premises.elements <;> simp [bind, Except.bind]

/-- The check succeeds exactly when the theorems that it looks at cite what stands before them. -/
theorem checkFrom_eq_ok_iff {ds rest : List Derivation} {index : Nat} :
    checkFrom ds index rest = .ok () ↔
      ∀ i t, rest[i]? = some (.proved t) → Cites (ds.take (index + i)) t := by
  induction rest generalizing index with
  | nil => simp [checkFrom]
  | cons d rest ih =>
    have hsucc : (∀ i t, (d :: rest)[i]? = some (.proved t) → Cites (ds.take (index + i)) t) ↔
        (∀ t, d = .proved t → Cites (ds.take index) t) ∧
          checkFrom ds (index + 1) rest = .ok () := by
      rw [ih]
      constructor
      · intro h
        refine ⟨fun t ht => by simpa [ht] using h 0 t, fun i t hi => ?_⟩
        have := h (i + 1) t (by simpa using hi)
        rwa [Nat.add_assoc, Nat.add_comm 1 i]
      · rintro ⟨h0, h⟩ i t hi
        cases i with
        | zero => exact h0 t (by simpa using hi)
        | succ i =>
          have := h i t (by simpa using hi)
          rwa [Nat.add_assoc, Nat.add_comm 1 i] at this
    rw [hsucc]
    cases d with
    | stated a => simp [checkFrom]
    | rule r => simp [checkFrom]
    | proved t =>
      rw [checkFrom]
      have ht : checkTheorem ds index t = .ok () ↔ _ := checkTheorem_eq_ok_iff
      simp only [Derivation.proved.injEq, forall_eq', ← ht]
      cases checkTheorem ds index t <;> simp [bind, Except.bind]

end Deduction
