import Deduction.Proofs.Encoding
import Deduction.Proofs.Theories

/-!
# Which lists are refused, and why

A list of derivations becomes a theory exactly when no formula of a derivation repeats and every
theorem cites what stands before it.  `Theory.ofList_exact` says this and names the error in every
other case.

A theorem cites its premises in order and then its rule; a `Citation` is one of these.  What is
cited may be stated by several derivations, and the check looks at the first of them only.  That
loses nothing: when the first one is not earlier, none is.  So a citation is refused in one of two
ways, because nothing in the list fits it or because the first thing that fits comes too late
(`Citation.Refused`), and what is reported is the first citation that is refused in the first
theorem that has one.
-/

namespace Deduction

/-! ## Citations -/

/-- Something that a theorem cites. -/
inductive Citation where
  /-- A statement that the theorem is inferred from. -/
  | premise (φ : Formula)
  /-- The rule that the theorem is inferred by. -/
  | rule (r : InferenceRule)

/-- What a theorem cites: its premises in order, then its rule. -/
def Theorem.citations (t : Theorem) : List Citation :=
  t.inference.premises.elements.map .premise ++ [.rule t.inference.rule]

namespace Citation

/-- The derivation is what is cited: it states the premise, or it is a rule with the formula of the
cited one. -/
def Fits : Citation → Derivation → Prop
  | premise φ, d => d.statement? = some φ
  | rule r, d => ∃ s, d = .rule s ∧ s.formula = r.formula

theorem fits_rule {r : InferenceRule} {d : Derivation} : (rule r).Fits d ↔ d = .rule r := by
  constructor
  · rintro ⟨s, rfl, h⟩
    exact Derivation.formula_inj.mp h
  · rintro rfl
    exact ⟨r, rfl, rfl⟩

instance : (c : Citation) → DecidablePred c.Fits
  | premise φ => fun d => inferInstanceAs (Decidable (d.statement? = some φ))
  | rule _ => fun _ => decidable_of_iff _ fits_rule.symm

variable {ds : List Derivation} {index : Nat} {t : Theorem} {c : Citation} {e : Error}

/-- Something that fits stands before `index`. -/
def Earlier (ds : List Derivation) (index : Nat) (c : Citation) : Prop :=
  ∃ j d, j < index ∧ ds[j]? = some d ∧ c.Fits d

/-- The derivation at `position` fits, and none before it does. -/
def FirstAt (ds : List Derivation) (position : Nat) (c : Citation) : Prop :=
  (∃ d, ds[position]? = some d ∧ c.Fits d) ∧ ∀ j d, j < position → ds[j]? = some d → ¬ c.Fits d

/-- The error for a citation that nothing fits. -/
def absent (t : Theorem) : Citation → Error
  | premise φ => .premiseAbsent φ t.formula
  | rule r => .ruleAbsent r.formula t.formula

/-- The error for a citation in the theorem at `index` that is first fitted at `position`. -/
def posterior (t : Theorem) (index position : Nat) : Citation → Error
  | premise φ => .premisePosterior φ t.formula index position
  | rule r => .rulePosterior r.formula t.formula index position

/-- A citation in the theorem at `index` is refused with an error. -/
inductive Refused (ds : List Derivation) (index : Nat) (t : Theorem) (c : Citation) :
    Error → Prop where
  /-- Nothing fits. -/
  | absent (hnone : ∀ d ∈ ds, ¬ c.Fits d) : Refused ds index t c (c.absent t)
  /-- The first derivation that fits is not earlier. -/
  | posterior {position : Nat} (hlate : index ≤ position) (hfirst : c.FirstAt ds position) :
      Refused ds index t c (c.posterior t index position)

/-- The code for a citation that is refused, by its kind and by whether anything fits it. -/
def refusalCode (ds : List Derivation) (c : Citation) : String :=
  match c, decide (∃ d ∈ ds, c.Fits d) with
  | premise _, false => "THY-003"
  | premise _, true => "THY-004"
  | rule _, false => "THY-005"
  | rule _, true => "THY-006"

theorem Refused.code_eq (h : c.Refused ds index t e) : e.code = c.refusalCode ds := by
  cases h with
  | absent hnone =>
    have hfits : ¬ ∃ d ∈ ds, c.Fits d := fun ⟨d, hd, hfits⟩ => hnone d hd hfits
    cases c <;> simp [refusalCode, hfits, Citation.absent, Error.code]
  | posterior hlate hfirst =>
    obtain ⟨⟨d, hd, hfits⟩, -⟩ := hfirst
    have hfits : ∃ d ∈ ds, c.Fits d := ⟨d, List.mem_of_getElem? hd, hfits⟩
    cases c <;> simp [refusalCode, hfits, Citation.posterior, Error.code]

/-! ## The check of a citation -/

/-- Checks a citation in the theorem at `index`. -/
def check (ds : List Derivation) (index : Nat) (t : Theorem) (c : Citation) : Except Error Unit :=
  match ds.findIdx? fun d => c.Fits d with
  | none => .error (c.absent t)
  | some position => if position < index then .ok () else .error (c.posterior t index position)

theorem findIdx?_eq_none : ds.findIdx? (fun d => c.Fits d) = none ↔ ∀ d ∈ ds, ¬ c.Fits d := by
  simp

theorem findIdx?_eq_some {position : Nat} :
    ds.findIdx? (fun d => c.Fits d) = some position ↔ c.FirstAt ds position := by
  rw [List.findIdx?_eq_some_iff_getElem]
  constructor
  · rintro ⟨hlt, hfits, hfirst⟩
    refine ⟨⟨_, List.getElem?_eq_getElem hlt, by simpa using hfits⟩, fun j d hj hd => ?_⟩
    obtain ⟨hjlt, rfl⟩ := List.getElem?_eq_some_iff.mp hd
    simpa using hfirst j hj
  · rintro ⟨⟨d, hd, hfits⟩, hfirst⟩
    obtain ⟨hlt, rfl⟩ := List.getElem?_eq_some_iff.mp hd
    refine ⟨hlt, by simpa using hfits, fun j hj => ?_⟩
    simpa using hfirst j _ hj (List.getElem?_eq_getElem (by omega))

theorem check_eq_ok_iff : check ds index t c = .ok () ↔ c.Earlier ds index := by
  rw [check]
  cases hfind : ds.findIdx? fun d => c.Fits d with
  | none =>
    have hnone := findIdx?_eq_none.mp hfind
    simp only [reduceCtorEq, false_iff]
    rintro ⟨j, d, -, hd, hfits⟩
    exact hnone d (List.mem_of_getElem? hd) hfits
  | some position =>
    obtain ⟨⟨d, hd, hfits⟩, hfirst⟩ := findIdx?_eq_some.mp hfind
    constructor
    · intro h
      have hlt : position < index := by
        by_contra hge
        simp [hge] at h
      exact ⟨position, d, hlt, hd, hfits⟩
    · -- What fits and is earlier does not stand before the first derivation that fits.
      rintro ⟨j, d', hj, hd', hfits'⟩
      have hle : position ≤ j := by
        by_contra hlt
        exact hfirst j d' (by omega) hd' hfits'
      simp [show position < index by omega]

theorem check_eq_error_iff : check ds index t c = .error e ↔ c.Refused ds index t e := by
  constructor
  · intro h
    rw [check] at h
    cases hfind : ds.findIdx? fun d => c.Fits d with
    | none =>
      obtain rfl : c.absent t = e := by simpa [hfind] using h
      exact .absent (findIdx?_eq_none.mp hfind)
    | some position =>
      by_cases hlt : position < index
      · simp [hfind, hlt] at h
      · obtain rfl : c.posterior t index position = e := by simpa [hfind, hlt] using h
        exact .posterior (by omega) (findIdx?_eq_some.mp hfind)
  · intro h
    cases h with
    | absent hnone =>
      have hfind := findIdx?_eq_none.mpr hnone
      simp [check, hfind]
    | posterior hlate hfirst =>
      have hfind := findIdx?_eq_some.mpr hfirst
      simp [check, hfind, hlate]

end Citation

/-! ## The check of a list -/

variable {ds : List Derivation} {index : Nat} {t : Theorem} {e : Error}

/-- Going through a list fails with the error of the first element that has one. -/
theorem forM_eq_error_iff {α ε : Type} {f : α → Except ε Unit} {xs : List α} {e : ε} :
    forM xs f = .error e ↔
      ∃ (i : Nat) (x : α), xs[i]? = some x ∧ (∀ j y, j < i → xs[j]? = some y → f y = .ok ()) ∧
        f x = .error e := by
  induction xs with
  | nil => simp [pure, Except.pure]
  | cons x xs ih =>
    rw [List.forM_cons]
    cases hx : f x with
    | error e' =>
      constructor
      · intro h
        obtain rfl : e' = e := by simpa [bind, Except.bind] using h
        exact ⟨0, x, rfl, by simp, hx⟩
      · rintro ⟨i, y, hi, hbefore, hy⟩
        cases i with
        | zero =>
          obtain rfl : x = y := by simpa using hi
          obtain rfl : e' = e := by simpa [hx] using hy
          rfl
        | succ i => simp [hbefore 0 x (by omega) rfl] at hx
    | ok u =>
      constructor
      · intro h
        obtain ⟨i, y, hi, hbefore, hy⟩ := ih.mp h
        refine ⟨i + 1, y, by simpa using hi, fun j z hj hz => ?_, hy⟩
        cases j with
        | zero =>
          obtain rfl : x = z := by simpa using hz
          exact hx
        | succ j => exact hbefore j z (by omega) (by simpa using hz)
      · rintro ⟨i, y, hi, hbefore, hy⟩
        cases i with
        | zero =>
          obtain rfl : x = y := by simpa using hi
          simp [hx] at hy
        | succ i =>
          refine ih.mpr ⟨i, y, by simpa using hi, fun j z hj hz => ?_, hy⟩
          exact hbefore (j + 1) z (by omega) (by simpa using hz)

theorem forM_eq_ok_iff {α ε : Type} {f : α → Except ε Unit} {xs : List α} :
    forM xs f = .ok () ↔ ∀ x ∈ xs, f x = .ok () := by
  induction xs with
  | nil => simp [pure, Except.pure]
  | cons x xs ih =>
    rw [List.forM_cons, except_bind_eq_ok, List.forall_mem_cons, ← ih]
    constructor
    · rintro ⟨⟨⟩, hx, hxs⟩
      exact ⟨hx, hxs⟩
    · rintro ⟨hx, hxs⟩
      exact ⟨(), hx, hxs⟩

theorem checkPremises_eq_forM (ps : List Formula) :
    checkPremises ds index t ps = forM (ps.map .premise) (Citation.check ds index t) := by
  induction ps with
  | nil => rfl
  | cons p ps ih =>
    rw [checkPremises, ih]
    rfl

theorem checkRule_eq_check :
    checkRule ds index t = Citation.check ds index t (.rule t.inference.rule) := by
  have hfits : (fun d => decide (d = .rule t.inference.rule)) =
      fun d => decide ((Citation.rule t.inference.rule).Fits d) := by
    funext d
    exact decide_eq_decide.mpr Citation.fits_rule.symm
  rw [checkRule, ruleAt?, Citation.check, hfits]
  rfl

/-- The check of a theorem is the check of what it cites, in order. -/
theorem checkTheorem_eq_forM :
    checkTheorem ds index t = forM t.citations (Citation.check ds index t) := by
  rw [checkTheorem, checkPremises_eq_forM, checkRule_eq_check, Theorem.citations,
    List.forM_append]
  simp

/-- Everything that the theorem at `index` cites is earlier. -/
def WellPlaced (ds : List Derivation) (index : Nat) (t : Theorem) : Prop :=
  ∀ c ∈ t.citations, c.Earlier ds index

theorem wellPlaced_iff_cites : WellPlaced ds index t ↔ Cites (ds.take index) t := by
  have hmem (c : Citation) : c.Earlier ds index ↔ ∃ d ∈ ds.take index, c.Fits d := by
    constructor
    · rintro ⟨j, d, hj, hd, hfits⟩
      rw [← List.getElem?_take_of_lt hj] at hd
      exact ⟨d, List.mem_of_getElem? hd, hfits⟩
    · rintro ⟨d, hd, hfits⟩
      obtain ⟨j, hj, hd⟩ := exists_lt_of_mem_take hd
      exact ⟨j, d, hj, hd, hfits⟩
  constructor
  · intro h
    refine ⟨fun p hp => ?_, ?_⟩
    · exact (hmem _).mp (h (.premise p) (by simp [Theorem.citations, hp]))
    · obtain ⟨d, hd, hfits⟩ :=
        (hmem _).mp (h (.rule t.inference.rule) (by simp [Theorem.citations]))
      exact Citation.fits_rule.mp hfits ▸ hd
  · intro h c hc
    rw [Theorem.citations, List.mem_append, List.mem_map, List.mem_singleton] at hc
    rcases hc with ⟨p, hp, rfl⟩ | rfl
    · exact (hmem _).mpr (h.premises p hp)
    · exact (hmem _).mpr ⟨_, h.rule, Citation.fits_rule.mpr rfl⟩

theorem checkTheorem_eq_ok : checkTheorem ds index t = .ok () ↔ WellPlaced ds index t := by
  rw [checkTheorem_eq_ok_iff, wellPlaced_iff_cites]

theorem checkTheorem_eq_error :
    checkTheorem ds index t = .error e ↔
      ∃ (k : Nat) (c : Citation), t.citations[k]? = some c ∧
        (∀ j b, j < k → t.citations[j]? = some b → b.Earlier ds index) ∧
        c.Refused ds index t e := by
  simp only [checkTheorem_eq_forM, forM_eq_error_iff, Citation.check_eq_ok_iff,
    Citation.check_eq_error_iff]

/-- Checks the derivation at an index.  There is something to check for a theorem only. -/
def checkAt (ds : List Derivation) : Derivation × Nat → Except Error Unit
  | (.proved t, index) => checkTheorem ds index t
  | _ => .ok ()

theorem checkAt_eq_ok {d : Derivation} :
    checkAt ds (d, index) = .ok () ↔ ∀ u, d = .proved u → WellPlaced ds index u := by
  cases d with
  | stated a => simp [checkAt]
  | rule r => simp [checkAt]
  | proved t => simp [checkAt, checkTheorem_eq_ok]

theorem checkFrom_eq_forM (rest : List Derivation) :
    checkFrom ds index rest = forM (rest.zipIdx index) (checkAt ds) := by
  induction rest generalizing index with
  | nil => rfl
  | cons d rest ih =>
    rw [List.zipIdx_cons, List.forM_cons, ← ih]
    cases d <;> rfl

/-- The citation `c`, number `k` of the theorem `t` at index `i`, is refused with the error `e`.  No
citation before it is: neither one of a theorem before `t` nor an earlier one of `t`. -/
structure FirstRefusal (ds : List Derivation) (i : Nat) (t : Theorem) (k : Nat) (c : Citation)
    (e : Error) : Prop where
  proved : ds[i]? = some (.proved t)
  theorems_before : ∀ j u, j < i → ds[j]? = some (.proved u) → WellPlaced ds j u
  cited : t.citations[k]? = some c
  citations_before : ∀ j b, j < k → t.citations[j]? = some b → b.Earlier ds i
  refused : c.Refused ds i t e

theorem checkFrom_eq_error_iff :
    checkFrom ds 0 ds = .error e ↔ ∃ i t k c, FirstRefusal ds i t k c e := by
  have hget {i n : Nat} {d : Derivation} :
      (ds.zipIdx 0)[i]? = some (d, n) ↔ ds[i]? = some d ∧ n = i := by
    rw [List.getElem?_zipIdx]
    cases ds[i]? <;> simp [eq_comm]
  rw [checkFrom_eq_forM, forM_eq_error_iff]
  constructor
  · rintro ⟨i, ⟨d, n⟩, hi, hbefore, h⟩
    obtain ⟨hd, rfl⟩ := hget.mp hi
    cases d with
    | stated a => simp [checkAt] at h
    | rule r => simp [checkAt] at h
    | proved t =>
      obtain ⟨k, c, hcited, hcitations, hrefused⟩ := checkTheorem_eq_error.mp h
      refine ⟨n, t, k, c, hd, fun j u hj hu => ?_, hcited, hcitations, hrefused⟩
      exact checkAt_eq_ok.mp (hbefore j (.proved u, j) hj (hget.mpr ⟨hu, rfl⟩)) u rfl
  · rintro ⟨i, t, k, c, h⟩
    refine ⟨i, (.proved t, i), hget.mpr ⟨h.proved, rfl⟩, ?_,
      checkTheorem_eq_error.mpr ⟨k, c, h.cited, h.citations_before, h.refused⟩⟩
    rintro j ⟨d, n⟩ hj hjd
    obtain ⟨hjd, rfl⟩ := hget.mp hjd
    exact checkAt_eq_ok.mpr fun u hu => h.theorems_before n u hj (hu ▸ hjd)

/-! ## Theories from lists -/

namespace Theory

/-- A list with a repeated derivation is refused for that, whatever else is wrong with it. -/
theorem ofList_of_not_nodup (h : ¬ ds.Nodup) :
    ∃ φ i j, ofList ds = .error (.ofFormulas (.duplicate φ i j)) := by
  cases hofList : ofList ds with
  | ok T => exact absurd (ofList_eq_ok.mp hofList ▸ T.accepted.nodup) h
  | error e =>
    rcases ofList_eq_error.mp hofList with ⟨r, -, rfl⟩ | ⟨hnone, -⟩
    · exact ⟨_, _, _, rfl⟩
    · exact absurd (nodup_of_firstRepeat?_eq_none hnone) h

theorem ofList_of_nodup (h : ds.Nodup) :
    ofList ds = .error e ↔ checkFrom ds 0 ds = .error e := by
  have hnone : firstRepeat? [] ds = none := firstRepeat?_eq_none_iff.mpr ⟨h, by simp⟩
  rw [ofList_eq_error, hnone]
  simp

/-- Exactly which lists become theories, and with which error the others are refused.  A list
becomes a theory when the formulas of its derivations are distinct and each theorem cites what
stands before it.  Repeated formulas are an error of their own.  Otherwise the error is about the
first citation of the first theorem that is refused, premises before the rule, and its code tells a
citation that nothing fits from one that is fitted too late. -/
theorem ofList_exact (ds : List Derivation) :
    ((∃ T, ofList ds = .ok T) ↔
      (ds.map (·.formula)).Nodup ∧ ∀ i t, ds[i]? = some (.proved t) → WellPlaced ds i t) ∧
    (¬ (ds.map (·.formula)).Nodup → ∃ e, ofList ds = .error e ∧ e.code = "SYN-002") ∧
    ((ds.map (·.formula)).Nodup → ∀ e, ofList ds = .error e ↔
      ∃ i t k c, FirstRefusal ds i t k c e ∧ e.code = c.refusalCode ds) := by
  have hnodup : (ds.map (·.formula)).Nodup ↔ ds.Nodup :=
    List.nodup_map_iff fun _ _ h => Derivation.formula_inj.mp h
  rw [hnodup]
  refine ⟨⟨?_, ?_⟩, ?_, ?_⟩
  · rintro ⟨T, h⟩
    obtain rfl := ofList_eq_ok.mp h
    exact ⟨T.accepted.nodup, fun i t hi => wellPlaced_iff_cites.mpr (T.accepted.cites i t hi)⟩
  · rintro ⟨h, hplaced⟩
    have haccepted : Accepted ds := ⟨h, fun i t hi => wellPlaced_iff_cites.mp (hplaced i t hi)⟩
    exact ⟨⟨ds, haccepted⟩, ofList_eq_ok.mpr rfl⟩
  · intro h
    obtain ⟨φ, i, j, hrefused⟩ := ofList_of_not_nodup h
    exact ⟨_, hrefused, rfl⟩
  · intro h e
    rw [ofList_of_nodup h, checkFrom_eq_error_iff]
    constructor
    · rintro ⟨i, t, k, c, hfirst⟩
      exact ⟨i, t, k, c, hfirst, hfirst.refused.code_eq⟩
    · rintro ⟨i, t, k, c, hfirst, -⟩
      exact ⟨i, t, k, c, hfirst⟩

end Theory

end Deduction
