import Deduction.Proofs.SearchSoundness
import Deduction.Search.Strategy

/-!
# The searches agree where they overlap

A recursive search starts like the single-level search.  What that comes to is final unless it is a
failure: an error stops both, and so does a derivation, whatever levels are left and whatever
statements are excluded (`Search.step_eq_singleLevel`).  Without a level below the first one the
failure is final too (`Search.step_eq_singleLevel_of_le_one`).

The standard strategy tries the searches one after the other and stays with the first success.
Since a search that fails leaves nothing behind, the last search decides, and the ones before it
only anticipate what it would find.  `Search.tiers_agree` puts this together.
-/

namespace Deduction

namespace Search

variable {T : Theory} {target : Formula}

/-! ## How searches end -/

/-- The search ends with a derivation of its target. -/
def Succeeds (run : Run Outcome) : Prop := ∃ o, run.result = .ok o ∧ o.success = true

/-- The search ends without a derivation of its target.  An error is a different end. -/
def Fails (run : Run Outcome) : Prop := ∃ o, run.result = .ok o ∧ o.success = false

theorem not_fails_iff {run : Run Outcome} :
    ¬ Fails run ↔ (∃ e, run.result = .error e) ∨ Succeeds run := by
  cases hrun : run.result with
  | error e => simp [Fails, Succeeds, hrun]
  | ok o => cases hsuccess : o.success <;> simp [Fails, Succeeds, hrun, hsuccess]

theorem Succeeds.not_fails {run : Run Outcome} (h : Succeeds run) : ¬ Fails run :=
  not_fails_iff.mpr (.inr h)

theorem Fails.congr {run run' : Run Outcome} (h : Fails run) (heq : run'.result = run.result) :
    Fails run' := by
  obtain ⟨o, ho, hfail⟩ := h
  exact ⟨o, heq.trans ho, hfail⟩

section OrElse

variable {attempt : Run (Option Outcome)} {next next' : Run Outcome}

/-- What comes after an attempt matters only if the attempt finds nothing. -/
theorem result_orElse_congr (h : attempt.result = .ok none → next.result = next'.result) :
    (attempt.orElse next).result = (attempt.orElse next').result := by
  rw [Run.orElse, Run.orElse, Run.result_bind, Run.result_bind]
  cases hattempt : attempt.result with
  | error e => rfl
  | ok o? =>
    cases o? with
    | some o => rfl
    | none => exact h hattempt

theorem result_orElse_none (h : attempt.result = .ok none) :
    (attempt.orElse next).result = next.result := by
  rw [Run.orElse, Run.result_bind, h]
  rfl

/-- A search that fails has made its attempts in vain. -/
theorem fails_orElse (hfound : ∀ o, attempt.result = .ok (some o) → o.success = true)
    (h : Fails (attempt.orElse next)) : attempt.result = .ok none ∧ Fails next := by
  obtain ⟨o, ho, hfail⟩ := h
  obtain ⟨o?, hattempt, ho⟩ := Run.bind_eq_ok.mp ho
  cases o? with
  | some found =>
    obtain rfl : found = o := Except.ok.inj ho
    simp [hfound found hattempt] at hfail
  | none => exact ⟨hattempt, o, ho, hfail⟩

end OrElse

/-! ## The first level -/

/-- Without a level below it, a level is the single-level search. -/
theorem level_none_eq_singleLevel (depth : Nat) :
    (level depth none T target).result = (singleLevel T target).result := by
  unfold level singleLevel
  exact result_orElse_congr fun _ => result_orElse_congr fun _ => rfl

/-- The levels below are reached only if the single-level search fails. -/
theorem level_eq_singleLevel {depth : Nat} {deeper? : Option (List Formula → Run (Option Theory))}
    (h : ¬ Fails (singleLevel T target)) :
    (level depth deeper? T target).result = (singleLevel T target).result := by
  unfold level singleLevel
  refine result_orElse_congr fun hlookUp => result_orElse_congr fun hrules => absurd ?_ h
  have hfail : (singleLevel T target).result = (fail T none).result :=
    (result_orElse_none hlookUp).trans (result_orElse_none hrules)
  exact ⟨.failure T, hfail, rfl⟩

theorem step_eq_singleLevel_of_le_one {remaining : Nat} (h : remaining ≤ 1)
    (excluded : List Formula) :
    (step remaining excluded T target).result = (singleLevel T target).result := by
  match remaining, h with
  | 0, _ => exact level_none_eq_singleLevel 0
  | 1, _ => exact level_none_eq_singleLevel 1

/-- What the single-level search comes to is final for the recursive search, unless it is a
failure. -/
theorem step_eq_singleLevel (h : ¬ Fails (singleLevel T target)) (remaining : Nat)
    (excluded : List Formula) :
    (step remaining excluded T target).result = (singleLevel T target).result := by
  match remaining with
  | 0 | 1 | _ + 2 => exact level_eq_singleLevel h

theorem exact_eq_step (h : ¬ Fails (exact T target)) (remaining : Nat) (excluded : List Formula) :
    (step remaining excluded T target).result = (exact T target).result := by
  have hlevel {depth deeper?} :
      (level depth deeper? T target).result = (exact T target).result := by
    unfold level exact
    refine result_orElse_congr fun hlookUp => absurd ?_ h
    have hfail : (exact T target).result = (fail T none).result := result_orElse_none hlookUp
    exact ⟨.failure T, hfail, rfl⟩
  match remaining with
  | 0 | 1 | _ + 2 => exact hlevel

/-! ## Escalation -/

/-- A strategy that is tried first decides unless it fails. -/
theorem result_searchFirst_cons {s : Strategy} {rest : List Strategy} {run : Run Outcome}
    (hfirst : ¬ Fails (s.search T target) → (s.search T target).result = run.result)
    (hrest : (Strategy.searchFirst rest T target).result = run.result) :
    (Strategy.searchFirst (s :: rest) T target).result = run.result := by
  rw [Strategy.searchFirst, Run.result_bind]
  cases hs : (s.search T target).result with
  | error e =>
    rw [← hfirst (not_fails_iff.mpr (.inl ⟨e, hs⟩)), hs]
    rfl
  | ok o =>
    cases hsuccess : o.success with
    | true =>
      rw [← hfirst (not_fails_iff.mpr (.inr ⟨o, hs, hsuccess⟩)), hs]
      simp [bind, Except.bind, hsuccess]
    | false => simpa [bind, Except.bind, hsuccess] using hrest

/-- A strategy that is tried last decides, since its failure is the failure of all. -/
theorem result_searchFirst_singleton {s : Strategy}
    (h : ∀ o, (s.search T target).result = .ok o → o.success = false → o = .failure T) :
    (Strategy.searchFirst [s] T target).result = (s.search T target).result := by
  rw [Strategy.searchFirst, Run.result_bind]
  cases hs : (s.search T target).result with
  | error e => rfl
  | ok o =>
    cases hsuccess : o.success with
    | true => simp [bind, Except.bind, hsuccess]
    | false =>
      rw [h o hs hsuccess]
      rfl

/-- The searches agree where they overlap.  A recursive search of at most one level comes to what
the single-level search comes to; at every depth it does so if that is an error or a success; and
the standard strategy comes to what the recursive search of three levels comes to. -/
theorem tiers_agree (T : Theory) (target : Formula) :
    (∀ depth ≤ 1, (recursive T target depth).result = (singleLevel T target).result) ∧
    (∀ depth, (∃ e, (singleLevel T target).result = .error e) ∨ Succeeds (singleLevel T target) →
      (recursive T target depth).result = (singleLevel T target).result) ∧
    (Strategy.standard.search T target).result = (recursive T target 3).result := by
  refine ⟨fun depth hdepth => step_eq_singleLevel_of_le_one hdepth [],
    fun depth hsingle => step_eq_singleLevel (not_fails_iff.mpr hsingle) depth [], ?_⟩
  rw [Strategy.standard, Strategy.search]
  refine result_searchFirst_cons (fun h => (exact_eq_step h 3 []).symm) ?_
  refine result_searchFirst_cons (fun h => (step_eq_singleLevel h 3 []).symm) ?_
  refine result_searchFirst_singleton fun o ho hfail => ?_
  obtain ⟨settles, hends⟩ := step_ends ho
  exact hends.eq_failure hfail

open Propositional in
/-- The atom is detached on the first level, so every search finds it there; the nested conjunction
is not, and the standard strategy goes on to the recursive search. -/
theorem tiers_agree_propositional :
    Succeeds (singleLevel axiomatization.theory r) ∧
      (recursive axiomatization.theory r 5).result =
        (singleLevel axiomatization.theory r).result ∧
      Fails (singleLevel developed (both (both p q) r)) ∧
      (recursive developed (both (both p q) r) 1).result =
        (singleLevel developed (both (both p q) r)).result ∧
      (Strategy.standard.search developed (both (both p q) r)).result =
        (recursive developed (both (both p q) r) 3).result := by
  have hsuccess : Succeeds (singleLevel axiomatization.theory r) :=
    exists_ok_of_success (by decide)
  obtain ⟨hshallow, -, hstandard⟩ := tiers_agree developed (both (both p q) r)
  exact ⟨hsuccess, (tiers_agree axiomatization.theory r).2.1 5 (.inr hsuccess),
    exists_ok_of_success (by decide), hshallow 1 (by simp), hstandard⟩

end Search

end Deduction
