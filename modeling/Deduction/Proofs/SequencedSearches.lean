import Deduction.Proofs.SearchSoundness
import Deduction.Search.Strategy

/-!
# Searches for several targets

Several targets are searched for one after the other, each in the theory that the search before it
led to.  `Search.sequence_allOrNothing` says that this finds all of them or nothing, whatever
strategy is used: with success, the theory was followed by theorems, and there is one derivation for
each target; without, the theory is the one at the start, also if some of the targets were found
before the one that was not.

Both parts are inductions on the data.  A strategy is a tree with searches at its leaves, and it is
*reliable* if what it tries is (`Strategy.search_reliable`).  A list of targets is found if the
first one is, with a reliable search, and the others are in the theory that this leaves
(`Search.collect_eq_some`).
-/

namespace Deduction

namespace Search

/-- If the search ends at all, it has found the target and appended what it needed for that, or it
has found nothing and left the theory as it was. -/
structure Reliable (search : Theory → Formula → Run Outcome) : Prop where
  success : ∀ {T target o}, (search T target).result = .ok o → o.success = true →
    Finds [] T target o
  failure : ∀ {T target o}, (search T target).result = .ok o → o.success = false →
    o = .failure T

/-! ## Single searches -/

theorem exact_reliable : Reliable exact where
  success h := (exact_ends h).finds_settled (by simp)
  failure h := (exact_ends h).eq_failure

theorem singleLevel_reliable : Reliable singleLevel where
  success h := (singleLevel_ends h).finds_settled (by simp)
  failure h := (singleLevel_ends h).eq_failure

theorem withRule_reliable (rule : InferenceRule) : Reliable (withRule · · rule) where
  success h := (withRule_ends h).finds_settled (by simp)
  failure h := (withRule_ends h).eq_failure

theorem recursive_reliable (depth : Nat) : Reliable (recursive · · depth) where
  success h := recursive_finds h
  failure h hfail := by
    obtain ⟨settles, hends⟩ := step_ends h
    exact hends.eq_failure hfail

end Search

/-! ## Strategies -/

namespace Strategy

open Search (Reliable)

/-- What holds of an escalating strategy whenever it holds of the strategies that it tries, and of
all other strategies, holds of every strategy. -/
theorem induct {motive : Strategy → Prop} (exactMatch : motive .exactMatch)
    (singleLevel : motive .singleLevel) (recursive : ∀ options, motive (.recursive options))
    (withRule : ∀ rule, motive (.withRule rule))
    (escalating : ∀ strategies, (∀ s ∈ strategies, motive s) → motive (.escalating strategies))
    (s : Strategy) : motive s :=
  @Strategy.rec motive (fun strategies => ∀ s ∈ strategies, motive s) exactMatch singleLevel
    recursive withRule escalating (by simp) (fun _ _ hs hrest => by simpa using ⟨hs, hrest⟩) s

theorem searchFirst_reliable {strategies : List Strategy}
    (h : ∀ s ∈ strategies, Reliable s.search) : Reliable (searchFirst strategies) := by
  induction strategies with
  | nil =>
    constructor
    · intro T target o ho hsuccess
      obtain rfl := Except.ok.inj ho
      simp [Outcome.failure] at hsuccess
    · intro T target o ho _
      exact (Except.ok.inj ho).symm
  | cons s rest ih =>
    have hs : Reliable s.search := h s (by simp)
    have hrest : Reliable (searchFirst rest) := ih fun r hr => h r (by simp [hr])
    constructor
    · intro T target o ho hsuccess
      obtain ⟨first, hfirst, ho⟩ := Run.bind_eq_ok.mp ho
      split at ho
      next hfound =>
        obtain rfl := Except.ok.inj ho
        exact hs.success hfirst hfound
      next => exact hrest.success ho hsuccess
    · intro T target o ho hfail
      obtain ⟨first, hfirst, ho⟩ := Run.bind_eq_ok.mp ho
      split at ho
      next hfound =>
        obtain rfl := Except.ok.inj ho
        simp [hfound] at hfail
      next => exact hrest.failure ho hfail

theorem search_reliable (s : Strategy) : Reliable s.search := by
  induction s using induct with
  | exactMatch => exact Search.exact_reliable
  | singleLevel => exact Search.singleLevel_reliable
  | recursive options => exact Search.recursive_reliable options.maxDepth
  | withRule rule => exact Search.withRule_reliable rule
  | escalating strategies ih => exact searchFirst_reliable ih

end Strategy

/-! ## Several targets -/

namespace Search

variable {search : Theory → Formula → Run Outcome} {T : Theory} {targets : List Formula}

/-- Targets that are all found have one derivation each, in a theory that theorems have led to. -/
theorem collect_eq_some (hsearch : Reliable search) {T' : Theory} {ds : List Derivation}
    (h : (collect search T targets).result = .ok (some (T', ds))) :
    (∃ ths, T.FollowedBy ths T') ∧ ds.map (·.statement?) = targets.map some ∧
      ds ⊆ T'.derivations := by
  induction targets generalizing T ds with
  | nil =>
    obtain ⟨rfl, rfl⟩ : T = T' ∧ [] = ds := by simpa [collect] using h
    exact ⟨⟨[], T.followedBy_nil⟩, rfl, List.nil_subset _⟩
  | cons target targets ih =>
    obtain ⟨o, ho, h⟩ := Run.bind_eq_ok.mp h
    split at h
    next hsuccess =>
      obtain ⟨rest?, hrest, h⟩ := Run.bind_eq_ok.mp h
      cases rest? with
      | none => simp at h
      | some rest =>
        obtain ⟨W, rest⟩ := rest
        obtain ⟨rfl, rfl⟩ : W = T' ∧ o.derivations ++ rest = ds := by simpa using h
        obtain ⟨⟨ths, hths⟩, d, hd, hfound, hstated⟩ := hsearch.success ho hsuccess
        obtain ⟨⟨ths', hths'⟩, hstatements, hsub⟩ := ih hrest
        refine ⟨⟨ths ++ ths', hths.followed.append hths'⟩, ?_, ?_⟩
        · simp [hfound, hstated, hstatements]
        · have hfront : o.theory.derivations ⊆ W.derivations := by
            rw [show W.derivations = _ from hths']
            exact List.subset_append_left _ _
          rw [hfound]
          exact List.append_subset.mpr ⟨by simpa using hfront hd, hsub⟩
    next => simp at h

/-- A search for several targets, by any strategy, finds all of them or nothing.  If it succeeds,
theorems have been appended to the theory and nothing else, the result passes the check of a theory,
and for each target, in order, one derivation of the theory is handed over that states it.  If it
does not succeed, the theory is what it was and no derivation is handed over. -/
theorem sequence_allOrNothing {s : Strategy} {T : Theory} {targets : List Formula} {o : Outcome}
    (h : (sequence s.search T targets).result = .ok o) :
    (o.success = true →
      T.derivations <+: o.theory.derivations ∧
      (∀ d ∈ o.theory.derivations.drop T.derivations.length, d.IsTheorem) ∧
      Theory.ofList o.theory.derivations = .ok o.theory ∧
      o.derivations.map (·.statement?) = targets.map some ∧
      ∀ d ∈ o.derivations, d ∈ o.theory.derivations) ∧
    (o.success = false → o.theory = T ∧ o.derivations = []) := by
  obtain ⟨found?, hfound, h⟩ := Run.bind_eq_ok.mp h
  cases found? with
  | none =>
    obtain rfl := Except.ok.inj h
    simp [Outcome.failure]
  | some found =>
    obtain ⟨T', ds⟩ := found
    obtain rfl := Except.ok.inj h
    obtain ⟨⟨ths, hths⟩, hstatements, hsub⟩ := collect_eq_some s.search_reliable hfound
    have hderivations : T'.derivations = T.derivations ++ ths.map .proved := hths
    refine ⟨fun _ => ⟨?_, ?_, Theory.ofList_eq_ok.mpr rfl, hstatements, hsub⟩, by simp⟩
    · exact hderivations ▸ List.prefix_append _ _
    · intro d hd
      rw [hderivations, List.drop_left] at hd
      obtain ⟨th, -, rfl⟩ := List.mem_map.mp hd
      trivial

open Propositional in
/-- Three targets by a strategy in a strategy: one is detached, one is joined on two levels with the
help of the first, and one is an axiom.  With an atom that nothing leads to at their end, the others
are given up again. -/
theorem sequence_allOrNothing_nested :
    let strategy := Strategy.escalating
      [.exactMatch, .escalating [.singleLevel, .escalating [], .recursive ⟨2⟩]]
    (∃ o, (sequence strategy.search axiomatization.theory [r, both (both p q) r, p]).result =
        .ok o ∧ o.success = true ∧ axiomatization.theory.derivations <+: o.theory.derivations ∧
        o.derivations.map (·.statement?) = [some r, some (both (both p q) r), some p]) ∧
      ∃ o, (sequence strategy.search axiomatization.theory [r, s]).result = .ok o ∧
        o.success = false ∧ o.theory = axiomatization.theory := by
  intro strategy
  constructor
  · obtain ⟨o, ho, hsuccess⟩ : ∃ o, (sequence strategy.search axiomatization.theory
        [r, both (both p q) r, p]).result = .ok o ∧ o.success = true :=
      exists_ok_of_success (by decide +kernel)
    obtain ⟨hfront, -, -, hstatements, -⟩ := (sequence_allOrNothing ho).1 hsuccess
    exact ⟨o, ho, hsuccess, hfront, hstatements⟩
  · obtain ⟨o, ho, hfail⟩ : ∃ o, (sequence strategy.search axiomatization.theory
        [r, s]).result = .ok o ∧ o.success = false := exists_ok_of_success (by decide +kernel)
    exact ⟨o, ho, hfail, ((sequence_allOrNothing ho).2 hfail).1⟩

end Search

end Deduction
