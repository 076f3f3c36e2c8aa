import Mathlib.Data.List.Induction
import Deduction.Proofs.Acceptance
import Deduction.Proofs.Propositional

/-!
# Extending and uniting theories

A theory is extended by the derivations that it does not have, and only these are checked.  That
misses nothing (`Theory.extend_validates_all`): the check of the whole list would come to the same
theory or the same error.  What is appended stands behind the derivations of the theory, so it
cannot come between a theorem of the theory and what that theorem cites, and what was first to state
a premise still is.

The union of two theories extends one by the derivations of the other.  There the check cannot fail.
A theorem of the second theory may be moved, but what it cites comes before it also in the union:
either it stands in the first theory, or it was moved too, and the order was kept.  The argument
takes the derivations of the second theory one at a time (`Accepted.union`), and the laws of
`Theory.union_lawful` are then those of putting lists together.
-/

namespace Deduction

/-! ## What is new in a list -/

section Unseen

variable {α : Type} [DecidableEq α]

/-- The elements of a list that are not known.  An element that is kept is known from then on. -/
def unseen (known : List α) : (xs : List α) → List α
  | [] => []
  | x :: xs => if x ∈ known then unseen known xs else x :: unseen (x :: known) xs

theorem unseen_congr {known known' : List α} (h : ∀ x, x ∈ known ↔ x ∈ known') (xs : List α) :
    unseen known xs = unseen known' xs := by
  induction xs generalizing known known' with
  | nil => rfl
  | cons x xs ih =>
    have hcons : ∀ y, y ∈ x :: known ↔ y ∈ x :: known' := by
      intro y
      rw [List.mem_cons, List.mem_cons, h y]
    simp only [unseen, h x, ih h, ih hcons]

theorem appendNew_eq_append_unseen (seen xs : List α) :
    appendNew seen xs = seen ++ unseen seen xs := by
  induction xs generalizing seen with
  | nil => simp [appendNew, unseen]
  | cons x xs ih =>
    by_cases hx : x ∈ seen
    · simp only [appendNew, unseen, hx, if_true, ih]
    · have hknown : unseen (seen ++ [x]) xs = unseen (x :: seen) xs :=
        unseen_congr (fun y => by simp [or_comm]) xs
      simp only [appendNew, unseen, hx, if_false, ih, hknown, List.append_assoc,
        List.singleton_append]

end Unseen

/-! ## The check of an extension -/

theorem checkFrom_append (ds : List Derivation) (index : Nat) (xs ys : List Derivation) :
    checkFrom ds index (xs ++ ys) =
      checkFrom ds index xs >>= fun _ => checkFrom ds (index + xs.length) ys := by
  simp only [checkFrom_eq_forM, List.zipIdx_append, List.forM_append]

/-- The check of an accepted front part succeeds, whatever stands behind it. -/
theorem Accepted.checkFrom_front {front : List Derivation} (h : Accepted front)
    (rest : List Derivation) : Deduction.checkFrom (front ++ rest) 0 front = .ok () := by
  rw [checkFrom_eq_ok_iff]
  intro i t hi
  have hlt : i < front.length := (List.getElem?_eq_some_iff.mp hi).1
  have hcites : Cites (front.take i) t := h.cites i t hi
  rwa [Nat.zero_add, List.take_append_of_le_length (Nat.le_of_lt hlt)]

/-- A check of the whole list comes to what the check behind an accepted front part comes to. -/
theorem Accepted.checkFrom_eq {front ds : List Derivation} (h : Accepted front)
    (hfront : front <+: ds) :
    Deduction.checkFrom ds 0 ds = Deduction.checkFrom ds front.length (ds.drop front.length) := by
  obtain ⟨rest, rfl⟩ := hfront
  have hsplit := checkFrom_append (front ++ rest) 0 front rest
  rw [h.checkFrom_front rest, Nat.zero_add] at hsplit
  rw [List.drop_left]
  exact hsplit

namespace Theory

variable {T : Theory} {ds : List Derivation}

theorem nodup_append_unseen (T : Theory) (ds : List Derivation) :
    (T.derivations ++ unseen T.derivations ds).Nodup :=
  appendNew_eq_append_unseen T.derivations ds ▸ nodup_appendNew T.accepted.nodup ds

/-- The formulas of an extension are enumerated without finding a duplicate. -/
theorem exists_enumeration_append_unseen (T : Theory) (ds : List Derivation) :
    ∃ e, Enumeration.ofList ((T.derivations ++ unseen T.derivations ds).map (·.formula)) =
      .ok e := by
  obtain ⟨e, he⟩ := Derivation.exists_enumerate_iff.mpr (T.nodup_append_unseen ds)
  exact ⟨e, lift_eq_ok.mp he⟩

/-- An error of an extension is about a citation and not about a duplicate. -/
theorem code_ne_of_extend_eq_error {e : Error} (h : T.extend ds = .error e) :
    e.code ≠ "SYN-002" := by
  have hcheck := extend_eq_error.mp h
  rw [newIn, ← T.accepted.checkFrom_eq (prefix_appendNew T.derivations ds)] at hcheck
  obtain ⟨i, t, k, c, hfirst⟩ := checkFrom_eq_error_iff.mp hcheck
  rw [hfirst.refused.code_eq]
  unfold Citation.refusalCode
  split <;> decide

/-- Checking what is new comes to what checking the whole list comes to, be it a theory or an
error. -/
theorem extend_eq_ofList (T : Theory) (ds : List Derivation) :
    T.extend ds = ofList (T.derivations ++ unseen T.derivations ds) := by
  have hlist := appendNew_eq_append_unseen T.derivations ds
  cases h : T.extend ds with
  | ok T' => exact (ofList_eq_ok.mpr ((extend_eq_ok.mp h).trans hlist)).symm
  | error e =>
    have hcheck := extend_eq_error.mp h
    rw [newIn, ← T.accepted.checkFrom_eq (prefix_appendNew T.derivations ds), hlist] at hcheck
    exact ((ofList_of_nodup (T.nodup_append_unseen ds)).mpr hcheck).symm

/-- A theory can be extended by two lists exactly when it can be extended by one after the other. -/
theorem extend_append_eq_ok {as bs : List Derivation} {T' : Theory} :
    T.extend (as ++ bs) = .ok T' ↔ ∃ T₁, T.extend as = .ok T₁ ∧ T₁.extend bs = .ok T' := by
  constructor
  · intro h
    have hT' : T'.derivations = appendNew (appendNew T.derivations as) bs :=
      (extend_eq_ok.mp h).trans (appendNew_append T.derivations as bs)
    -- The first portion is a front part of the whole and therefore accepted.
    have hfront : Accepted (appendNew T.derivations as) :=
      T'.accepted.of_prefix (hT' ▸ prefix_appendNew _ bs)
    exact ⟨⟨_, hfront⟩, extend_eq_ok.mpr rfl, extend_eq_ok.mpr hT'⟩
  · rintro ⟨T₁, h₁, h⟩
    apply extend_eq_ok.mpr
    rw [extend_eq_ok.mp h, extend_eq_ok.mp h₁, appendNew_append]

/-- Checking only what is new is checking everything.  A theory is extended by the derivations that
are neither in it nor repeated, and that comes to the theory, or to the error, that the whole list
comes to when it is checked from its first derivation on.  The formulas of the list are distinct, so
no duplicate is ever reported; the theory stays the front part of what it is extended to; and it can
be extended in portions. -/
theorem extend_validates_all (T : Theory) (ds : List Derivation) :
    T.extend ds = ofList (T.derivations ++ unseen T.derivations ds) ∧
    (∃ e, Enumeration.ofList ((T.derivations ++ unseen T.derivations ds).map (·.formula)) = .ok e) ∧
    (∀ e, T.extend ds = .error e → e.code ≠ "SYN-002") ∧
    (∀ T', T.extend ds = .ok T' → T.derivations <+: T'.derivations) ∧
    ∀ as bs T', T.extend (as ++ bs) = .ok T' ↔
      ∃ T₁, T.extend as = .ok T₁ ∧ T₁.extend bs = .ok T' := by
  refine ⟨T.extend_eq_ofList ds, T.exists_enumeration_append_unseen ds,
    fun e => code_ne_of_extend_eq_error, fun T' h => ?_, fun as bs T' => extend_append_eq_ok⟩
  exact extend_eq_ok.mp h ▸ prefix_appendNew T.derivations ds

open Propositional in
/-- The first theorem cites the second and comes too early.  Both checks report the position at
which its premise is first stated. -/
theorem extend_validates_all_posterior :
    axiomatization.theory.extend [.stated ⟨p⟩, .proved joined, .proved detached] =
      .error (.premisePosterior r joined.formula 5 6) ∧
    ofList (axiomatization.theory.derivations ++ [.proved joined, .proved detached]) =
      .error (.premisePosterior r joined.formula 5 6) ∧
    (Error.premisePosterior r joined.formula 5 6).code ≠ "SYN-002" := by
  have hextend : axiomatization.theory.extend [.stated ⟨p⟩, .proved joined, .proved detached] =
      .error (.premisePosterior r joined.formula 5 6) := by decide
  have h := extend_validates_all axiomatization.theory
    [.stated ⟨p⟩, .proved joined, .proved detached]
  exact ⟨hextend, h.1.symm.trans hextend, h.2.2.1 _ hextend⟩

end Theory

/-! ## Unions -/

/-- The last theorem of an accepted list cites what stands before it. -/
theorem Accepted.cites_last {ds : List Derivation} {t : Theorem}
    (h : Accepted (ds ++ [.proved t])) : Cites ds t := by
  have hcites := h.cites ds.length t (by simp)
  rwa [List.take_left] at hcites

/-- Two accepted lists can be put together. -/
theorem Accepted.union {xs ys : List Derivation} (hxs : Accepted xs) (hys : Accepted ys) :
    Accepted (appendNew xs ys) := by
  -- The second list is taken from its end: what its last derivation cites is appended by then.
  induction ys using List.reverseRecOn with
  | nil => exact hxs
  | append_singleton ys d ih =>
    have hfront : Accepted ys := hys.of_prefix (List.prefix_append ys [d])
    rw [appendNew_append]
    refine (ih hfront).append_one fun t ht => ?_
    subst ht
    exact hys.cites_last.mono fun _ hd => mem_appendNew.mpr (.inr hd)

namespace Theory

/-- The theory that the union of two theories comes to. -/
def join (A B : Theory) : Theory :=
  ⟨appendNew A.derivations B.derivations, A.accepted.union B.accepted⟩

theorem union_eq_join (A B : Theory) : A.union B = .ok (A.join B) :=
  extend_eq_ok.mpr rfl

theorem isValid_join {A B : Theory} {φ : Formula} :
    (A.join B).IsValid φ ↔ A.IsValid φ ∨ B.IsValid φ := by
  simp only [isValid_iff, join, mem_appendNew, or_and_right, exists_or]

theorem join_self (A : Theory) : A.join A = A :=
  Theory.ext (appendNew_of_subset fun _ hd => hd)

theorem join_assoc (A B C : Theory) : (A.join B).join C = A.join (B.join C) :=
  Theory.ext (appendNew_assoc A.derivations B.derivations C.derivations)

/-- Theories can always be united.  The union has the derivations of the first theory followed by
those of the second that the first does not have, and what is valid in it is valid in one of the
two.  A theory united with itself is itself, and of three theories it makes no difference which two
are united first. -/
theorem union_lawful (A B C : Theory) :
    (∃ U, A.union B = .ok U ∧
      U.derivations = A.derivations ++ B.derivations.filter (· ∉ A.derivations) ∧
      ∀ φ, U.IsValid φ ↔ A.IsValid φ ∨ B.IsValid φ) ∧
    A.union A = .ok A ∧
    ∃ U V W, A.union B = .ok U ∧ B.union C = .ok V ∧ U.union C = .ok W ∧ A.union V = .ok W := by
  have hderivations : (A.join B).derivations =
      A.derivations ++ B.derivations.filter (· ∉ A.derivations) :=
    appendNew_of_nodup A.derivations B.accepted.nodup
  refine ⟨⟨A.join B, union_eq_join A B, hderivations, fun φ => isValid_join⟩, ?_, ?_⟩
  · rw [union_eq_join, join_self]
  · refine ⟨A.join B, B.join C, (A.join B).join C, union_eq_join A B, union_eq_join B C,
      union_eq_join _ C, ?_⟩
    rw [union_eq_join, join_assoc]

end Theory

end Deduction
