import Deduction.Proofs.Collections
import Deduction.Proofs.Encoding
import Deduction.Theory.Basic

/-!
# What theories contain and how they grow

A theory is determined by its list of derivations, and a list of derivations is a theory exactly
when it is accepted.  So the two ways to make a theory are decided by the list alone:
`Theory.ofList` and `Theory.extend` return a theory exactly when there is one with the derivations
they are to give it.  A front part of an accepted list is accepted.

Derivations by hand and searches append theorems and nothing else.  `Theory.FollowedBy` names the
theorems that lie between two theories; axioms and rules are then those of the first.
-/

namespace Deduction

/-! ## Accepted lists -/

/-- A theorem of an accepted list cites what stands before it, also within a front part. -/
theorem Accepted.of_prefix {front ds : List Derivation} (h : Accepted ds) (hfront : front <+: ds) :
    Accepted front where
  nodup := h.nodup.sublist hfront.sublist
  cites i t hi := by
    have hlt : i < front.length := (List.getElem?_eq_some_iff.mp hi).1
    obtain ⟨rest, rfl⟩ := hfront
    have hcites := h.cites i t (by rw [List.getElem?_append_left hlt, hi])
    rwa [List.take_append_of_le_length (Nat.le_of_lt hlt)] at hcites

/-- A derivation can be appended to an accepted list, if it is no theorem or cites what stands
there. -/
theorem Accepted.append_one {ds : List Derivation} {d : Derivation} (h : Accepted ds)
    (hcites : ∀ t, d = .proved t → Cites ds t) : Accepted (appendNew ds [d]) := by
  by_cases hmem : d ∈ ds
  · simpa [appendNew, hmem] using h
  · have happend : appendNew ds [d] = ds ++ [d] := by simp [appendNew, hmem]
    refine h.extend (prefix_appendNew ds _) (nodup_appendNew h.nodup _)
      (checkFrom_eq_ok_iff.mpr fun i u hi => ?_)
    -- The continuation is one derivation long, and before it stands the whole of `ds`.
    rw [happend, List.drop_left] at hi
    obtain ⟨rfl, hd⟩ : i = 0 ∧ d = .proved u := by cases i <;> simp_all
    simpa [happend] using hcites u hd

/-- The check of an accepted list succeeds from every index on. -/
theorem Accepted.checkFrom {ds : List Derivation} (h : Accepted ds) (index : Nat) :
    checkFrom ds index (ds.drop index) = .ok () := by
  rw [checkFrom_eq_ok_iff]
  intro i t hi
  rw [List.getElem?_drop] at hi
  exact h.cites (index + i) t hi

/-! ## Duplicates -/

namespace Derivation

/-- Derivations are enumerated exactly when none repeats, since no two have the same formula. -/
theorem exists_enumerate_iff {ds : List Derivation} : (∃ e, enumerate ds = .ok e) ↔ ds.Nodup := by
  constructor
  · rintro ⟨e, he⟩
    exact nodup_of_enumerate he
  · intro h
    have hnodup : (ds.map (·.formula)).Nodup := h.map fun _ _ heq => formula_inj.mp heq
    exact ⟨⟨_, hnodup⟩, lift_eq_ok.mpr (Enumeration.ofList_eq_ok.mpr rfl)⟩

/-- What is reported of derivations that repeat is the repeat that is found among them. -/
theorem enumerate_eq_error {ds : List Derivation} {e : Error} :
    enumerate ds = .error e ↔
      ∃ r, firstRepeat? [] ds = some r ∧
        .ofFormulas (.duplicate r.element.formula r.first r.second) = e := by
  have hinjective : Function.Injective Derivation.formula := fun _ _ => formula_inj.mp
  have hrepeat := firstRepeat?_map hinjective [] ds
  rw [List.map_nil] at hrepeat
  simp only [enumerate, lift_eq_error, Enumeration.ofList_eq_error]
  rw [hrepeat]
  cases firstRepeat? [] ds with
  | none => simp
  | some r => simp [eq_comm]

end Derivation

namespace Theory

/-! ## Contents -/

theorem mem_axioms {T : Theory} {a : Axiom} : a ∈ T.axioms ↔ .stated a ∈ T.derivations := by
  rw [axioms, List.mem_filterMap]
  constructor
  · rintro ⟨d, hd, h⟩
    cases d <;> simp_all
  · intro h
    exact ⟨_, h, rfl⟩

theorem mem_rules {T : Theory} {r : InferenceRule} : r ∈ T.rules ↔ .rule r ∈ T.derivations := by
  rw [rules, List.mem_filterMap]
  constructor
  · rintro ⟨d, hd, h⟩
    cases d <;> simp_all
  · intro h
    exact ⟨_, h, rfl⟩

theorem isValid_iff {T : Theory} {φ : Formula} :
    T.IsValid φ ↔ ∃ d ∈ T.derivations, d.statement? = some φ := by
  simp [IsValid, validStatements]

theorem justification?_eq_none {T : Theory} {φ : Formula} :
    T.justification? φ = none ↔ ¬ T.IsValid φ := by
  simp [justification?, isValid_iff]

theorem justification?_eq_some {T : Theory} {φ : Formula} {d : Derivation}
    (h : T.justification? φ = some d) : d ∈ T.derivations ∧ d.statement? = some φ :=
  ⟨List.mem_of_find?_eq_some h, by simpa using List.find?_some h⟩

/-! ## Theories from lists -/

/-- A list becomes a theory exactly when there is a theory with its derivations. -/
theorem ofList_eq_ok {ds : List Derivation} {T : Theory} :
    ofList ds = .ok T ↔ T.derivations = ds := by
  constructor
  · intro h
    unfold ofList at h
    split at h
    · simp at h
    · split at h
      · simp at h
      · obtain rfl := Except.ok.inj h
        rfl
  · rintro rfl
    obtain ⟨e, he⟩ := Derivation.exists_enumerate_iff.mpr T.accepted.nodup
    have hcheck : checkFrom T.derivations 0 T.derivations = .ok () := T.accepted.checkFrom 0
    unfold ofList
    split
    next h => simp [he] at h
    next =>
      split
      next h => simp [hcheck] at h
      next => rfl

/-- A list is refused for what it repeats and, if it repeats nothing, for what the check reports. -/
theorem ofList_eq_error {ds : List Derivation} {e : Error} :
    ofList ds = .error e ↔
      (∃ r, firstRepeat? [] ds = some r ∧
        .ofFormulas (.duplicate r.element.formula r.first r.second) = e) ∨
      (firstRepeat? [] ds = none ∧ checkFrom ds 0 ds = .error e) := by
  have hnone : firstRepeat? [] ds = none ↔ ∃ all, Derivation.enumerate ds = .ok all := by
    rw [Derivation.exists_enumerate_iff, firstRepeat?_eq_none_iff]
    simp
  rw [← Derivation.enumerate_eq_error, hnone]
  unfold ofList
  split
  next e' he => simp [he]
  next he =>
    split
    next e' hcheck => simp [he, hcheck]
    next hcheck => simp [he, hcheck]

/-- Enumerating the derivations of an extension never finds a duplicate. -/
theorem exists_enumerate_appendNew (T : Theory) (ds : List Derivation) :
    ∃ e, Derivation.enumerate (appendNew T.derivations ds) = .ok e :=
  Derivation.exists_enumerate_iff.mpr (nodup_appendNew T.accepted.nodup ds)

/-- Extending a theory succeeds exactly when there is a theory with the derivations of both. -/
theorem extend_eq_ok {T T' : Theory} {ds : List Derivation} :
    T.extend ds = .ok T' ↔ T'.derivations = appendNew T.derivations ds := by
  constructor
  · intro h
    unfold extend at h
    split at h
    · simp at h
    · split at h
      · simp at h
      · obtain rfl := Except.ok.inj h
        rfl
  · intro h
    obtain ⟨e, he⟩ := T.exists_enumerate_appendNew ds
    have hcheck :
        checkFrom (appendNew T.derivations ds) T.derivations.length (T.newIn ds) = .ok () := by
      rw [newIn, ← h]
      exact T'.accepted.checkFrom _
    unfold extend
    split
    next hrefused => simp [he] at hrefused
    next =>
      split
      next hrefused => simp [hcheck] at hrefused
      next => exact congrArg _ (Theory.ext h.symm)

/-- An extension is refused for what the check of the new derivations reports. -/
theorem extend_eq_error {T : Theory} {ds : List Derivation} {e : Error} :
    T.extend ds = .error e ↔
      checkFrom (appendNew T.derivations ds) T.derivations.length (T.newIn ds) = .error e := by
  obtain ⟨all, hall⟩ := T.exists_enumerate_appendNew ds
  unfold extend
  split
  next hrefused => simp [hall] at hrefused
  next =>
    split
    next e' he => simp [he]
    next he => simp [he]

/-! ## Appended theorems -/

/-- The theory `T'` is `T` followed by the theorems `ths`. -/
def FollowedBy (T : Theory) (ths : List Theorem) (T' : Theory) : Prop :=
  T'.derivations = T.derivations ++ ths.map .proved

theorem followedBy_nil (T : Theory) : T.FollowedBy [] T := by
  simp [FollowedBy]

/-- A theorem whose statement was not valid is new, so appending it lengthens the theory. -/
theorem followedBy_of_appendNew {T T' : Theory} {th : Theorem} (hnew : ¬ T.IsValid th.statement)
    (hT' : T'.derivations = appendNew T.derivations [.proved th]) : T.FollowedBy [th] T' := by
  have habsent : .proved th ∉ T.derivations := fun hmem =>
    hnew (isValid_iff.mpr ⟨_, hmem, rfl⟩)
  rw [FollowedBy, hT']
  simp [appendNew, habsent]

theorem FollowedBy.append {T T' T'' : Theory} {ths ths' : List Theorem} (h : T.FollowedBy ths T')
    (h' : T'.FollowedBy ths' T'') : T.FollowedBy (ths ++ ths') T'' := by
  rw [FollowedBy, h', h]
  simp

/-- What is valid after theorems were appended was valid before or is stated by one of them. -/
theorem FollowedBy.isValid_iff {T T' : Theory} {ths : List Theorem} (h : T.FollowedBy ths T')
    {φ : Formula} : T'.IsValid φ ↔ T.IsValid φ ∨ ∃ th ∈ ths, th.statement = φ := by
  simp only [Theory.isValid_iff, show T'.derivations = _ from h, List.mem_append, or_and_right,
    exists_or, List.mem_map]
  refine or_congr_right ⟨?_, ?_⟩
  · rintro ⟨d, ⟨th, hth, rfl⟩, hd⟩
    exact ⟨th, hth, Option.some.inj hd⟩
  · rintro ⟨th, hth, rfl⟩
    exact ⟨_, ⟨th, hth, rfl⟩, rfl⟩

theorem FollowedBy.isValid {T T' : Theory} {ths : List Theorem} (h : T.FollowedBy ths T')
    {φ : Formula} (hφ : T.IsValid φ) : T'.IsValid φ :=
  h.isValid_iff.mpr (.inl hφ)

theorem FollowedBy.rules_eq {T T' : Theory} {ths : List Theorem} (h : T.FollowedBy ths T') :
    T'.rules = T.rules := by
  simp only [rules, show T'.derivations = _ from h, List.filterMap_append, List.filterMap_map]
  simp

theorem FollowedBy.axioms_eq {T T' : Theory} {ths : List Theorem} (h : T.FollowedBy ths T') :
    T'.axioms = T.axioms := by
  simp only [axioms, show T'.derivations = _ from h, List.filterMap_append, List.filterMap_map]
  simp

/-- The theory stops anywhere among the theorems that were appended to it. -/
theorem FollowedBy.exists_take {T T' : Theory} {ths : List Theorem} (h : T.FollowedBy ths T')
    (n : Nat) : ∃ S, T.FollowedBy (ths.take n) S := by
  have hfront : T.derivations ++ (ths.take n).map .proved <+: T'.derivations := by
    rw [show T'.derivations = _ from h]
    exact (List.prefix_append_right_inj _).mpr ((List.take_prefix n ths).map _)
  exact ⟨⟨_, T'.accepted.of_prefix hfront⟩, rfl⟩

end Theory

end Deduction
