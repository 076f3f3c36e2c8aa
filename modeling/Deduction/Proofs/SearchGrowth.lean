import Deduction.Proofs.SequencedSearches

/-!
# How a theory grows in searches

The theorems that a search appends can be read as the trace of it.  The theorem of a target comes
last; before it stand the theorems that the searches for its premises have appended, one premise
after the other, and each of these parts is built in the same way.  Premises that are valid already
leave no trace.  `Search.Grows` describes lists of theorems with this structure, and all searches,
by whatever strategy and for however many targets, grow the theory along such a list
(`Search.sequence_grows`).

While the premises of a target are searched for, the target is excluded.  So no theorem before the
target's own states it, and the theorems themselves tell where the part of a target ends.
-/

namespace Deduction

namespace Search

/-- Searches for the targets in order lead from the theory to the last one by appending the
theorems. -/
inductive Grows : Theory → List Formula → List Theorem → Theory → Prop
  | nil {T : Theory} : Grows T [] [] T
  | valid {T T' : Theory} {target : Formula} {targets : List Formula} {ths : List Theorem}
      (valid : T.IsValid target) (rest : Grows T targets ths T') :
      Grows T (target :: targets) ths T'
  | derived {T W V T' : Theory} {t : Theorem} {targets : List Formula}
      {earlier later : List Theorem}
      (new : ¬ T.IsValid t.statement) (instantiates : Instantiates T t.statement t)
      (premises : Grows T t.inference.premises.elements earlier W)
      (distinct : ∀ u ∈ earlier, u.statement ≠ t.statement)
      (appended : V.derivations = appendNew W.derivations [.proved t])
      (rest : Grows V targets later T') :
      Grows T (t.statement :: targets) (earlier ++ t :: later) T'

variable {T W T' : Theory} {target : Formula} {targets excluded : List Formula}
  {ths : List Theorem} {o : Outcome}

/-- The theorem of a target follows those of its premises, none of which states the target. -/
theorem followedBy_derived {V : Theory} {t : Theorem} {earlier : List Theorem}
    (new : ¬ T.IsValid t.statement) (premises : T.FollowedBy earlier W)
    (distinct : ∀ u ∈ earlier, u.statement ≠ t.statement)
    (appended : V.derivations = appendNew W.derivations [.proved t]) :
    T.FollowedBy (earlier ++ [t]) V := by
  have hnew : ¬ W.IsValid t.statement := by
    rw [premises.isValid_iff]
    rintro (hvalid | ⟨u, hu, hstated⟩)
    · exact new hvalid
    · exact distinct u hu hstated
  exact premises.append (Theory.followedBy_of_appendNew hnew appended)

theorem Grows.followedBy (h : Grows T targets ths T') : T.FollowedBy ths T' := by
  induction h with
  | nil => exact Theory.followedBy_nil _
  | valid _ _ ih => exact ih
  | derived new _ _ distinct appended _ ihpremises ihrest =>
    simpa using (followedBy_derived new ihpremises distinct appended).append ihrest

theorem Grows.append {targets' : List Formula} {ths' : List Theorem} (h : Grows T targets ths W)
    (h' : Grows W targets' ths' T') : Grows T (targets ++ targets') (ths ++ ths') T' := by
  induction h with
  | nil => exact h'
  | valid valid _ ih => exact .valid valid (ih h')
  | derived new instantiates premises distinct appended _ _ ihrest =>
    rw [List.append_assoc]
    exact .derived new instantiates premises distinct appended (ihrest h')

theorem grows_of_valid (h : ∀ p ∈ targets, T.IsValid p) : Grows T targets [] T := by
  induction targets with
  | nil => exact .nil
  | cons p ps ih => exact .valid (h p (by simp)) (ih fun q hq => h q (by simp [hq]))

/-! ## One search -/

/-- The theory has grown by theorems none of which states something excluded. -/
def GrowsBeside (excluded : List Formula) (T : Theory) (targets : List Formula) (T' : Theory) :
    Prop :=
  ∃ ths, Grows T targets ths T' ∧ ∀ th ∈ ths, th.statement ∉ excluded

/-- A search grows the theory if settling premises does.  The target is excluded there, so no
theorem before its own states it. -/
theorem Ends.grows {settles : List (List Formula → Run (Option Theory))}
    (h : Ends settles T target o) (hexcluded : target ∉ excluded)
    (hsettles : ∀ settle ∈ settles, ∀ premises W, (settle premises).result = .ok (some W) →
      GrowsBeside (excluded ++ [target]) T premises W)
    (hsuccess : o.success = true) : GrowsBeside excluded T [target] o.theory := by
  cases h with
  | valid hd =>
    obtain ⟨hmem, hstated⟩ := Theory.justification?_eq_some hd
    exact ⟨[], .valid (Theory.isValid_iff.mpr ⟨_, hmem, hstated⟩) .nil, by simp⟩
  | @derived settle _ W t hnew hsettle h hinstance =>
    obtain ⟨hsettled, rfl, hderivations, -⟩ := h
    obtain ⟨ths, hgrows, havoids⟩ := hsettles settle hsettle _ W hsettled
    -- The target is excluded while its premises are settled.
    have hdistinct : ∀ u ∈ ths, u.statement ≠ t.statement := fun u hu hstated =>
      havoids u hu (by simp [hstated])
    refine ⟨ths ++ [t], .derived hnew hinstance hgrows hdistinct hderivations .nil, ?_⟩
    intro th hth
    rcases List.mem_append.mp hth with hth | hth
    · exact fun hmem => havoids th hth (List.mem_append_left _ hmem)
    · obtain rfl := List.mem_singleton.mp hth
      exact hexcluded
  | failed => simp [Outcome.failure] at hsuccess

theorem settled_grows {premises : List Formula}
    (h : (settled T premises).result = .ok (some W)) : GrowsBeside excluded T premises W := by
  obtain ⟨rfl, hvalid⟩ := settled_eq_some.mp h
  exact ⟨[], grows_of_valid hvalid, by simp⟩

theorem establish_grows {search : Theory → Formula → Run Outcome} {premises : List Formula}
    (hsearch : ∀ T p o, p ∉ excluded → (search T p).result = .ok o → o.success = true →
      GrowsBeside excluded T [p] o.theory)
    (h : (establish search excluded T premises).result = .ok (some W)) :
    GrowsBeside excluded T premises W := by
  induction premises generalizing T with
  | nil =>
    obtain rfl : T = W := by simpa [establish] using h
    exact ⟨[], .nil, by simp⟩
  | cons p ps ih =>
    rw [establish] at h
    split at h
    next hvalid =>
      obtain ⟨ths, hgrows, havoids⟩ := ih h
      exact ⟨ths, .valid hvalid hgrows, havoids⟩
    · split at h
      · simp at h
      next hexcluded =>
        obtain ⟨outcome, houtcome, h⟩ := Run.bind_eq_ok.mp h
        split at h
        next hsuccess =>
          obtain ⟨ths, hgrows, havoids⟩ := hsearch T p outcome hexcluded houtcome hsuccess
          obtain ⟨ths', hgrows', havoids'⟩ := ih h
          refine ⟨ths ++ ths', hgrows.append hgrows', fun th hth => ?_⟩
          exact (List.mem_append.mp hth).elim (havoids th) (havoids' th)
        · simp at h

/-- The recursive search grows the theory: a level does if the level below it does. -/
theorem step_grows {remaining : Nat} (hexcluded : target ∉ excluded)
    (h : (step remaining excluded T target).result = .ok o) (hsuccess : o.success = true) :
    GrowsBeside excluded T [target] o.theory := by
  induction remaining generalizing excluded T target o with
  | zero =>
    refine (level_ends h).grows hexcluded ?_ hsuccess
    simpa using fun premises W => settled_grows
  | succ n ih =>
    cases n with
    | zero =>
      refine (level_ends h).grows hexcluded ?_ hsuccess
      simpa using fun premises W => settled_grows
    | succ n =>
      refine (level_ends h).grows hexcluded ?_ hsuccess
      have hdeeper : ∀ premises W, (establish (step (n + 1) (excluded ++ [target]))
          (excluded ++ [target]) T premises).result = .ok (some W) →
          GrowsBeside (excluded ++ [target]) T premises W := fun premises W =>
        establish_grows fun T p o hp h hsuccess => ih hp h hsuccess
      simpa using ⟨fun premises W => settled_grows, hdeeper⟩

/-! ## Strategies and several targets -/

/-- A successful search has grown the theory for its target. -/
def Growing (search : Theory → Formula → Run Outcome) : Prop :=
  ∀ {T target o}, (search T target).result = .ok o → o.success = true →
    ∃ ths, Grows T [target] ths o.theory

theorem GrowsBeside.grows (h : GrowsBeside excluded T targets T') :
    ∃ ths, Grows T targets ths T' := by
  obtain ⟨ths, hgrows, -⟩ := h
  exact ⟨ths, hgrows⟩

/-- A search that takes only premises that are valid beforehand grows the theory. -/
theorem Ends.grows_settled {settles : List (List Formula → Run (Option Theory))}
    (h : Ends settles T target o) (hsettles : settles ⊆ [settled T])
    (hsuccess : o.success = true) : ∃ ths, Grows T [target] ths o.theory := by
  have hgrows : GrowsBeside [] T [target] o.theory := by
    refine h.grows (by simp) (fun settle hsettle premises W => ?_) hsuccess
    obtain rfl := List.mem_singleton.mp (hsettles hsettle)
    exact settled_grows
  exact hgrows.grows

theorem recursive_growing (depth : Nat) : Growing (recursive · · depth) := by
  intro T target o h hsuccess
  have hgrows : GrowsBeside [] T [target] o.theory := step_grows (by simp) h hsuccess
  exact hgrows.grows

end Search

namespace Strategy

open Search (Growing Grows)

theorem searchFirst_growing {strategies : List Strategy}
    (h : ∀ s ∈ strategies, Growing s.search) : Growing (searchFirst strategies) := by
  induction strategies with
  | nil =>
    intro T target o ho hsuccess
    obtain rfl := Except.ok.inj ho
    simp [Outcome.failure] at hsuccess
  | cons s rest ih =>
    intro T target o ho hsuccess
    obtain ⟨first, hfirst, ho⟩ := Run.bind_eq_ok.mp ho
    split at ho
    next hfound =>
      obtain rfl := Except.ok.inj ho
      exact h s (by simp) hfirst hfound
    next => exact ih (fun r hr => h r (by simp [hr])) ho hsuccess

theorem search_growing (s : Strategy) : Growing s.search := by
  induction s using induct with
  | exactMatch => exact fun h => (Search.exact_ends h).grows_settled (by simp)
  | singleLevel => exact fun h => (Search.singleLevel_ends h).grows_settled (by simp)
  | recursive options => exact Search.recursive_growing options.maxDepth
  | withRule rule => exact fun h => (Search.withRule_ends h).grows_settled (by simp)
  | escalating strategies ih => exact searchFirst_growing ih

/-- A search grows the theory for its target or leaves it as it is. -/
theorem search_grows {s : Strategy} {T : Theory} {target : Formula} {o : Outcome}
    (h : (s.search T target).result = .ok o) :
    o.theory = T ∨ ∃ ths, Grows T [target] ths o.theory := by
  cases hsuccess : o.success with
  | true => exact .inr (s.search_growing h hsuccess)
  | false =>
    rw [s.search_reliable.failure h hsuccess]
    exact .inl rfl

end Strategy

namespace Search

theorem collect_grows {search : Theory → Formula → Run Outcome} (hsearch : Growing search)
    {ds : List Derivation} (h : (collect search T targets).result = .ok (some (T', ds))) :
    ∃ ths, Grows T targets ths T' := by
  induction targets generalizing T ds with
  | nil =>
    obtain ⟨rfl, -⟩ : T = T' ∧ [] = ds := by simpa [collect] using h
    exact ⟨[], .nil⟩
  | cons target targets ih =>
    obtain ⟨o, ho, h⟩ := Run.bind_eq_ok.mp h
    split at h
    next hsuccess =>
      obtain ⟨rest?, hrest, h⟩ := Run.bind_eq_ok.mp h
      cases rest? with
      | none => simp at h
      | some rest =>
        obtain ⟨rfl, -⟩ : rest.1 = T' ∧ o.derivations ++ rest.2 = ds := by simpa using h
        obtain ⟨ths, hths⟩ := hsearch ho hsuccess
        obtain ⟨ths', hths'⟩ := ih hrest
        exact ⟨ths ++ ths', hths.append hths'⟩
    next => simp at h

/-- Searches for several targets grow the theory for all of them or leave it as it is. -/
theorem sequence_grows {s : Strategy} (h : (sequence s.search T targets).result = .ok o) :
    o.theory = T ∨ ∃ ths, Grows T targets ths o.theory := by
  obtain ⟨found?, hfound, h⟩ := Run.bind_eq_ok.mp h
  cases found? with
  | none =>
    obtain rfl := Except.ok.inj h
    exact .inl rfl
  | some found =>
    obtain rfl := Except.ok.inj h
    exact .inr (collect_grows s.search_growing hfound)

end Search

end Deduction
