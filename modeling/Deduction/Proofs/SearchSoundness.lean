import Deduction.Proofs.Propositional
import Deduction.Proofs.SearchInversion

/-!
# Searches append what they need and nothing else

A successful search has appended theorems to the theory it started from, and the last of them states
the target.  None of them was valid before or states what another one states, and each of the others
is a premise of a later one: nothing is left over from attempts that were given up.

A recursive search hands a growing theory from one premise to the next, and a premise is searched
for with one level less.  `Adds` says what has happened to the theory so far.  It speaks of the
statements that the theorems were appended for, the *goals*, and of those that an enclosing search
is after, the *excluded* statements, which no appended theorem may state.  That is what keeps the
target new until its own theorem is appended: it is excluded from all searches for its premises.

The invariant composes along the premises of a rule (`Adds.append`), it is closed by the theorem
that the premises were settled for (`Adds.conclude`), and it holds of each level of the search if
it holds of the level below (`step_finds`).
-/

namespace Deduction

namespace Search

/-! ## Theorems that serve a purpose -/

/-- Each theorem of the list states a goal or is a premise of a later one. -/
def Needed (goals : List Formula) : List Theorem → Prop
  | [] => True
  | th :: later =>
    (th.statement ∈ goals ∨ ∃ u ∈ later, th.statement ∈ u.inference.premises.elements) ∧
      Needed goals later

theorem Needed.mono {goals goals' : List Formula} (hsub : goals ⊆ goals') {ths : List Theorem}
    (h : Needed goals ths) : Needed goals' ths := by
  induction ths with
  | nil => trivial
  | cons th later ih => exact ⟨h.1.imp_left (@hsub _), ih h.2⟩

theorem Needed.append {goals : List Formula} {ths ths' : List Theorem} (h : Needed goals ths)
    (h' : Needed goals ths') : Needed goals (ths ++ ths') := by
  induction ths with
  | nil => exact h'
  | cons th later ih =>
    refine ⟨h.1.imp_right ?_, ih h.2⟩
    rintro ⟨u, hu, hpremise⟩
    exact ⟨u, List.mem_append_left _ hu, hpremise⟩

theorem Needed.conclude {ths : List Theorem} {th : Theorem}
    (h : Needed th.inference.premises.elements ths) : Needed [th.statement] (ths ++ [th]) := by
  induction ths with
  | nil => exact ⟨.inl (by simp), trivial⟩
  | cons t later ih =>
    -- A goal so far is a premise of the theorem at the end.
    refine ⟨.inr ?_, ih h.2⟩
    rcases h.1 with hgoal | ⟨u, hu, hpremise⟩
    · exact ⟨th, by simp, hgoal⟩
    · exact ⟨u, List.mem_append_left _ hu, hpremise⟩

theorem Needed.getElem? {goals : List Formula} {ths : List Theorem} (h : Needed goals ths)
    {i : Nat} {th : Theorem} (hi : ths[i]? = some th) :
    th.statement ∈ goals ∨ ∃ j u, i < j ∧ ths[j]? = some u ∧
      th.statement ∈ u.inference.premises.elements := by
  induction ths generalizing i with
  | nil => simp at hi
  | cons t later ih =>
    cases i with
    | zero =>
      obtain rfl : t = th := by simpa using hi
      refine h.1.imp_right ?_
      rintro ⟨u, hu, hpremise⟩
      obtain ⟨j, hj⟩ := List.mem_iff_getElem?.mp hu
      exact ⟨j + 1, u, by omega, by simpa using hj, hpremise⟩
    | succ i =>
      refine (ih h.2 (by simpa using hi)).imp_right ?_
      rintro ⟨j, u, hlt, hj, hpremise⟩
      exact ⟨j + 1, u, by omega, by simpa using hj, hpremise⟩

/-! ## The invariant of a growing theory -/

/-- The theorems `ths` have led from `T` to `T'`.  They were appended, and nothing else was.  They
state different things, none of which was valid or is excluded, and they serve the goals. -/
structure Adds (excluded goals : List Formula) (T : Theory) (ths : List Theorem) (T' : Theory) :
    Prop where
  followed : T.FollowedBy ths T'
  fresh : ∀ th ∈ ths, ¬ T.IsValid th.statement
  distinct : (ths.map (·.statement)).Nodup
  avoids : ∀ th ∈ ths, th.statement ∉ excluded
  needed : Needed goals ths

theorem adds_nil (excluded goals : List Formula) (T : Theory) : Adds excluded goals T [] T where
  followed := T.followedBy_nil
  fresh := by simp
  distinct := List.nodup_nil
  avoids := by simp
  needed := trivial

variable {excluded goals : List Formula} {T W T' : Theory} {ths ths' : List Theorem}

theorem Adds.mono {goals' : List Formula} (h : Adds excluded goals T ths T')
    (hsub : goals ⊆ goals') : Adds excluded goals' T ths T' :=
  { h with needed := h.needed.mono hsub }

theorem Adds.append (h : Adds excluded goals T ths W) (h' : Adds excluded goals W ths' T') :
    Adds excluded goals T (ths ++ ths') T' where
  followed := h.followed.append h'.followed
  fresh th hth := by
    rcases List.mem_append.mp hth with hth | hth
    · exact h.fresh th hth
    · exact fun hvalid => h'.fresh th hth (h.followed.isValid hvalid)
  distinct := by
    rw [List.map_append, List.nodup_append]
    refine ⟨h.distinct, h'.distinct, ?_⟩
    intro φ hφ ψ hψ heq
    obtain ⟨th, hth, rfl⟩ := List.mem_map.mp hφ
    obtain ⟨th', hth', rfl⟩ := List.mem_map.mp hψ
    -- What the first theorems state is valid by the time the second ones are appended.
    have hvalid : W.IsValid th'.statement := h.followed.isValid_iff.mpr (.inr ⟨th, hth, heq⟩)
    exact h'.fresh th' hth' hvalid
  avoids th hth := by
    rcases List.mem_append.mp hth with hth | hth
    · exact h.avoids th hth
    · exact h'.avoids th hth
  needed := h.needed.append h'.needed

/-- A statement that is excluded while its premises are settled is not valid after that, so its
theorem is new. -/
theorem Adds.not_isValid {target : Formula} (h : Adds (excluded ++ [target]) goals T ths W)
    (hnew : ¬ T.IsValid target) : ¬ W.IsValid target := by
  rw [h.followed.isValid_iff]
  rintro (hvalid | ⟨th, hth, rfl⟩)
  · exact hnew hvalid
  · exact h.avoids th hth (by simp)

/-- The theorem that the premises were settled for closes the list. -/
theorem Adds.conclude {th : Theorem}
    (h : Adds (excluded ++ [th.statement]) th.inference.premises.elements T ths W)
    (hnew : ¬ T.IsValid th.statement) (hexcluded : th.statement ∉ excluded)
    (hT' : T'.derivations = appendNew W.derivations [.proved th]) :
    Adds excluded [th.statement] T (ths ++ [th]) T' where
  followed := h.followed.append (Theory.followedBy_of_appendNew (h.not_isValid hnew) hT')
  fresh t ht := by
    rcases List.mem_append.mp ht with ht | ht
    · exact h.fresh t ht
    · obtain rfl := List.mem_singleton.mp ht
      exact hnew
  distinct := by
    rw [List.map_append, List.nodup_append]
    refine ⟨h.distinct, by simp, ?_⟩
    intro φ hφ ψ hψ heq
    obtain ⟨t, ht, rfl⟩ := List.mem_map.mp hφ
    obtain rfl : ψ = th.statement := by simpa using hψ
    exact h.avoids t ht (by simp [heq])
  avoids t ht := by
    rcases List.mem_append.mp ht with ht | ht
    · exact fun hmem => h.avoids t ht (List.mem_append_left _ hmem)
    · obtain rfl := List.mem_singleton.mp ht
      exact hexcluded
  needed := h.needed.conclude

/-! ## The invariant along a search -/

/-- The search for the target in `T` has succeeded: theorems were appended for the target, and one
derivation is handed over, which states it. -/
structure Finds (excluded : List Formula) (T : Theory) (target : Formula) (o : Outcome) : Prop where
  adds : ∃ ths, Adds excluded [target] T ths o.theory
  justified : ∃ d ∈ o.theory.derivations, o.derivations = [d] ∧ d.statement? = some target

/-- Whatever theory `settle` returns for some premises, it has appended theorems for these premises
to `T`. -/
def Settles (settle : List Formula → Run (Option Theory)) (excluded : List Formula) (T : Theory) :
    Prop :=
  ∀ premises W, (settle premises).result = .ok (some W) → ∃ ths, Adds excluded premises T ths W

theorem settled_settles (excluded : List Formula) (T : Theory) :
    Settles (settled T) excluded T := by
  intro premises W h
  obtain ⟨rfl, -⟩ := settled_eq_some.mp h
  exact ⟨[], adds_nil excluded premises W⟩

variable {target : Formula} {o : Outcome}

/-- A search that settles premises without touching the target appends what it needs. -/
theorem Ends.finds {settles : List (List Formula → Run (Option Theory))}
    (h : Ends settles T target o) (hexcluded : target ∉ excluded)
    (hsettles : ∀ settle ∈ settles, Settles settle (excluded ++ [target]) T)
    (hsuccess : o.success = true) : Finds excluded T target o := by
  cases h with
  | valid hd =>
    obtain ⟨hmem, hstated⟩ := Theory.justification?_eq_some hd
    exact ⟨⟨[], adds_nil excluded _ T⟩, ⟨_, hmem, rfl, hstated⟩⟩
  | @derived settle _ W th hnew hsettle h _ =>
    obtain ⟨hsettled, rfl, hderivations, hfound⟩ := h
    obtain ⟨ths, hths⟩ := hsettles settle hsettle _ W hsettled
    have hmem : .proved th ∈ o.theory.derivations := by simp [hderivations]
    refine ⟨⟨ths ++ [th], hths.conclude hnew hexcluded hderivations⟩, ⟨.proved th, hmem, ?_, rfl⟩⟩
    rw [hfound]
    rfl
  | failed => simp [Outcome.failure] at hsuccess

theorem establish_settles {search : Theory → Formula → Run Outcome}
    (hsearch : ∀ T p o, p ∉ excluded → (search T p).result = .ok o → o.success = true →
      Finds excluded T p o) : Settles (establish search excluded T) excluded T := by
  intro premises W h
  -- The premises are established one after the other, each in the theory that the last one left.
  induction premises generalizing T with
  | nil =>
    obtain rfl : T = W := by simpa [establish] using h
    exact ⟨[], adds_nil excluded [] T⟩
  | cons p ps ih =>
    have hsub : ps ⊆ p :: ps := List.subset_cons_self p ps
    rw [establish] at h
    split at h
    · obtain ⟨ths, hths⟩ := ih h
      exact ⟨ths, hths.mono hsub⟩
    · split at h
      · simp at h
      next hexcluded =>
        obtain ⟨outcome, houtcome, h⟩ := Run.bind_eq_ok.mp h
        split at h
        next hsuccess =>
          obtain ⟨ths, hths⟩ := (hsearch T p outcome hexcluded houtcome hsuccess).adds
          obtain ⟨ths', hths'⟩ := ih h
          exact ⟨ths ++ ths', (hths.mono (by simp)).append (hths'.mono hsub)⟩
        · simp at h

/-- The recursive search appends what it needs: a level does if the level below it does. -/
theorem step_finds {remaining : Nat} (hexcluded : target ∉ excluded)
    (h : (step remaining excluded T target).result = .ok o) (hsuccess : o.success = true) :
    Finds excluded T target o := by
  induction remaining generalizing excluded T target o with
  | zero =>
    refine (level_ends h).finds hexcluded ?_ hsuccess
    simpa using settled_settles _ T
  | succ n ih =>
    cases n with
    | zero =>
      refine (level_ends h).finds hexcluded ?_ hsuccess
      simpa using settled_settles _ T
    | succ n =>
      refine (level_ends h).finds hexcluded ?_ hsuccess
      have hdeeper : Settles (establish (step (n + 1) (excluded ++ [target])) (excluded ++ [target])
          T) (excluded ++ [target]) T :=
        establish_settles fun T p o hp h hsuccess => ih hp h hsuccess
      simpa using ⟨settled_settles _ T, hdeeper⟩

theorem recursive_finds {depth : Nat} (h : (recursive T target depth).result = .ok o)
    (hsuccess : o.success = true) : Finds [] T target o :=
  step_finds (by simp) h hsuccess

/-! ## Soundness -/

/-- What a successful search for the target in `T` hands over.  The theory starts with the
derivations of `T`, and everything behind them is a theorem; checking it once more from its first
derivation on succeeds; the target is valid in it, and the one derivation that is handed over stands
in it and states the target. -/
structure Established (T : Theory) (target : Formula) (o : Outcome) : Prop where
  front : T.derivations <+: o.theory.derivations
  theorems : ∀ d ∈ o.theory.derivations.drop T.derivations.length, d.IsTheorem
  revalidates : Theory.ofList o.theory.derivations = .ok o.theory
  valid : o.theory.IsValid target
  derivation : ∃ d ∈ o.theory.derivations, o.derivations = [d] ∧ d.statement? = some target

theorem Finds.established (h : Finds excluded T target o) : Established T target o := by
  obtain ⟨ths, hths⟩ := h.adds
  have hderivations : o.theory.derivations = T.derivations ++ ths.map .proved := hths.followed
  obtain ⟨d, hd, hds, hstated⟩ := h.justified
  refine {
    front := hderivations ▸ List.prefix_append _ _
    theorems := ?_
    revalidates := Theory.ofList_eq_ok.mpr rfl
    valid := Theory.isValid_iff.mpr ⟨d, hd, hstated⟩
    derivation := ⟨d, hd, hds, hstated⟩ }
  intro e he
  rw [hderivations, List.drop_left] at he
  obtain ⟨th, -, rfl⟩ := List.mem_map.mp he
  trivial

theorem Ends.eq_failure {settles : List (List Formula → Run (Option Theory))}
    (h : Ends settles T target o) (hfail : o.success = false) : o = .failure T := by
  cases h with
  | valid hd => simp [Outcome.found] at hfail
  | derived hnew hsettle h _ =>
    rw [h.found] at hfail
    simp [Outcome.found] at hfail
  | failed => rfl

theorem step_ends {remaining : Nat} (h : (step remaining excluded T target).result = .ok o) :
    ∃ settles, Ends settles T target o := by
  match remaining, h with
  | 0, h | 1, h | _ + 2, h => exact ⟨_, level_ends h⟩

/-- A search that takes only premises that are valid beforehand appends what it needs. -/
theorem Ends.finds_settled {settles : List (List Formula → Run (Option Theory))}
    (h : Ends settles T target o) (hsettles : settles ⊆ [settled T])
    (hsuccess : o.success = true) : Finds [] T target o := by
  refine h.finds (by simp) (fun settle hsettle => ?_) hsuccess
  obtain rfl := List.mem_singleton.mp (hsettles hsettle)
  exact settled_settles _ T

theorem Ends.established {settles : List (List Formula → Run (Option Theory))}
    (h : Ends settles T target o) (hsettles : settles ⊆ [settled T])
    (hsuccess : o.success = true) : Established T target o :=
  (h.finds_settled hsettles hsuccess).established

/-- Every search is sound and all-or-nothing.  If it succeeds, it has appended theorems to the
theory, the result passes the check of a theory, and it hands over a derivation of the target; if it
does not succeed, the theory is what it was and no derivation is handed over. -/
theorem searches_sound (T : Theory) (target : Formula) (rule : InferenceRule) (depth : Nat) :
    ∀ run ∈ [exact T target, singleLevel T target, withRule T target rule,
        recursive T target depth], ∀ o, run.result = .ok o →
      (o.success = true → Established T target o) ∧
        (o.success = false → o.theory = T ∧ o.derivations = []) := by
  intro run hrun o h
  have hfailure {settles} (hends : Ends settles T target o) (hfail : o.success = false) :
      o.theory = T ∧ o.derivations = [] := by
    rw [hends.eq_failure hfail]
    exact ⟨rfl, rfl⟩
  simp only [List.mem_cons, List.not_mem_nil, or_false] at hrun
  rcases hrun with rfl | rfl | rfl | rfl
  · have hends := exact_ends h
    exact ⟨hends.established (by simp), hfailure hends⟩
  · have hends := singleLevel_ends h
    exact ⟨hends.established (by simp), hfailure hends⟩
  · have hends := withRule_ends h
    exact ⟨hends.established (by simp), hfailure hends⟩
  · obtain ⟨settles, hends⟩ := step_ends h
    exact ⟨fun hsuccess => (recursive_finds h hsuccess).established, hfailure hends⟩

open Propositional in
/-- A conjunction in a conjunction is found on the second level. -/
theorem exists_recursive_nested :
    ∃ o, (recursive developed (both (both p q) r) 2).result = .ok o ∧ o.success = true :=
  exists_ok_of_success (by decide +kernel)

open Propositional in
/-- The search for a nested conjunction has to establish the inner one first. -/
theorem searches_sound_nested :
    ∃ o, (recursive developed (both (both p q) r) 2).result = .ok o ∧ o.success = true ∧
      Established developed (both (both p q) r) o := by
  obtain ⟨o, h, hsuccess⟩ := exists_recursive_nested
  have hsound := searches_sound developed (both (both p q) r) joining 2 _ (by simp) o h
  exact ⟨o, h, hsuccess, hsound.1 hsuccess⟩

/-! ## Economy -/

theorem Adds.index_eq (h : Adds excluded goals T ths T') {i j : Nat} {th u : Theorem}
    (hi : ths[i]? = some th) (hj : ths[j]? = some u) (heq : th.statement = u.statement) :
    i = j := by
  have hlength : i < (ths.map (·.statement)).length := by
    simpa using (List.getElem?_eq_some_iff.mp hi).1
  refine (List.getElem?_inj hlength h.distinct).mp ?_
  simp [hi, hj, heq]

theorem Adds.not_isValid_at (h : Adds excluded goals T ths T') {i : Nat} {th : Theorem}
    (hi : ths[i]? = some th) :
    ∃ S, T.FollowedBy (ths.take i) S ∧ ¬ S.IsValid th.statement := by
  obtain ⟨S, hS⟩ := h.followed.exists_take i
  refine ⟨S, hS, ?_⟩
  rw [hS.isValid_iff]
  rintro (hvalid | ⟨u, hu, heq⟩)
  · exact h.fresh th (List.mem_of_getElem? hi) hvalid
  · -- An earlier theorem would have the same statement at another position.
    obtain ⟨j, hj, hu⟩ := exists_lt_of_mem_take hu
    have := h.index_eq hu hi heq
    omega

/-- The last theorem states the target, which nothing else gives it a reason to. -/
theorem Adds.last_statement (h : Adds excluded [target] T ths T') {last : Theorem}
    (hlast : ths[ths.length - 1]? = some last) : last.statement = target := by
  rcases h.needed.getElem? hlast with hgoal | ⟨j, u, hlt, hj, -⟩
  · exact List.mem_singleton.mp hgoal
  · have := (List.getElem?_eq_some_iff.mp hj).1
    omega

theorem Adds.premise_of_later (h : Adds excluded [target] T ths T') {i : Nat} {th : Theorem}
    (hi : ths[i]? = some th) (hnotLast : i + 1 < ths.length) :
    ∃ j u, i < j ∧ ths[j]? = some u ∧ th.statement ∈ u.inference.premises.elements := by
  rcases h.needed.getElem? hi with hgoal | hused
  · -- Only the last theorem states the target.
    exfalso
    obtain ⟨last, hlast⟩ : ∃ last, ths[ths.length - 1]? = some last :=
      ⟨_, List.getElem?_eq_getElem (by omega)⟩
    have heq : th.statement = last.statement :=
      (List.mem_singleton.mp hgoal).trans (h.last_statement hlast).symm
    have := h.index_eq hi hlast heq
    omega
  · exact hused

/-- A recursive search for a target that is not valid yet appends no theorem in vain.  There is at
least one, and the last states the target; no theorem states what is valid in the theory before it,
so that the statements are new and different; and each theorem before the last is a premise of a
later one. -/
theorem recursive_economical {T : Theory} {target : Formula} {depth : Nat} {o : Outcome}
    (hnew : ¬ T.IsValid target) (h : (recursive T target depth).result = .ok o)
    (hsuccess : o.success = true) :
    ∃ ths : List Theorem, T.FollowedBy ths o.theory ∧
      (∃ last, ths.getLast? = some last ∧ last.statement = target) ∧
      (∀ i th, ths[i]? = some th →
        ∃ S, T.FollowedBy (ths.take i) S ∧ ¬ S.IsValid th.statement) ∧
      (ths.map (·.statement)).Nodup ∧ (∀ th ∈ ths, ¬ T.IsValid th.statement) ∧
      ∀ i th, ths[i]? = some th → i + 1 < ths.length →
        ∃ j u, i < j ∧ ths[j]? = some u ∧ th.statement ∈ u.inference.premises.elements := by
  have hfinds := recursive_finds h hsuccess
  obtain ⟨ths, hths⟩ := hfinds.adds
  have hne : ths ≠ [] := by
    rintro rfl
    rcases hths.followed.isValid_iff.mp hfinds.established.valid with hvalid | ⟨th, hth, -⟩
    · exact hnew hvalid
    · simp at hth
  have hlast : ths[ths.length - 1]? = some (ths.getLast hne) := by
    rw [← List.getLast?_eq_getElem?, List.getLast?_eq_some_getLast hne]
  refine ⟨ths, hths.followed, ⟨ths.getLast hne, List.getLast?_eq_some_getLast hne,
    hths.last_statement hlast⟩, ?_, hths.distinct, hths.fresh, ?_⟩
  · intro i th hi
    exact hths.not_isValid_at hi
  · intro i th hi hnotLast
    exact hths.premise_of_later hi hnotLast

open Propositional in
/-- The inner conjunction is appended for the outer one. -/
theorem recursive_economical_nested :
    ∃ o, ¬ developed.IsValid (both (both p q) r) ∧
      (recursive developed (both (both p q) r) 2).result = .ok o ∧ o.success = true ∧
      ∃ ths : List Theorem, developed.FollowedBy ths o.theory ∧
        ∃ last, ths.getLast? = some last ∧ last.statement = both (both p q) r := by
  have hnew : ¬ developed.IsValid (both (both p q) r) := by decide
  obtain ⟨o, h, hsuccess⟩ := exists_recursive_nested
  obtain ⟨ths, hths, hlast, -⟩ := recursive_economical hnew h hsuccess
  exact ⟨o, hnew, h, hsuccess, ths, hths, hlast⟩

end Search

end Deduction
