import Deduction.Proofs.SearchTiers
import Deduction.Proofs.Transformations

/-!
# Searching deeper

A search that is given more levels may go other ways.  It establishes the premises of a rule one
after the other, takes for each the first derivation that it finds, and does not come back to it.
With more levels it may find another derivation of the first premise, and what that leaves in the
theory need not do for the second one: a derivation that was found with fewer levels can be lost
(`Search.recursive_lost`).

What is not lost is told by `Search.Within`: a formula is within `n` levels of a theory if rules
lead to it in `n` levels whose free variables are given statements of the theory itself, and not of
what a search has added to it on the way.  A search with as many levels does not fail for such a
formula, whatever has been added (`Search.step_complete`).  The reason why exclusion does no harm is
that a statement cannot be needed for itself in a derivation with the fewest levels.

`Search.recursive_deepens` says when a success is kept by every deeper search.  It is kept if it
took two levels, where only single-level searches establish premises, and these do not change with
the depth.  It is kept if each rule has at most one premise to search for, since then nothing is
added before that premise is searched for.  And a target that is within the greater depth is not
searched for in vain, even if no smaller depth is enough.
-/

namespace Deduction

/-! ## Rules with one premise to search for -/

namespace Transformation

/-- The premise is a variable that the conclusion lacks.  Only valid statements are tried for it. -/
def IsFree (t : Transformation) (p : Formula) : Prop :=
  p ∈ t.vars.elements ∧ t.conclusion.contains p = false

/-- All premises but the free variables are the same. -/
def Linear (t : Transformation) : Prop :=
  ∀ p ∈ t.premises.elements, ∀ q ∈ t.premises.elements, ¬ t.IsFree p → ¬ t.IsFree q → p = q

instance (t : Transformation) : DecidablePred t.IsFree :=
  fun _ => inferInstanceAs (Decidable (_ ∧ _))

instance (t : Transformation) : Decidable t.Linear :=
  inferInstanceAs (Decidable (∀ p ∈ t.premises.elements, _))

/-- A premise that is a free variable becomes a formula of the pool. -/
theorem Completes.substitute_mem_pool {t : Transformation} {target p : Formula}
    {pool : List Formula} {m : Map} (h : t.Completes target pool m)
    (hp : p ∈ t.premises.elements) (hfree : t.IsFree p) : p.substitute m ∈ pool := by
  obtain ⟨b, hmatch, hm⟩ := h
  have hbound : p ∉ b.keys := by
    rw [mem_keys_matchConclusion hmatch, ← Formula.contains_iff_mem_preorder, hfree.2]
    simp
  have hvar : p ∈ t.freeVariables b :=
    mem_freeVariables.mpr ⟨hfree.1, hbound, p, hp, p.mem_preorder_self⟩
  obtain ⟨image, hget⟩ : ∃ image, m.get? p = some image :=
    Option.isSome_iff_exists.mp (Map.get?_isSome.mpr ((mem_keys_assignments hm).mpr (.inr hvar)))
  have himage : image ∈ pool := by
    rcases mem_pairs_assignments hm (Map.get?_eq_some.mp hget) with hpair | hpool
    · exact absurd (Map.mem_keys_of_mem hpair) hbound
    · exact hpool
  cases p with
  | node c ts => rwa [Formula.substitute_node, hget]

end Transformation

/-- More elements have all the arrangements of fewer. -/
theorem arrangements_subset_append {α : Type} (n : Nat) (xs extra : List α) :
    arrangements n xs ⊆ arrangements n (xs ++ extra) := by
  induction n generalizing xs with
  | zero => simp [arrangements]
  | succ n ih =>
    intro ys hys
    obtain ⟨⟨x, rest⟩, hpick, hys⟩ := List.mem_flatMap.mp hys
    obtain ⟨zs, hzs, rfl⟩ := List.mem_map.mp hys
    obtain ⟨front, back, rfl, rfl⟩ := mem_picks.mp hpick
    have hpick' : (x, front ++ back ++ extra) ∈ picks (front ++ x :: back ++ extra) :=
      mem_picks.mpr ⟨front, back ++ extra, by simp, by simp⟩
    exact List.mem_flatMap.mpr ⟨_, hpick', List.mem_map_of_mem (ih _ hzs)⟩

namespace Search

variable {settle : List Formula → Run (Option Theory)} {T W : Theory} {target φ : Formula}
  {premises excluded : List Formula} {o : Outcome}

/-! ## What a search tries -/

/-- A rule of the theory leads from the premises to the target, and they are the ones that a search
for the target tries to settle for the rule and some bindings. -/
inductive Leads (T : Theory) (target : Formula) : List Formula → Prop where
  | intro {rule : InferenceRule} {m : Map} (hrule : rule ∈ T.rules)
      (hm : rule.transformation.Completes target T.validStatements m)
      (happly : rule.transformation.apply (rule.transformation.necessaryPremises m).elements =
        .ok target) :
      Leads T target (rule.transformation.necessaryPremises m).elements

/-- Theorems that are appended leave open what could be tried before. -/
theorem Leads.mono {ths : List Theorem} (h : Leads T target premises) (hW : T.FollowedBy ths W) :
    Leads W target premises := by
  cases h with
  | @intro rule m hrule hm happly =>
    have hpool : W.validStatements = T.validStatements ++ ths.map (·.statement) := by
      simp only [Theory.validStatements, show W.derivations = _ from hW, List.filterMap_append,
        List.filterMap_map]
      simp [Function.comp_def, Derivation.statement?]
    obtain ⟨b, hmatch, hm⟩ := hm
    refine .intro (hW.rules_eq ▸ hrule) ⟨b, hmatch, ?_⟩ happly
    rw [assignments_eq_map] at hm ⊢
    rw [hpool]
    exact List.map_subset _ (arrangements_subset_append _ _ _) hm

theorem result_applyRule {rule : InferenceRule} {b : Map}
    (hmatch : rule.transformation.matchConclusion target = .ok (some b)) :
    (applyRule settle T target rule).result =
      (Run.firstSome (tryCandidate settle target rule)
        (assignments (rule.transformation.freeVariables b) T.validStatements b)).result := by
  rw [applyRule, hmatch, ← firstAssignment_eq_firstSome]
  rfl

/-- If trying the rules finds nothing, the premises that lead to the target were not settled. -/
theorem Leads.settle_eq_none (h : Leads T target premises)
    (hnone : (applyRules settle T target).result = .ok none) :
    (settle premises).result = .ok none := by
  cases h with
  | @intro rule m hrule hm happly =>
    obtain ⟨b, hmatch, hm⟩ := hm
    have htried := Run.firstSome_eq_none.mp hnone rule hrule
    rw [result_applyRule hmatch] at htried
    have htried := Run.firstSome_eq_none.mp htried m hm
    obtain ⟨⟨⟩, -, htried⟩ := Run.bind_eq_ok.mp htried
    obtain ⟨conclusion, hconclusion, htried⟩ := Run.bind_eq_ok.mp htried
    obtain rfl : target = conclusion := Except.ok.inj (happly.symm.trans hconclusion)
    obtain ⟨settled?, hsettled, htried⟩ := Run.bind_eq_ok.mp (by simpa using htried)
    cases settled? with
    | none => exact hsettled
    | some W =>
      obtain ⟨⟨T', t⟩, -, htried⟩ := Run.bind_eq_ok.mp htried
      simp at htried

/-- If trying the rules finds a derivation, premises that lead to the target were settled. -/
theorem exists_leads (h : (applyRules settle T target).result = .ok (some o)) :
    ∃ premises W, Leads T target premises ∧ (settle premises).result = .ok (some W) := by
  obtain ⟨rule, hrule, h⟩ := Run.exists_of_firstSome_eq_some h
  cases hmatch : rule.transformation.matchConclusion target with
  | error e =>
    rw [applyRule, hmatch] at h
    cases h
  | ok b? =>
    cases b? with
    | none =>
      rw [applyRule, hmatch] at h
      cases h
    | some b =>
      rw [result_applyRule hmatch] at h
      obtain ⟨m, hm, h⟩ := Run.exists_of_firstSome_eq_some h
      obtain ⟨W, t, ⟨hsettled, hstatement, -, -⟩, hinference⟩ := tryCandidate_eq_some h
      rw [hinference] at hsettled
      have happly := t.derives
      rw [hinference, hstatement] at happly
      exact ⟨_, W, .intro hrule ⟨b, hmatch, hm⟩ happly, hsettled⟩

/-! ## What a search that ends has done -/

theorem succeeds_orElse {attempt : Run (Option Outcome)} {next : Run Outcome}
    (h : Succeeds (attempt.orElse next)) :
    (∃ o, attempt.result = .ok (some o)) ∨ Succeeds next := by
  obtain ⟨o, ho, hsuccess⟩ := h
  obtain ⟨o?, hattempt, ho⟩ := Run.bind_eq_ok.mp ho
  cases o? with
  | some found => exact .inl ⟨found, hattempt⟩
  | none => exact .inr ⟨o, ho, hsuccess⟩

theorem not_succeeds_fail (T : Theory) (rule? : Option InferenceRule) :
    ¬ Succeeds (fail T rule?) := by
  rintro ⟨o, ho, hsuccess⟩
  obtain rfl : Outcome.failure T = o := Except.ok.inj ho
  simp [Outcome.failure] at hsuccess

/-- A level that succeeds has found the target among the valid statements or has settled premises
that lead to it. -/
theorem succeeds_level {depth : Nat} {deeper? : Option (List Formula → Run (Option Theory))}
    (h : Succeeds (level depth deeper? T target)) :
    T.IsValid target ∨ ∃ settle ∈ settled T :: deeper?.toList, ∃ premises W,
      Leads T target premises ∧ (settle premises).result = .ok (some W) := by
  unfold level at h
  rcases succeeds_orElse h with ⟨o, ho⟩ | h
  · rcases lookUp_cases ho with ⟨d, hd, -⟩ | ⟨-, hnone⟩
    · obtain ⟨hmem, hstated⟩ := Theory.justification?_eq_some hd
      exact .inl (Theory.isValid_iff.mpr ⟨d, hmem, hstated⟩)
    · simp at hnone
  · right
    rcases succeeds_orElse h with ⟨o, ho⟩ | h
    · exact ⟨settled T, by simp, exists_leads ho⟩
    · cases deeper? with
      | none => exact absurd h (not_succeeds_fail T none)
      | some settle =>
        rcases succeeds_orElse h with ⟨o, ho⟩ | h
        · exact ⟨settle, by simp, exists_leads ho⟩
        · exact absurd h (not_succeeds_fail T none)

/-- A level that fails has settled no premises that lead to the target. -/
theorem fails_level {depth : Nat} {deeper? : Option (List Formula → Run (Option Theory))}
    (h : Fails (level depth deeper? T target)) :
    ¬ T.IsValid target ∧ ∀ settle ∈ settled T :: deeper?.toList, ∀ premises,
      Leads T target premises → (settle premises).result = .ok none := by
  have hderived {settle : List Formula → Run (Option Theory)} (o : Outcome)
      (ho : (applyRules settle T target).result = .ok (some o)) : o.success = true := by
    obtain ⟨W, t, ht, -⟩ := applyRules_eq_some ho
    rw [ht.found]
    rfl
  have hlooked (o : Outcome) (ho : (lookUp T target).result = .ok (some o)) :
      o.success = true := by
    rcases lookUp_cases ho with ⟨d, -, hfound⟩ | ⟨-, hnone⟩
    · obtain rfl : o = .found T d := Option.some.inj hfound
      rfl
    · simp at hnone
  unfold level at h
  obtain ⟨hlookUp, h⟩ := fails_orElse hlooked h
  have hnew : ¬ T.IsValid target := by
    rcases lookUp_cases hlookUp with ⟨d, -, hsome⟩ | ⟨hnew, -⟩
    · simp at hsome
    · exact hnew
  obtain ⟨hsettled, h⟩ := fails_orElse hderived h
  refine ⟨hnew, fun settle hsettle premises hleads => ?_⟩
  rcases List.mem_cons.mp hsettle with rfl | hsettle
  · exact hleads.settle_eq_none hsettled
  · obtain rfl : deeper? = some settle := by simpa [eq_comm] using hsettle
    obtain ⟨hdeeper, -⟩ := fails_orElse hderived h
    exact hleads.settle_eq_none hdeeper

/-- How a search establishes premises with the levels below it. -/
abbrev below (n : Nat) (excluded : List Formula) (T : Theory) (target : Formula) :
    List Formula → Run (Option Theory) :=
  establish (step (n + 1) (excluded ++ [target])) (excluded ++ [target]) T

theorem succeeds_step {remaining : Nat} (h : Succeeds (step remaining excluded T target)) :
    T.IsValid target ∨ ∃ premises, Leads T target premises ∧ ((∀ p ∈ premises, T.IsValid p) ∨
      ∃ n W, remaining = n + 2 ∧ (below n excluded T target premises).result = .ok (some W)) := by
  match remaining, h with
  | 0, h | 1, h =>
    refine (succeeds_level h).imp_right ?_
    rintro ⟨settle, hsettle, premises, W, hleads, hsettled⟩
    obtain rfl : settle = settled T := by simpa using hsettle
    exact ⟨premises, hleads, .inl (settled_eq_some.mp hsettled).2⟩
  | n + 2, h =>
    refine (succeeds_level h).imp_right ?_
    rintro ⟨settle, hsettle, premises, W, hleads, hsettled⟩
    rcases List.mem_cons.mp hsettle with rfl | hsettle
    · exact ⟨premises, hleads, .inl (settled_eq_some.mp hsettled).2⟩
    · obtain rfl : settle = below n excluded T target := by simpa using hsettle
      exact ⟨premises, hleads, .inr ⟨n, W, rfl, hsettled⟩⟩

theorem fails_step {remaining : Nat} (h : Fails (step remaining excluded T target)) :
    ¬ T.IsValid target ∧ ∀ premises, Leads T target premises → (¬ ∀ p ∈ premises, T.IsValid p) ∧
      ∀ n, remaining = n + 2 → (below n excluded T target premises).result = .ok none := by
  have hsettled {premises : List Formula} (h : (settled T premises).result = .ok none) :
      ¬ ∀ p ∈ premises, T.IsValid p := by
    intro hvalid
    have hsome := settled_eq_some.mpr ⟨rfl, hvalid⟩
    simp [h] at hsome
  match remaining, h with
  | 0, h | 1, h =>
    refine (fails_level h).imp_right fun hvain premises hleads => ⟨?_, by simp⟩
    exact hsettled (hvain (settled T) (by simp) premises hleads)
  | n + 2, h =>
    refine (fails_level h).imp_right fun hvain premises hleads => ⟨?_, ?_⟩
    · exact hsettled (hvain (settled T) (by simp) premises hleads)
    · intro k hk
      obtain rfl : n = k := by omega
      exact hvain (below n excluded T target) (by simp) premises hleads

/-! ## Levels of derivations -/

/-- The formula is valid in the theory or is reached from there by at most `n` levels of rules,
where the free variables of the rules are given statements that are valid in the theory. -/
inductive Within (T : Theory) : Nat → Formula → Prop where
  | valid {n : Nat} {φ : Formula} (h : T.IsValid φ) : Within T n φ
  | derived {n : Nat} {φ : Formula} {premises : List Formula} (hleads : Leads T φ premises)
      (hpremises : ∀ p ∈ premises, Within T n p) : Within T (n + 1) φ

theorem Within.mono {n n' : Nat} (h : Within T n φ) (hle : n ≤ n') : Within T n' φ := by
  induction h generalizing n' with
  | valid h => exact .valid h
  | derived hleads hpremises ih =>
    obtain ⟨k, rfl⟩ : ∃ k, n' = k + 1 := ⟨n' - 1, by omega⟩
    exact .derived hleads fun p hp => ih p hp (by omega)

theorem within_zero (h : Within T 0 φ) : T.IsValid φ := by
  cases h with
  | valid h => exact h

/-- Premises are established if no search for one of them fails and none of them is excluded. -/
theorem establish_ne_none {search : Theory → Formula → Run Outcome} {ths : List Theorem}
    (hW : T.FollowedBy ths W)
    (hfinds : ∀ S p o, p ∉ excluded → (search S p).result = .ok o → o.success = true →
      Finds excluded S p o)
    (hpremises : ∀ p ∈ premises, p ∉ excluded ∧
      ∀ S ths, T.FollowedBy ths S → ¬ Fails (search S p)) :
    (establish search excluded W premises).result ≠ .ok none := by
  induction premises generalizing W ths with
  | nil => simp [establish]
  | cons p ps ih =>
    obtain ⟨⟨hp, hsearch⟩, hps⟩ := List.forall_mem_cons.mp hpremises
    rw [establish]
    split
    · exact ih hW hps
    · intro h
      obtain ⟨o, ho, h⟩ := Run.bind_eq_ok.mp h
      split at h
      next hsuccess =>
        obtain ⟨ths', hths'⟩ := (hfinds W p o hp ho hsuccess).adds
        exact ih (hW.append hths'.followed) hps h
      next hfail => exact hsearch W ths hW ⟨o, ho, by simpa using hfail⟩

/-- A search with at least as many levels as the target is away from the theory does not fail, also
after theorems were appended, unless it is excluded from something that is no farther away. -/
theorem step_complete {n remaining : Nat} {ths : List Theorem} (hφ : Within T n φ)
    (hle : n ≤ remaining) (hW : T.FollowedBy ths W) (hexcluded : ∀ e ∈ excluded, ¬ Within T n e) :
    ¬ Fails (step remaining excluded W φ) := by
  induction n generalizing φ remaining excluded W ths with
  | zero =>
    intro hfails
    exact (fails_step hfails).1 (hW.isValid (within_zero hφ))
  | succ k ih =>
    -- With the fewest levels, the formula is not needed for its own premises.
    by_cases hfewer : Within T k φ
    · exact ih hfewer (by omega) hW fun e he h => hexcluded e he (h.mono (by omega))
    cases hφ with
    | valid h => exact absurd (.valid h) hfewer
    | derived hleads hpremises =>
      intro hfails
      obtain ⟨hmissing, hbelow⟩ := (fails_step hfails).2 _ (hleads.mono hW)
      cases k with
      | zero => exact hmissing fun p hp => hW.isValid (within_zero (hpremises p hp))
      | succ k =>
        obtain ⟨m, rfl⟩ : ∃ m, remaining = m + 2 := ⟨remaining - 2, by omega⟩
        have hfar : ∀ e ∈ excluded ++ [φ], ¬ Within T (k + 1) e := by
          intro e he h
          rcases List.mem_append.mp he with he | he
          · exact hexcluded e he (h.mono (by omega))
          · obtain rfl := List.mem_singleton.mp he
            exact hfewer h
        refine establish_ne_none hW (fun S p o hp ho hsuccess => step_finds hp ho hsuccess)
          (fun p hp => ⟨fun he => hfar p he (hpremises p hp), fun S ths' hS => ?_⟩)
          (hbelow m rfl)
        exact ih (hpremises p hp) (by omega) hS hfar

/-! ## One premise to search for -/

/-- Of the premises that a linear rule needs at most one is not valid. -/
theorem Leads.missing_unique (h : Leads T target premises)
    (hlinear : ∀ rule ∈ T.rules, rule.transformation.Linear) :
    ∀ p ∈ premises, ∀ q ∈ premises, ¬ T.IsValid p → ¬ T.IsValid q → p = q := by
  cases h with
  | @intro rule m hrule hm happly =>
    intro p hp q hq hpnew hqnew
    obtain ⟨p', hp', rfl⟩ := List.mem_map.mp hp
    obtain ⟨q', hq', rfl⟩ := List.mem_map.mp hq
    have heq : p' = q' := hlinear rule hrule p' hp' q' hq'
      (fun hfree => hpnew (hm.substitute_mem_pool hp' hfree))
      (fun hfree => hqnew (hm.substitute_mem_pool hq' hfree))
    rw [heq]

/-- If only one premise is missing, it is searched for in the theory as it is. -/
theorem succeeds_of_establish {search : Theory → Formula → Run Outcome} {p : Formula}
    (hunique : ∀ q ∈ premises, ¬ T.IsValid q → q = p) (hp : p ∈ premises) (hnew : ¬ T.IsValid p)
    (h : (establish search excluded T premises).result = .ok (some W)) :
    Succeeds (search T p) := by
  induction premises with
  | nil => simp at hp
  | cons q qs ih =>
    rw [establish] at h
    split at h
    next hvalid =>
      have hne : p ≠ q := fun heq => hnew (heq ▸ hvalid)
      exact ih (fun r hr => hunique r (by simp [hr])) (by simpa [hne] using hp) h
    next hmissing =>
      obtain rfl : q = p := hunique q (by simp) hmissing
      split at h
      · simp at h
      · obtain ⟨o, ho, h⟩ := Run.bind_eq_ok.mp h
        split at h
        next hsuccess => exact ⟨o, ho, hsuccess⟩
        · simp at h

/-- With linear rules, what a search finds is within its levels of the theory. -/
theorem within_of_succeeds {remaining : Nat}
    (hlinear : ∀ rule ∈ T.rules, rule.transformation.Linear)
    (h : Succeeds (step remaining excluded T φ)) : Within T (max 1 remaining) φ := by
  induction remaining using Nat.strongRecOn generalizing excluded φ with
  | ind remaining ih =>
    rcases succeeds_step h with hvalid | ⟨premises, hleads, hvalid | ⟨n, W, rfl, hbelow⟩⟩
    · exact .valid hvalid
    · exact (Within.derived hleads fun p hp => .valid (n := 0) (hvalid p hp)).mono (by omega)
    · refine (Within.derived hleads fun p hp => ?_).mono (show n + 1 + 1 ≤ _ by omega)
      by_cases hp' : T.IsValid p
      · exact .valid hp'
      have hunique : ∀ q ∈ premises, ¬ T.IsValid q → q = p := fun q hq hq' =>
        hleads.missing_unique hlinear q hq p hp hq' hp'
      exact (ih (n + 1) (by omega) (succeeds_of_establish hunique hp hp' hbelow)).mono (by omega)

/-! ## Two levels -/

/-- Premises that are established by single-level searches are established in the same way by deeper
ones. -/
theorem establish_deepens (n : Nat)
    (h : (establish (step 1 excluded) excluded T premises).result = .ok (some W)) :
    (establish (step n excluded) excluded T premises).result = .ok (some W) := by
  induction premises generalizing T with
  | nil => exact h
  | cons p ps ih =>
    rw [establish] at h ⊢
    split at h
    next hvalid =>
      rw [if_pos hvalid]
      exact ih h
    next hmissing =>
      split at h
      · simp at h
      next hexcluded =>
        rw [if_neg hmissing, if_neg hexcluded]
        obtain ⟨o, ho, h⟩ := Run.bind_eq_ok.mp h
        split at h
        next hsuccess =>
          rw [step_eq_singleLevel_of_le_one (le_refl 1)] at ho
          have hsingle : Succeeds (singleLevel T p) := ⟨o, ho, hsuccess⟩
          have hsame := step_eq_singleLevel hsingle.not_fails n excluded
          refine Run.bind_eq_ok.mpr ⟨o, hsame.trans ho, ?_⟩
          rw [if_pos hsuccess]
          exact ih h
        · simp at h

theorem not_fails_of_two_levels {remaining : Nat} (hle : 2 ≤ remaining)
    (h : Succeeds (step 2 excluded T target)) : ¬ Fails (step remaining excluded T target) := by
  intro hfails
  obtain ⟨hnew, hvain⟩ := fails_step hfails
  rcases succeeds_step h with hvalid | ⟨premises, hleads, hvalid | ⟨n, W, hn, hbelow⟩⟩
  · exact hnew hvalid
  · exact (hvain premises hleads).1 hvalid
  · obtain rfl : n = 0 := by omega
    obtain ⟨k, rfl⟩ : ∃ k, remaining = k + 2 := ⟨remaining - 2, by omega⟩
    have hnone := (hvain premises hleads).2 k rfl
    have hsome := establish_deepens (k + 1) hbelow
    simp [hnone] at hsome

/-! ## Successes that are kept -/

/-- Within its levels of the theory a target is never searched for in vain. -/
theorem recursive_complete {T : Theory} {target : Formula} {depth : Nat}
    (h : Within T depth target) : ¬ Fails (recursive T target depth) := by
  change ¬ Fails (step depth [] T target)
  exact step_complete h (le_refl _) T.followedBy_nil (by simp)

/-- A search that succeeds does not fail with as many or more levels, if these are the same, if it
has at most two levels, or if each rule has at most one premise to search for.  Where the target is
within the levels of the theory, no search with so many levels fails, whatever another one does. -/
theorem recursive_deepens (T : Theory) (target : Formula) (depth depth' : Nat) :
    (depth ≤ depth' → Succeeds (recursive T target depth) →
      depth = depth' ∨ depth ≤ 2 ∨ (∀ rule ∈ T.rules, rule.transformation.Linear) →
      ¬ Fails (recursive T target depth')) ∧
    (Within T depth' target → ¬ Fails (recursive T target depth')) := by
  refine ⟨fun hle h hkept => ?_, recursive_complete⟩
  by_cases hshallow : depth ≤ 1
  · obtain ⟨o, ho, hsuccess⟩ := h
    have hsingle : Succeeds (singleLevel T target) :=
      ⟨o, (step_eq_singleLevel_of_le_one hshallow []).symm.trans ho, hsuccess⟩
    have hsame := step_eq_singleLevel hsingle.not_fails depth' []
    exact fun hfails => hsingle.not_fails (hfails.congr hsame.symm)
  · rcases hkept with rfl | htwo | hlinear
    · exact h.not_fails
    · obtain rfl : depth = 2 := by omega
      exact not_fails_of_two_levels hle h
    · have hwithin : Within T (max 1 depth) target := within_of_succeeds hlinear h
      exact recursive_complete (hwithin.mono (by omega))

open Propositional in
/-- A nested conjunction takes two levels.  The atom at the end of a chain takes three, by a rule
with one premise to search for. -/
theorem recursive_deepens_propositional :
    (Succeeds (recursive developed (both (both p q) r) 2) ∧
      ¬ Fails (recursive developed (both (both p q) r) 7)) ∧
    (∀ rule ∈ chain.theory.rules, rule.transformation.Linear) ∧
      Succeeds (recursive chain.theory p 3) ∧ ¬ Fails (recursive chain.theory p 9) := by
  have hnested : Succeeds (recursive developed (both (both p q) r) 2) :=
    exists_ok_of_success (by decide +kernel)
  have hlinear : ∀ rule ∈ chain.theory.rules, rule.transformation.Linear := by decide
  have hchain : Succeeds (recursive chain.theory p 3) := exists_ok_of_success (by decide +kernel)
  obtain ⟨hdeeper, -⟩ := recursive_deepens developed (both (both p q) r) 2 7
  obtain ⟨hlonger, -⟩ := recursive_deepens chain.theory p 3 9
  exact ⟨⟨hnested, hdeeper (by omega) hnested (.inr (.inl (le_refl 2)))⟩, hlinear, hchain,
    hlonger (by omega) hchain (.inr (.inr hlinear))⟩

open Propositional in
/-- A success can be lost.  With three levels the atom `p` is derived by way of `s`, and what that
leaves behind gives the atom `q`.  With four levels it is derived by way of `r`, and `q` is not
found. -/
theorem recursive_lost :
    Succeeds (recursive detour.theory (both p q) 3) ∧
      Fails (recursive detour.theory (both p q) 4) :=
  ⟨exists_ok_of_success (by decide +kernel), exists_ok_of_success (by decide +kernel)⟩

end Search

end Deduction
