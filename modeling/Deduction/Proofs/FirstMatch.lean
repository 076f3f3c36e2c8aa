import Deduction.Proofs.Assignments
import Deduction.Proofs.Propositional
import Deduction.Proofs.SearchInversion

/-!
# What a single level looks at

A search on a single level tries *candidates*.  A candidate is a rule whose conclusion matches the
target, with a position in the list of valid statements for each variable that the match leaves
free; the positions are different, though the statements may be equal.  It works if the premises
that it needs are valid and the rule leads from them to the target.

Candidates are ordered by their rules, and those of one rule lexicographically by their positions.
`Search.search_firstMatch` says that a search which fails has no candidate that works, and that a
search which succeeds appends the theorem of the first candidate that works and nothing else.  The
positions that are tried for one rule are the arrangements of all positions, which are complete and
in order; the rules are tried in order.
-/

namespace Deduction

namespace Search

variable {T : Theory} {target : Formula} {rule : InferenceRule} {rules : List InferenceRule}
  {o : Outcome}

/-! ## The candidates of one rule -/

/-- Different positions of valid statements for the variables that matching the conclusion of the
rule with the target leaves free. -/
structure Completion (T : Theory) (target : Formula) (rule : InferenceRule) where
  bindings : Map
  matched : rule.transformation.matchConclusion target = .ok (some bindings)
  positions : List (Fin T.validStatements.length)
  length_eq : positions.length = (rule.transformation.freeVariables bindings).length
  nodup : positions.Nodup

namespace Completion

/-- The bindings together with those of the free variables. -/
def complete (c : Completion T target rule) : Map :=
  bindAll (rule.transformation.freeVariables c.bindings) (c.positions.map T.validStatements.get)
    c.bindings

def premises (c : Completion T target rule) : Sequence :=
  rule.transformation.necessaryPremises c.complete

/-- The premises are valid and the rule leads from them to the target. -/
structure Works (c : Completion T target rule) : Prop where
  valid : ∀ p ∈ c.premises.elements, T.IsValid p
  concludes : rule.transformation.apply c.premises.elements = .ok target

def derived (c : Completion T target rule) (h : c.Works) : Theorem :=
  ⟨target, ⟨rule, c.premises⟩, h.concludes⟩

/-- The bindings are those of the one match, so the positions make the difference. -/
theorem eq_of_positions_eq {c d : Completion T target rule} (h : c.positions = d.positions) :
    c = d := by
  have hbindings : c.bindings = d.bindings := by
    have hmatched := c.matched.symm.trans d.matched
    simpa using hmatched
  cases c
  cases d
  simp_all

/-- What the search has from the candidate. -/
def outcome (c : Completion T target rule) : Except Error (Option Outcome) :=
  (tryCandidate (settled T) target rule c.complete).result

theorem mem_arrangements (c : Completion T target rule) :
    c.positions ∈ arrangements (rule.transformation.freeVariables c.bindings).length
      (List.finRange T.validStatements.length) :=
  (Deduction.mem_arrangements (List.nodup_finRange _)).mpr
    ⟨c.length_eq, c.nodup, fun i _ => List.mem_finRange i⟩

theorem not_works {c : Completion T target rule} (h : c.outcome = .ok none) : ¬ c.Works := by
  rintro ⟨hvalid, hconcludes⟩
  obtain ⟨⟨⟩, -, h⟩ := Run.bind_eq_ok.mp h
  obtain ⟨conclusion, hconclusion, h⟩ := Run.bind_eq_ok.mp h
  obtain rfl : target = conclusion := Except.ok.inj (hconcludes.symm.trans hconclusion)
  obtain ⟨settled?, hsettled, h⟩ := Run.bind_eq_ok.mp (by simpa using h)
  have hT : (settled T c.premises.elements).result = .ok (some T) :=
    settled_eq_some.mpr ⟨rfl, hvalid⟩
  obtain rfl : some T = settled? := Except.ok.inj (hT.symm.trans hsettled)
  obtain ⟨⟨T', t⟩, -, h⟩ := Run.bind_eq_ok.mp h
  simp at h

theorem outcome_eq_some {c : Completion T target rule} (h : c.outcome = .ok (some o)) :
    ∃ hworks : c.Works,
      o.theory.derivations = appendNew T.derivations [.proved (c.derived hworks)] ∧
        o = .found o.theory (.proved (c.derived hworks)) := by
  obtain ⟨W, t, ⟨hsettled, hstatement, hderivations, hfound⟩, hinference⟩ :=
    tryCandidate_eq_some h
  rw [hinference] at hsettled
  obtain ⟨rfl, hvalid⟩ := settled_eq_some.mp hsettled
  have hconcludes : rule.transformation.apply c.premises.elements = .ok target := by
    have hderives := t.derives
    rw [hinference, hstatement] at hderives
    exact hderives
  have hworks : c.Works := ⟨hvalid, hconcludes⟩
  obtain rfl : t = c.derived hworks := by
    have ht := Theorem.ofInference_eq_ok.mpr ⟨hstatement, hinference⟩
    have hderived : Theorem.ofInference target ⟨rule, c.premises⟩ = .ok (c.derived hworks) :=
      Theorem.ofInference_eq_ok.mpr ⟨rfl, rfl⟩
    exact Except.ok.inj (ht.symm.trans hderived)
  exact ⟨hworks, hderivations, hfound⟩

end Completion

/-- Trying the rule is trying the arrangements of all positions. -/
theorem applyRule_eq_firstSome {settle : List Formula → Run (Option Theory)} {bindings : Map}
    (hmatched : rule.transformation.matchConclusion target = .ok (some bindings)) :
    (applyRule settle T target rule).result =
      (Run.firstSome (fun positions => tryCandidate settle target rule
          (bindAll (rule.transformation.freeVariables bindings)
            (positions.map T.validStatements.get) bindings))
        (arrangements (rule.transformation.freeVariables bindings).length
          (List.finRange T.validStatements.length))).result := by
  rw [← Run.firstSome_map, ← assignments_eq_map_finRange, ← firstAssignment_eq_firstSome]
  unfold applyRule
  rw [hmatched]
  rfl

theorem applyRule_settled_eq_none (h : (applyRule (settled T) T target rule).result = .ok none)
    (c : Completion T target rule) : c.outcome = .ok none := by
  rw [applyRule_eq_firstSome c.matched, Run.firstSome_eq_none] at h
  exact h c.positions c.mem_arrangements

/-- Unless it stops because the target cannot be matched, trying the rule stops with the first
candidate that stops it. -/
theorem applyRule_settled_stops {stop : Except Error (Option Outcome)} (hstop : stop ≠ .ok none)
    (hmatches : ∀ e, stop = .error e → ∃ b?, rule.transformation.matchConclusion target = .ok b?)
    (h : (applyRule (settled T) T target rule).result = stop) :
    ∃ c : Completion T target rule, c.outcome = stop ∧
      ∀ d : Completion T target rule,
        d = c ∨ c.positions < d.positions ∨ d.outcome = .ok none := by
  cases hmatched : rule.transformation.matchConclusion target with
  | error e =>
    rw [applyRule, hmatched] at h
    obtain ⟨b?, hb?⟩ := hmatches _ h.symm
    simp [hmatched] at hb?
  | ok bindings? =>
    cases bindings? with
    | none =>
      rw [applyRule, hmatched] at h
      exact absurd h.symm hstop
    | some bindings =>
      rw [applyRule_eq_firstSome hmatched] at h
      obtain ⟨positions, hmem, hfound, hleast⟩ := Run.firstSome_least
        (arrangements_sorted _ (List.pairwise_lt_finRange _)) hstop h
      obtain ⟨hlength, hnodup, -⟩ := (mem_arrangements (List.nodup_finRange _)).mp hmem
      refine ⟨⟨bindings, hmatched, positions, hlength, hnodup⟩, hfound, fun d => ?_⟩
      have hbindings : d.bindings = bindings := by simpa [hmatched] using d.matched.symm
      have hd := d.mem_arrangements
      rw [hbindings] at hd
      rcases hleast d.positions hd with heq | hlt | hnone
      · exact .inl (Completion.eq_of_positions_eq heq)
      · exact .inr (.inl hlt)
      · rw [← hbindings] at hnone
        exact .inr (.inr hnone)

/-! ## All candidates -/

/-- A completion for one of the rules, which is given by its position. -/
structure Candidate (T : Theory) (target : Formula) (rules : List InferenceRule) where
  index : Fin rules.length
  completion : Completion T target (rules.get index)

namespace Candidate

def Works (c : Candidate T target rules) : Prop := c.completion.Works

def derived (c : Candidate T target rules) (h : c.Works) : Theorem := c.completion.derived h

def outcome (c : Candidate T target rules) : Except Error (Option Outcome) := c.completion.outcome

/-- Candidates are ordered by their rules and then lexicographically by their positions. -/
def Before (c d : Candidate T target rules) : Prop :=
  c.index < d.index ∨ c.index = d.index ∧ c.completion.positions < d.completion.positions

end Candidate

/-- A search among the candidates of the rules either finds that none works, or appends the theorem
of the first that does. -/
inductive FirstMatch (T : Theory) (target : Formula) (rules : List InferenceRule) :
    Outcome → Prop where
  | absent (h : ∀ c : Candidate T target rules, ¬ c.Works) :
      FirstMatch T target rules (.failure T)
  | first (c : Candidate T target rules) (h : c.Works)
      (hfirst : ∀ d : Candidate T target rules, d.Works → d = c ∨ c.Before d) {T' : Theory}
      (hT' : T.FollowedBy [c.derived h] T') :
      FirstMatch T target rules (.found T' (.proved (c.derived h)))

theorem firstSome_applyRule_eq_none
    (h : (Run.firstSome (applyRule (settled T) T target) rules).result = .ok none)
    (c : Candidate T target rules) : c.outcome = .ok none :=
  applyRule_settled_eq_none (Run.firstSome_eq_none.mp h _ (List.get_mem _ _)) c.completion

/-- Unless it stops because the target cannot be matched, trying the rules stops with the first
candidate that stops it. -/
theorem firstSome_applyRule_stops {stop : Except Error (Option Outcome)} (hstop : stop ≠ .ok none)
    (hmatches : ∀ e, stop = .error e →
      ∀ rule ∈ rules, ∃ b?, rule.transformation.matchConclusion target = .ok b?)
    (h : (Run.firstSome (applyRule (settled T) T target) rules).result = stop) :
    ∃ c : Candidate T target rules, c.outcome = stop ∧
      ∀ d : Candidate T target rules, d = c ∨ c.Before d ∨ d.outcome = .ok none := by
  rw [← List.map_get_finRange rules, Run.firstSome_map] at h
  obtain ⟨i, -, hi, hleast⟩ := Run.firstSome_least (List.pairwise_lt_finRange _) hstop h
  obtain ⟨c, hc, hfirst⟩ := applyRule_settled_stops hstop
    (fun e he => hmatches e he _ (List.get_mem _ _)) hi
  refine ⟨⟨i, c⟩, hc, fun ⟨j, d⟩ => ?_⟩
  rcases hleast j (List.mem_finRange j) with rfl | hlt | hnone
  · rcases hfirst d with rfl | hlater | hnone
    · exact .inl rfl
    · exact .inr (.inl (.inr ⟨rfl, hlater⟩))
    · exact .inr (.inr hnone)
  · exact .inr (.inl (.inl hlt))
  · exact .inr (.inr (applyRule_settled_eq_none hnone d))

/-- A search that tries the rules, and fails if they lead to nothing, is by first match. -/
theorem firstMatch_of_firstSome (hnew : ¬ T.IsValid target)
    (h : (Run.firstSome (applyRule (settled T) T target) rules).result.map
      (·.getD (.failure T)) = .ok o) : FirstMatch T target rules o := by
  cases hresult : (Run.firstSome (applyRule (settled T) T target) rules).result with
  | error e =>
    rw [hresult] at h
    cases h
  | ok o? =>
    rw [hresult] at h
    obtain rfl : o?.getD (.failure T) = o := Except.ok.inj h
    cases o? with
    | none => exact .absent fun c => Completion.not_works (firstSome_applyRule_eq_none hresult c)
    | some o =>
      obtain ⟨c, hc, hfirst⟩ := firstSome_applyRule_stops (by simp) (by simp) hresult
      obtain ⟨hworks, hderivations, ho⟩ := Completion.outcome_eq_some hc
      have hfollowed := Theory.followedBy_of_appendNew hnew hderivations
      rw [Option.getD_some, ho]
      refine .first c hworks (fun d hd => ?_) hfollowed
      rcases hfirst d with heq | hlater | hnone
      · exact .inl heq
      · exact .inr hlater
      · exact absurd hd (Completion.not_works hnone)

/-! ## Searches -/

theorem result_lookUp_orElse {next : Run Outcome} (hnew : ¬ T.IsValid target) :
    ((lookUp T target).orElse next).result = next.result := by
  rw [lookUp, Theory.justification?_eq_none.mpr hnew]
  rfl

/-- A search that makes one attempt ends with what it finds, or fails. -/
theorem result_attempt {attempt : Run (Option Outcome)} {next : Run Outcome}
    (hnext : next.result = .ok (.failure T)) :
    (attempt.orElse next).result = attempt.result.map (·.getD (.failure T)) := by
  rw [Run.orElse, Run.result_bind]
  cases attempt.result with
  | error e => rfl
  | ok o? =>
    cases o? with
    | some o => rfl
    | none => exact hnext

/-- A search on a single level for a statement that is not valid fails only if no candidate works,
and otherwise appends the theorem of the first candidate that works.  The search with one rule does
so for the candidates of that rule. -/
theorem search_firstMatch {T : Theory} {target : Formula} (hnew : ¬ T.IsValid target) :
    (∀ o, (singleLevel T target).result = .ok o → FirstMatch T target T.rules o) ∧
      ∀ rule ∈ T.rules, ∀ o, (withRule T target rule).result = .ok o →
        FirstMatch T target [rule] o := by
  constructor
  · intro o h
    have hresult : (singleLevel T target).result =
        (applyRules (settled T) T target).result.map (·.getD (.failure T)) :=
      (result_lookUp_orElse hnew).trans (result_attempt rfl)
    exact firstMatch_of_firstSome hnew (hresult.symm.trans h)
  · intro rule hrule o h
    have hresult : (withRule T target rule).result =
        (applyRule (settled T) T target rule).result.map (·.getD (.failure T)) := by
      rw [withRule, Run.result_within, if_pos (Theory.mem_rules.mp hrule)]
      exact (result_lookUp_orElse hnew).trans (result_attempt rfl)
    rw [← Run.result_firstSome_singleton] at hresult
    exact firstMatch_of_firstSome hnew (hresult.symm.trans h)

open Propositional in
/-- The rule of detachment leaves one variable free, and the statement to give it is the second. -/
theorem search_firstMatch_detached :
    ¬ axiomatization.theory.IsValid r ∧ detachment ∈ axiomatization.theory.rules ∧
      (∃ o, (singleLevel axiomatization.theory r).result = .ok o ∧ o.success = true ∧
        FirstMatch axiomatization.theory r axiomatization.theory.rules o) ∧
      ∃ o, (withRule axiomatization.theory r detachment).result = .ok o ∧ o.success = true ∧
        FirstMatch axiomatization.theory r [detachment] o := by
  have hnew : ¬ axiomatization.theory.IsValid r := by decide
  have hrule : detachment ∈ axiomatization.theory.rules := by decide
  obtain ⟨hsingle, hwith⟩ := search_firstMatch hnew
  obtain ⟨o, ho, hsuccess⟩ : ∃ o, (singleLevel axiomatization.theory r).result = .ok o ∧
      o.success = true := exists_ok_of_success (by decide)
  obtain ⟨o', ho', hsuccess'⟩ : ∃ o, (withRule axiomatization.theory r detachment).result = .ok o ∧
      o.success = true := exists_ok_of_success (by decide)
  exact ⟨hnew, hrule, ⟨o, ho, hsuccess, hsingle o ho⟩,
    o', ho', hsuccess', hwith detachment hrule o' ho'⟩

end Search

end Deduction
