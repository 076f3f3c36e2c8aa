import Deduction.Search.Assignment
import Deduction.Search.Derive
import Deduction.Search.Outcome

/-!
# Searches by level

The exact search looks the target up among the valid statements.  The single-level search also
tries to derive it by one rule from statements that are valid: it matches the target against the
conclusion of each rule in turn, and tries the valid statements for the variables that the match
leaves free.  The recursive search goes on to search for premises that are not valid yet, with one
level less for each, and does not search again for what an enclosing search is after.  A theory is
extended only when all premises of a candidate are there.
-/

namespace Deduction

namespace Search

/-- Tries to derive the target by the rule under complete bindings.  `settle` turns the premises
into a theory in which they are valid.  Bindings of variables that no premise has are lost when the
rule is applied, so what it concludes is compared with the target. -/
def tryCandidate (settle : List Formula → Run (Option Theory)) (target : Formula)
    (rule : InferenceRule) (bindings : Map) : Run (Option Outcome) := do
  let premises := rule.transformation.necessaryPremises bindings
  Run.note (.candidate rule premises)
  let conclusion ← rule.transformation.apply premises.elements
  if conclusion ≠ target then
    return none
  match ← settle premises.elements with
  | none => return none
  | some T =>
    let (extended, t) ← T.derive target premises rule
    return some (.found extended (.proved t))

/-- Tries to derive the target by the rule, with valid statements of the theory for the variables
that matching its conclusion leaves free. -/
def applyRule (settle : List Formula → Run (Option Theory)) (T : Theory) (target : Formula)
    (rule : InferenceRule) : Run (Option Outcome) := do
  match ← (rule.transformation.matchConclusion target : Except Error (Option Map)) with
  | none => return none
  | some bindings =>
    firstAssignment (tryCandidate settle target rule)
      (rule.transformation.freeVariables bindings) T.validStatements bindings

/-- Tries the rules of the theory in order. -/
def applyRules (settle : List Formula → Run (Option Theory)) (T : Theory) (target : Formula) :
    Run (Option Outcome) :=
  Run.firstSome (applyRule settle T target) T.rules

/-- The theory itself, if the premises are valid in it. -/
def settled (T : Theory) (premises : List Formula) : Run (Option Theory) :=
  return if premises.all (T.IsValid ·) then some T else none

/-- Looks the target up among the valid statements. -/
def lookUp (T : Theory) (target : Formula) : Run (Option Outcome) :=
  match T.justification? target with
  | some d => do
    Run.note (.exact d)
    return some (.found T d)
  | none => return none

/-- The failure of a search, perhaps with one rule only. -/
def fail (T : Theory) (rule? : Option InferenceRule) : Run Outcome := do
  Run.note (.failed rule?)
  return .failure T

/-- Succeeds if the target is valid already. -/
def exact (T : Theory) (target : Formula) : Run Outcome :=
  Run.within ⟨T, target, 0⟩ ((lookUp T target).orElse (fail T none))

/-- Searches for a derivation of the target by one rule from valid statements. -/
def singleLevel (T : Theory) (target : Formula) : Run Outcome :=
  Run.within ⟨T, target, 1⟩ <|
    (lookUp T target).orElse ((applyRules (settled T) T target).orElse (fail T none))

/-- Searches for a derivation of the target by the given rule from valid statements.  Without the
rule in the theory nothing is found. -/
def withRule (T : Theory) (target : Formula) (rule : InferenceRule) : Run Outcome :=
  Run.within ⟨T, target, 1⟩ <|
    if .rule rule ∈ T.derivations then
      (lookUp T target).orElse ((applyRule (settled T) T target rule).orElse (fail T rule))
    else fail T rule

/-- Makes the premises valid one after the other, by searches each of which starts from the theory
that the one before it led to.  Nothing is found if a premise is excluded or its search fails. -/
def establish (search : Theory → Formula → Run Outcome) (excluded : List Formula) :
    Theory → (premises : List Formula) → Run (Option Theory)
  | T, [] => return some T
  | T, p :: ps =>
    if T.IsValid p then establish search excluded T ps
    else if p ∈ excluded then return none
    else do
      let outcome ← search T p
      if outcome.success then establish search excluded outcome.theory ps
      else return none

/-- One level of the recursive search, with `deeper?` for the levels below it: first from premises
that are valid, then from premises that can be made so. -/
def level (depth : Nat) (deeper? : Option (List Formula → Run (Option Theory))) (T : Theory)
    (target : Formula) : Run Outcome :=
  Run.within ⟨T, target, depth⟩ <| (lookUp T target).orElse <|
    (applyRules (settled T) T target).orElse <|
      match deeper? with
      | none => do
        Run.note .exhausted
        fail T none
      | some settle => (applyRules settle T target).orElse (fail T none)

/-- The recursive search with `remaining` levels inside of searches for the excluded statements.
The last level has no level below it, and neither has the search without levels. -/
def step : (remaining : Nat) → (excluded : List Formula) → Theory → Formula → Run Outcome
  | 0, _, T, target => level 0 none T target
  | 1, _, T, target => level 1 none T target
  | n + 2, excluded, T, target =>
    let excluded := excluded ++ [target]
    level (n + 2) (some (establish (step (n + 1) excluded) excluded T)) T target

/-- Where a recursive search stands. -/
structure State where
  /-- The number of levels left. -/
  remaining : Nat
  /-- The statements that enclosing searches are after. -/
  excluded : List Formula
  /-- The bindings of the candidate at hand. -/
  bindings : Map
deriving DecidableEq

/-- The state in which a search of the given depth starts. -/
def State.start (depth : Nat) : State := ⟨depth, [], .empty⟩

/-- An enclosing search is after `φ`. -/
def State.IsExcluded (s : State) (φ : Formula) : Prop := φ ∈ s.excluded

instance (s : State) (φ : Formula) : Decidable (s.IsExcluded φ) :=
  inferInstanceAs (Decidable (_ ∈ _))

/-- Searches from a state. -/
def State.search (s : State) : Theory → Formula → Run Outcome := step s.remaining s.excluded

/-- Searches for a derivation of the target, `depth` levels deep. -/
def recursive (T : Theory) (target : Formula) (depth : Nat) : Run Outcome :=
  (State.start depth).search T target

end Search

end Deduction
