import Deduction.Search.Levels
import Deduction.Search.Options

/-!
# Strategies

A strategy is a way to search for one target.  An escalating strategy tries others in order and
stays with the first that succeeds.  `Search.sequence` searches for several targets, each in the
theory that the one before it led to, and finds all of them or none.
-/

namespace Deduction

/-- A way to search for a target. -/
inductive Strategy where
  /-- Look among the valid statements. -/
  | exactMatch
  /-- Use one rule. -/
  | singleLevel
  /-- Use rules on several levels. -/
  | recursive (options : Options)
  /-- Use the given rule once. -/
  | withRule (rule : InferenceRule)
  /-- Try strategies in order. -/
  | escalating (strategies : List Strategy)

namespace Strategy

/-- From the exact to the single-level to the recursive search. -/
def standard : Strategy := .escalating [.exactMatch, .singleLevel, .recursive {}]

mutual

/-- Searches for a target. -/
def search : Strategy → Theory → Formula → Run Outcome
  | .exactMatch, T, target => Search.exact T target
  | .singleLevel, T, target => Search.singleLevel T target
  | .recursive options, T, target => Search.recursive T target options.maxDepth
  | .withRule rule, T, target => Search.withRule T target rule
  | .escalating strategies, T, target => searchFirst strategies T target

/-- The first success of the strategies in order. -/
def searchFirst : List Strategy → Theory → Formula → Run Outcome
  | [], T, _ => return .failure T
  | s :: rest, T, target => do
    let outcome ← s.search T target
    if outcome.success then return outcome
    else searchFirst rest T target

end

end Strategy

namespace Search

/-- Searches for the targets in order and collects their derivations. -/
def collect (search : Theory → Formula → Run Outcome) :
    Theory → (targets : List Formula) → Run (Option (Theory × List Derivation))
  | T, [] => return some (T, [])
  | T, target :: targets => do
    let outcome ← search T target
    if outcome.success then
      match ← collect search outcome.theory targets with
      | some (T', ds) => return some (T', outcome.derivations ++ ds)
      | none => return none
    else return none

/-- Searches for the targets in order.  Unless all are found the theory stays as it was. -/
def sequence (search : Theory → Formula → Run Outcome) (T : Theory) (targets : List Formula) :
    Run Outcome := do
  match ← collect search T targets with
  | some (T', ds) => return ⟨T', ds, true⟩
  | none => return .failure T

end Search

end Deduction
