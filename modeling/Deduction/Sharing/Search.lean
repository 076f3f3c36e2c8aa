import Deduction.Search.Outcome
import Deduction.Sharing.Bindings
import Deduction.Sharing.Reading

/-!
# Which nodes a search keeps

A search that appends theorems makes their nodes from the nodes at hand.  The theorem of a target
has the target's node for its statement and the rule in its inference.  Its premises are the
premises of the rule, with the bindings substituted: those that matching the target gave, and, for
the variables left free, the statements that were tried, of which the first free position counts.
A premise that had to be searched for is then the target of a theorem before it.

`Kept.ofSearch` follows the nodes through the theorems that a search has appended.
-/

namespace Deduction

namespace Node

/-- The statement of a derivation's node, if it makes one. -/
def statement? (d : Node) : Option Node :=
  match d.connective, d.terms with
  | .structural .statedAxiom, [statement] => some statement
  | .structural .provedTheorem, [statement, _] => some statement
  | _, _ => none

/-- The bindings with a statement for each variable: the first in the pool that looks like its
value, which is then taken out. -/
def assign (values : List (Node × Node)) :
    (vars : List Formula) → (pool : List Node) → (bindings : List (Node × Node)) →
      List (Node × Node)
  | [], _, bindings => bindings
  | v :: vs, pool, bindings =>
    match values.find? (·.1.formula = v) with
    | none => assign values vs pool bindings
    | some (key, value) =>
      let looksAlike (n : Node) : Bool := n.formula = value.formula
      match pool.find? looksAlike with
      | none => assign values vs pool bindings
      | some n => assign values vs (pool.eraseP looksAlike) (bindings ++ [(key, n)])

end Node

namespace Kept

/-- The premises of a theorem that a search has found for the target, by the rule in a theory whose
derivations have the given nodes. -/
def foundPremises (derivations : List Node) (target : Node) (rule : Kept Node) (t : Theorem) :
    Supply (List Node) := do
  let transformation := rule.part 0
  let bound := Node.bind transformation.vars transformation.conclusion target []
  let arguments ← Node.ofFormulaList t.inference.premises.elements
  let values := Node.bindList transformation.vars transformation.premises arguments []
  let free := transformation.vars.filter fun v => (Node.image? bound v).isNone
  let bindings := Node.assign values free (derivations.filterMap Node.statement?) bound
  Node.substituteList (Node.image? bindings) transformation.premises

/-- The rule of formula `φ`: a given one, or else the one among the derivations. -/
def ofRule (given? : Option (Kept Node)) (derivations : List (Kept Node)) (φ : Formula) :
    Supply (Kept Node) :=
  match given? <|> derivations.find? (·.root.formula = φ) with
  | some rule => return rule
  | none => do (← Node.ofFormula φ).toRule

/-- A new theorem that states the target by the rule from the premises. -/
def ofTheorem (target : Node) (rule : Kept Node) (premises : List Node) : Supply (Kept Node) := do
  let inference ← structural .inference [rule, bare (← Node.structural .sequence premises)]
  provedTheorem target inference

/-- An element splits a list into two shorter ones. -/
theorem lengths_of_drop_eq_cons {α : Type} {xs later : List α} {n : Nat} {x : α}
    (h : xs.drop n = x :: later) :
    (xs.take n).length < xs.length ∧ later.length < xs.length := by
  have hlength : xs.length - n = later.length + 1 := by
    rw [← List.length_drop, h, List.length_cons]
  rw [List.length_take]
  omega

/-- The theorems that searches for the targets have appended to the derivations, one target after
the other.  A target that is stated already adds none.  For any other, the theorem that states it
comes after those that the search for its premises has appended; if there are none of these, its
rule may be one that `rule?` gives. -/
def ofTargets (rule? : Formula → Option (Kept Node)) (derivations : List (Kept Node))
    (targets : List Node) (theorems : List Theorem) : Supply (List (Kept Node)) :=
  match targets with
  | [] => return []
  | target :: targets =>
    if derivations.any fun d => (d.root.statement?.map Node.formula) = some target.formula then
      ofTargets rule? derivations targets theorems
    else
      let count := theorems.findIdx (·.statement = target.formula)
      match _ : theorems.drop count with
      | [] => return []
      | t :: later => do
        let φ := t.inference.rule.formula
        let rule ← ofRule (if count = 0 then rule? φ else none) derivations φ
        let premises ← foundPremises (derivations.map root) target rule t
        let earlier ← ofTargets (fun _ => none) derivations premises (theorems.take count)
        let found := earlier ++ [← ofTheorem target rule premises]
        return found ++ (← ofTargets rule? (derivations ++ found) targets later)
termination_by (theorems.length, targets.length)
decreasing_by
  · exact .right _ (Nat.lt_succ_self _)
  · exact .left _ _ (lengths_of_drop_eq_cons ‹_›).1
  · exact .left _ _ (lengths_of_drop_eq_cons ‹_›).2

/-- The theory `T`, which searches for the targets led to from the theory that keeps `k`.  Without
new theorems it is that one. -/
def ofSearch (k : Kept Node) (rule? : Formula → Option (Kept Node)) (targets : List Node)
    (T : Theory) : Supply (Kept Node) := do
  let theorems := (T.derivations.drop k.parts.length).filterMap fun
    | .proved t => some t
    | _ => none
  if theorems.isEmpty then return k
  let found ← ofTargets rule? k.parts targets theorems
  structural .theory (k.parts ++ found)

end Kept

end Deduction
