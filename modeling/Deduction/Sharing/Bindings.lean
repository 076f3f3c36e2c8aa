import Deduction.Sharing.Kept
import Deduction.Transformation

/-!
# Which nodes matching and substitution keep

A match binds the variable's node that it meets first in the pattern to the node of the target
there.  Substitution puts the node of the image in place of a formula that has one, keeps an atomic
formula that has none, and makes every other node anew, whether a term of it changes or not.

The functions here follow the nodes through operations that are known to succeed.
-/

namespace Deduction

namespace Node

/-- The image of a formula in a list of pairs of nodes. -/
def image? (pairs : List (Node × Node)) (φ : Formula) : Option Node :=
  (pairs.find? (·.1.formula = φ)).map Prod.snd

mutual

/-- The pairs with those that matching the target against the pattern adds. -/
def bind (vars : List Formula) : (pattern target : Node) → List (Node × Node) →
    List (Node × Node)
  | .mk a c ps, target, pairs =>
    let φ := (Node.mk a c ps).formula
    if φ ∈ vars then
      match image? pairs φ with
      | some _ => pairs
      | none => pairs ++ [(.mk a c ps, target)]
    else bindList vars ps target.terms pairs

/-- The pairs with those that matching the targets against the patterns adds. -/
def bindList (vars : List Formula) : (patterns targets : List Node) → List (Node × Node) →
    List (Node × Node)
  | p :: ps, t :: ts, pairs => bindList vars ps ts (bind vars p t pairs)
  | _, _, pairs => pairs

end

mutual

/-- The node of the formula with images in place of subformulas. -/
def substitute (image : Formula → Option Node) : Node → Supply Node
  | .mk a c ts =>
    match image (Node.mk a c ts).formula with
    | some n => return n
    | none =>
      if ts.isEmpty then return .mk a c ts
      else do make c (← substituteList image ts)

/-- The nodes of formulas with images in place of subformulas. -/
def substituteList (image : Formula → Option Node) : List Node → Supply (List Node)
  | [] => return []
  | t :: ts => do
    let t' ← t.substitute image
    let ts' ← substituteList image ts
    return t' :: ts'

end

end Node

namespace Kept

/-! ## Maps -/

/-- The pairs of a map, by the terms of its domain and its codomain. -/
def pairs (m : Kept Node) : List (Node × Node) := (m.part 0).root.terms.zip (m.part 1).root.terms

/-- A new map of the pairs. -/
def ofPairs (pairs : List (Node × Node)) : Supply (Kept Node) := do
  let domain ← Node.structural .enumeration (pairs.map Prod.fst)
  let codomain ← Node.structural .sequence (pairs.map Prod.snd)
  structural .map [bare domain, bare codomain]

/-! ## Transformations -/

/-- The conclusion of a transformation. -/
def conclusion (t : Kept Node) : Node := (t.part 0).root

/-- The variables of a transformation, as formulas. -/
def vars (t : Kept Node) : List Formula := (t.part 1).root.terms.map Node.formula

/-- The premises of a transformation. -/
def premises (t : Kept Node) : List Node := (t.part 2).root.terms

/-- The node that a transformation concludes from arguments. -/
def apply (t : Kept Node) (arguments : List Node) : Supply Node :=
  t.conclusion.substitute (Node.image? (Node.bindList t.vars t.premises arguments []))

end Kept

end Deduction
