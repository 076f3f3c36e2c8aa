import Deduction.Formula.Application

/-!
# Shared nodes

Formulas are values, and two occurrences of a formula can be one and the same node or two nodes
that look alike.  A `Node` is a formula whose nodes have addresses: `Node.formula` forgets them, and
`Node.same` compares nothing else.  New nodes take their addresses from a `Supply`, so no address
is given twice, and a node that is used again keeps its address.

`Node.equivalent` compares formulas and stops early where both sides are one node.
-/

namespace Deduction

/-- A formula whose nodes have addresses. -/
inductive Node where
  | mk (address : Nat) (connective : Connective) (terms : List Node)

/-- A computation that takes addresses for new nodes.  The state is the next free address. -/
abbrev Supply := StateM Nat

namespace Node

/-- The address of the root. -/
def address : Node → Nat
  | .mk a _ _ => a

/-- The connective of the root. -/
def connective : Node → Connective
  | .mk _ c _ => c

/-- The terms of the root. -/
def terms : Node → List Node
  | .mk _ _ ts => ts

/-- The term at an index, or the node itself if there is none. -/
def term (n : Node) (index : Nat) : Node := n.terms.getD index n

mutual

/-- The formula without the addresses. -/
def formula : Node → Formula
  | .mk _ c ts => .node c (formulaList ts)

/-- The formulas without the addresses. -/
def formulaList : List Node → List Formula
  | [] => []
  | t :: ts => t.formula :: formulaList ts

end

theorem formulaList_eq_map (ts : List Node) : formulaList ts = ts.map formula := by
  induction ts with
  | nil => rfl
  | cons t ts ih => simp [formulaList, ih]

mutual

/-- The node, then the nodes below its terms from left to right. -/
def preorder : Node → List Node
  | .mk a c ts => .mk a c ts :: preorderList ts

/-- The nodes below the nodes of a list, in the order of the list. -/
def preorderList : List Node → List Node
  | [] => []
  | t :: ts => t.preorder ++ preorderList ts

end

/-- Both are one node. -/
def same (m n : Node) : Bool := m.address = n.address

mutual

/-- Both are one node, or they agree in the connective and in their terms. -/
def equivalent : Node → Node → Bool
  | .mk a c ts, .mk b d us => a = b || (c = d && equivalentList ts us)

/-- The lists have the same length and agree at each index. -/
def equivalentList : List Node → List Node → Bool
  | [], [] => true
  | t :: ts, u :: us => t.equivalent u && equivalentList ts us
  | _, _ => false

end

/-! ## New nodes -/

/-- A new node on terms that stay as they are. -/
def make (c : Connective) (ts : List Node) : Supply Node := do
  let a ← get
  set (a + 1)
  return .mk a c ts

/-- A new node of a structural kind. -/
def structural (kind : Structure) (ts : List Node) : Supply Node := make (.structural kind) ts

mutual

/-- A formula of new nodes only. -/
def ofFormula : Formula → Supply Node
  | .node c ts => do make c (← ofFormulaList ts)

/-- Formulas of new nodes only. -/
def ofFormulaList : List Formula → Supply (List Node)
  | [] => return []
  | φ :: φs => do
    let t ← ofFormula φ
    let ts ← ofFormulaList φs
    return t :: ts

end

mutual

/-- New nodes for the connectives of a template. -/
def ofTemplate : Template Node → Supply Node
  | .formula n => return n
  | .apply c ts => do make c (← ofTemplateList ts)

/-- New nodes for the connectives of templates. -/
def ofTemplateList : List (Template Node) → Supply (List Node)
  | [] => return []
  | t :: ts => do
    let n ← ofTemplate t
    let ns ← ofTemplateList ts
    return n :: ns

end

/-- New nodes of connective `c` on one term, `n` times over. -/
def nest (c : Connective) : Nat → Node → Supply Node
  | 0, t => return t
  | n + 1, t => do nest c n (← make c [t])

end Node

end Deduction
