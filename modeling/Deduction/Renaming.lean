import Deduction.Formula.Application

/-!
# Renaming connectives

Renaming keeps the shape of a formula and changes the connective of each node.  The terms are
renamed from left to right before their node, and a node is refused when its new connective does
not take its number of terms.
-/

namespace Deduction

/-- The connective that takes the place of a connective. -/
abbrev Renaming := Connective → Connective

namespace Renaming

/-- The renaming by the first pair for a connective, which keeps the others. -/
def firstOf (pairs : List (Connective × Connective)) : Renaming := fun c =>
  ((pairs.find? (·.1 = c)).map Prod.snd).getD c

/-- The renaming by the last pair for a connective, which keeps the others. -/
def lastOf (pairs : List (Connective × Connective)) : Renaming := firstOf pairs.reverse

end Renaming

namespace Formula

mutual

/-- The formula with every connective renamed. -/
def rename (ρ : Renaming) : Formula → Except SyntaxError Formula
  | .node c ts => do (ρ c).apply (← renameList ρ ts)

/-- Renames the connectives of a list of formulas and stops at the first error. -/
def renameList (ρ : Renaming) : List Formula → Except SyntaxError (List Formula)
  | [] => .ok []
  | t :: ts => do
    let t' ← t.rename ρ
    let ts' ← renameList ρ ts
    return t' :: ts'

end

end Formula

end Deduction
