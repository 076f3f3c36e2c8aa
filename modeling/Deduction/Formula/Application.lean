import Deduction.Formula.Error

/-!
# Applying connectives

`Connective.apply` makes a formula of a connective and its terms and is the only way to make one
that checks the number of terms.  A `Template` is a formula still to be made: connectives applied
to templates, with finished formulas at some of its leaves.
-/

namespace Deduction

/-- The formula of connective `c` on `terms`, if `c` takes that many. -/
def Connective.apply (c : Connective) (terms : List Formula) : Except SyntaxError Formula :=
  if c.arity.Admits terms.length then .ok (.node c terms)
  else .error (.arityMismatch c terms.length)

theorem Connective.apply_eq_ok {c : Connective} {ts : List Formula} {φ : Formula} :
    c.apply ts = .ok φ ↔ c.arity.Admits ts.length ∧ .node c ts = φ := by
  simp only [Connective.apply]
  split <;> simp [*]

theorem Connective.apply_eq_error {c : Connective} {ts : List Formula} {e : SyntaxError} :
    c.apply ts = .error e ↔ ¬ c.arity.Admits ts.length ∧ e = .arityMismatch c ts.length := by
  simp only [Connective.apply]
  split <;> simp [*, eq_comm]

/-- The formula of connective `c` on the one term `φ`, `n` times over. -/
def Connective.nest (c : Connective) : Nat → Formula → Except SyntaxError Formula
  | 0, φ => .ok φ
  | n + 1, φ => do c.nest n (← c.apply [φ])

/-- A formula to be made from connectives and from formulas at hand, which `α` stands for. -/
inductive Template (α : Type) where
  /-- A formula at hand. -/
  | formula (a : α)
  /-- A connective applied to templates. -/
  | apply (c : Connective) (terms : List (Template α))

namespace Template

variable {α β : Type}

mutual

/-- The template with other formulas at hand. -/
def map (f : α → β) : Template α → Template β
  | .formula a => .formula (f a)
  | .apply c ts => .apply c (mapList f ts)

/-- Templates with other formulas at hand. -/
def mapList (f : α → β) : List (Template α) → List (Template β)
  | [] => []
  | t :: ts => t.map f :: mapList f ts

end

mutual

/-- Makes the terms from left to right, then applies the connective. -/
def build : Template Formula → Except SyntaxError Formula
  | .formula φ => .ok φ
  | .apply c ts => do c.apply (← buildList ts)

/-- Makes the formulas of a list from left to right and stops at the first error. -/
def buildList : List (Template Formula) → Except SyntaxError (List Formula)
  | [] => .ok []
  | t :: ts => do
    let φ ← t.build
    let rest ← buildList ts
    return φ :: rest

end

end Template

end Deduction
