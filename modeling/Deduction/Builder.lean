import Deduction.Formula.Application

/-!
# Builders

A builder is a formula in the making: a tree in which a node may still lack its connective and may
have any number of terms.  `Builder.freeze` turns it into a formula.
-/

namespace Deduction

/-- A tree of nodes with or without a connective. -/
inductive Builder where
  | node (connective? : Option Connective) (terms : List Builder)

namespace Builder

/-- A builder without connective and terms. -/
def placeholder : Builder := .node none []

/-- A builder of connective `c` without terms. -/
def ofConnective (c : Connective) : Builder := .node (some c) []

mutual

/-- The builder with the tree of a formula. -/
def ofFormula : Formula → Builder
  | .node c ts => .node (some c) (ofFormulaList ts)

/-- The builders with the trees of a list of formulas. -/
def ofFormulaList : List Formula → List Builder
  | [] => []
  | t :: ts => ofFormula t :: ofFormulaList ts

end

/-- The connective at the root, if it has one. -/
def connective? : Builder → Option Connective
  | .node c _ => c

/-- The terms of the root. -/
def terms : Builder → List Builder
  | .node _ ts => ts

/-- The builder with `c` at its root. -/
def withConnective (b : Builder) (c : Connective) : Builder := .node (some c) b.terms

/-- The builder with placeholders after its last term, so that it has a term at `index`. -/
def assureTerm (b : Builder) (index : Nat) : Builder :=
  .node b.connective? (b.terms ++ List.replicate (index + 1 - b.terms.length) placeholder)

/-- The builder with `term` at `index`, and placeholders before it where terms are missing. -/
def withTerm (b : Builder) (index : Nat) (term : Builder) : Builder :=
  .node b.connective? ((b.assureTerm index).terms.set index term)

/-- The builder with `term` after its last term. -/
def appendTerm (b term : Builder) : Builder := .node b.connective? (b.terms ++ [term])

/-- The part of the builder that a path of term indices leads to. -/
def at? : Builder → List Nat → Option Builder
  | b, [] => some b
  | .node _ ts, i :: path =>
    match ts[i]? with
    | some t => t.at? path
    | none => none

/-- The builder with `part` in place of what a path of term indices leads to. -/
def replaceAt : Builder → List Nat → Builder → Builder
  | _, [], part => part
  | .node c ts, i :: path, part =>
    match ts[i]? with
    | some t => .node c (ts.set i (t.replaceAt path part))
    | none => .node c ts

mutual

/-- The formula of a builder that stands at `path`.  A node needs its connective before its terms
are looked at, from left to right, and its connective must take that many. -/
def freezeAt (path : List Nat) : Builder → Except SyntaxError Formula
  | .node none _ => .error (.incomplete path)
  | .node (some c) ts => do c.apply (← freezeList path 0 ts)

/-- The formulas of the terms from `index` on of the builder at `path`. -/
def freezeList (path : List Nat) (index : Nat) : List Builder → Except SyntaxError (List Formula)
  | [] => .ok []
  | t :: ts => do
    let φ ← t.freezeAt (path ++ [index])
    let rest ← freezeList path (index + 1) ts
    return φ :: rest

end

/-- The formula of a builder. -/
def freeze (b : Builder) : Except SyntaxError Formula := b.freezeAt []

/-- The builder freezes, and to `φ`. -/
def freezesTo (b : Builder) (φ : Formula) : Bool :=
  match b.freeze with
  | .ok ψ => decide (ψ = φ)
  | .error _ => false

/-- The builder without the terms that freeze to `φ`. -/
def withoutTerm (b : Builder) (φ : Formula) : Builder :=
  .node b.connective? (b.terms.filter fun t => !t.freezesTo φ)

end Builder

end Deduction
