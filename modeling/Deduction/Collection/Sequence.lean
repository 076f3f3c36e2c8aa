import Deduction.Formula.Application

/-!
# Sequences

A sequence is a list of formulas, in which elements may repeat.  It is itself a formula, the
structural connective of sequences on its elements, and it can be read back from one.
-/

namespace Deduction

/-- An ordered list of formulas. -/
@[ext] structure Sequence where
  /-- The elements in order. -/
  elements : List Formula
deriving DecidableEq

namespace Sequence

/-- The sequence without elements. -/
def empty : Sequence := ⟨[]⟩

/-- The formula that stands for the sequence. -/
def formula (s : Sequence) : Formula := .structural .sequence s.elements

/-- The index of the first element equal to `φ`. -/
def position? (s : Sequence) (φ : Formula) : Option Nat := s.elements.findIdx? (· = φ)

/-- The sequence with `φ` after its last element. -/
def withElement (s : Sequence) (φ : Formula) : Sequence := ⟨s.elements ++ [φ]⟩

/-- Reads a sequence from a formula of a sequence or of an enumeration. -/
def ofFormula : Formula → Except SyntaxError Sequence
  | .node (.structural .sequence) ts => .ok ⟨ts⟩
  | .node (.structural .enumeration) ts => .ok ⟨ts⟩
  | φ => .error (.unreadable (.object .sequence) φ)

@[simp] theorem ofFormula_formula (s : Sequence) : ofFormula s.formula = .ok s := rfl

end Sequence

end Deduction
