import Deduction.Transformation

/-!
# Derivations

A derivation is what a theory consists of: an axiom, which makes a statement, an inference rule,
which is a transformation admitted for proofs, or a theorem, which makes a statement and justifies
it by an inference.  An inference names a rule and the premises that it is applied to, and a
theorem exists only if its inference derives its statement.

Each of them is also a formula and can be read back from it.
-/

namespace Deduction

/-- An unconditional statement. -/
structure Axiom where
  /-- What the axiom states. -/
  statement : Formula
deriving DecidableEq

/-- A transformation admitted for proofs. -/
structure InferenceRule where
  /-- How the rule leads from premises to a conclusion. -/
  transformation : Transformation
deriving DecidableEq

/-- A rule and the premises that it is applied to. -/
structure Inference where
  /-- The rule. -/
  rule : InferenceRule
  /-- What the rule is applied to. -/
  premises : Sequence
deriving DecidableEq

/-- What the rule concludes from the premises. -/
def Inference.apply (i : Inference) : Except Error Formula :=
  i.rule.transformation.apply i.premises.elements

/-- A statement that an inference derives. -/
structure Theorem where
  /-- What the theorem states. -/
  statement : Formula
  /-- What justifies it. -/
  inference : Inference
  /-- The inference derives the statement. -/
  derives : inference.apply = .ok statement
deriving DecidableEq

/-- An element of a theory. -/
inductive Derivation where
  /-- An axiom. -/
  | stated (a : Axiom)
  /-- An inference rule. -/
  | rule (r : InferenceRule)
  /-- A theorem. -/
  | proved (t : Theorem)
deriving DecidableEq

/-! ## As formulas -/

/-- The formula that stands for the axiom. -/
def Axiom.formula (a : Axiom) : Formula := .structural .statedAxiom [a.statement]

/-- The formula that stands for the rule. -/
def InferenceRule.formula (r : InferenceRule) : Formula :=
  .structural .inferenceRule [r.transformation.formula]

/-- The formula that stands for the inference: the rule and the premises. -/
def Inference.formula (i : Inference) : Formula :=
  .structural .inference [i.rule.formula, i.premises.formula]

/-- The formula that stands for the theorem: the statement and the inference. -/
def Theorem.formula (t : Theorem) : Formula :=
  .structural .provedTheorem [t.statement, t.inference.formula]

/-- The formula that stands for the derivation. -/
def Derivation.formula : Derivation → Formula
  | stated a => a.formula
  | rule r => r.formula
  | proved t => t.formula

/-! ## Statements -/

/-- The theorem that states `statement` by `inference`, refused if the inference derives something
else or nothing. -/
def Theorem.ofInference (statement : Formula) (inference : Inference) : Except Error Theorem :=
  match h : inference.apply with
  | .error e => .error e
  | .ok derived =>
    if heq : derived = statement then .ok ⟨statement, inference, heq ▸ h⟩
    else .error (.notDerived statement derived)

namespace Derivation

/-- What the derivation states.  Rules state nothing. -/
def statement? : Derivation → Option Formula
  | stated a => some a.statement
  | rule _ => none
  | proved t => some t.statement

/-- The derivation is a theorem. -/
def IsTheorem : Derivation → Prop
  | proved _ => True
  | stated _ | rule _ => False

instance : DecidablePred IsTheorem
  | proved _ => isTrue trivial
  | stated _ => isFalse not_false
  | rule _ => isFalse not_false

end Derivation

/-! ## Read from formulas -/

/-- Reads an axiom from its formula. -/
def Axiom.ofFormula : Formula → Except Error Axiom
  | .node (.structural .statedAxiom) [statement] => .ok ⟨statement⟩
  | φ => .error (.ofFormulas (.unreadable (.object .statedAxiom) φ))

/-- Reads a rule from its formula. -/
def InferenceRule.ofFormula : Formula → Except Error InferenceRule
  | .node (.structural .inferenceRule) [transformation] => do
    return ⟨← Transformation.ofFormula transformation⟩
  | φ => .error (.ofFormulas (.unreadable (.object .inferenceRule) φ))

/-- Reads an inference from its formula: the rule, then the premises. -/
def Inference.ofFormula : Formula → Except Error Inference
  | .node (.structural .inference) [rule, premises] => do
    let rule ← InferenceRule.ofFormula rule
    let premises ← Sequence.ofFormula premises
    return ⟨rule, premises⟩
  | φ => .error (.ofFormulas (.unreadable (.object .inference) φ))

/-- Reads a theorem from its formula and checks that its inference derives its statement. -/
def Theorem.ofFormula : Formula → Except Error Theorem
  | .node (.structural .provedTheorem) [statement, inference] => do
    Theorem.ofInference statement (← Inference.ofFormula inference)
  | φ => .error (.ofFormulas (.unreadable (.object .provedTheorem) φ))

/-- Reads a derivation from the formula of an axiom, a rule or a theorem. -/
def Derivation.ofFormula (φ : Formula) : Except Error Derivation :=
  match φ.connective with
  | .structural .statedAxiom => .stated <$> Axiom.ofFormula φ
  | .structural .inferenceRule => .rule <$> InferenceRule.ofFormula φ
  | .structural .provedTheorem => .proved <$> Theorem.ofFormula φ
  | _ => .error (.ofFormulas (.unreadable .derivation φ))

/-- Reads derivations from a list of formulas and stops at the first error. -/
def Derivation.ofFormulas : List Formula → Except Error (List Derivation)
  | [] => .ok []
  | φ :: φs => do
    let d ← ofFormula φ
    let ds ← ofFormulas φs
    return d :: ds

end Deduction
