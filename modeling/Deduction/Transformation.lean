import Deduction.Error
import Deduction.Matching

/-!
# Transformations

A transformation leads from arguments to a conclusion: its premises are patterns that the arguments
must match, all with the same bindings of its variables, and these bindings are substituted into
its conclusion.

It can also be read backwards.  Matching a target against the conclusion binds the variables that
the conclusion has, and what is left are the variables that only premises have.
-/

namespace Deduction

/-- Premises and a conclusion over variables. -/
structure Transformation where
  /-- The patterns that the arguments must match. -/
  premises : Sequence
  /-- The pattern that becomes the result. -/
  conclusion : Formula
  /-- The formulas that the patterns leave open. -/
  vars : Enumeration
  /-- Variables have no terms. -/
  atomic : ∀ v ∈ vars.elements, v.IsAtomic
deriving DecidableEq

namespace Transformation

/-- The transformation with the given parts, refused if a variable has terms. -/
def ofParts (premises : Sequence) (conclusion : Formula) (vars : Enumeration) :
    Except SyntaxError Transformation :=
  match h : vars.elements.find? (¬ ·.IsAtomic) with
  | some v => .error (.notAtomic v)
  | none => .ok ⟨premises, conclusion, vars, by simpa using h⟩

/-- The formula that stands for the transformation: conclusion, variables and premises. -/
def formula (t : Transformation) : Formula :=
  .structural .transformation [t.conclusion, t.vars.formula, t.premises.formula]

/-- Reads a transformation from its formula: the premises, then the variables. -/
def ofFormula : Formula → Except SyntaxError Transformation
  | .node (.structural .transformation) [conclusion, vars, premises] => do
    let premises ← Sequence.ofFormula premises
    let vars ← Enumeration.ofFormula vars
    ofParts premises conclusion vars
  | φ => .error (.unreadable (.object .transformation) φ)

/-! ## Forwards -/

/-- Matches each argument against the premise at the same index, with the bindings of the matches
before it. -/
def solve (vars : List Formula) :
    (premises arguments : List Formula) → Map → Except SyntaxError (Option Map)
  | p :: ps, a :: as, bindings => do
    match ← a.matchPattern p vars bindings with
    | some bindings => solve vars ps as bindings
    | none => return none
  | _, _, bindings => return some bindings

/-- The conclusion that the transformation draws from the arguments. -/
def apply (t : Transformation) (arguments : List Formula) : Except Error Formula :=
  let mismatch := .error (.mismatch (Sequence.mk arguments).formula t.formula)
  if arguments.length ≠ t.premises.elements.length then mismatch
  else
    match solve t.vars.elements t.premises.elements arguments .empty with
    | .error e => .error (.ofFormulas e)
    | .ok none => mismatch
    | .ok (some bindings) => .ok (t.conclusion.substitute bindings)

/-! ## Backwards -/

/-- Matches the target against the conclusion. -/
def matchConclusion (t : Transformation) (target : Formula) : Except SyntaxError (Option Map) :=
  target.matchPattern t.conclusion t.vars.elements .empty

/-- The variables that a premise has and the bindings do not bind, in their order. -/
def freeVariables (t : Transformation) (bindings : Map) : List Formula :=
  t.vars.elements.filter fun v =>
    !bindings.containsKey v && t.premises.elements.any (·.contains v)

/-- The premises under the bindings. -/
def necessaryPremises (t : Transformation) (bindings : Map) : Sequence :=
  ⟨t.premises.elements.map (·.substitute bindings)⟩

end Transformation

end Deduction
