import Deduction.Sharing.Kept

/-!
# Which nodes reading keeps

An object that is read from a formula is a new node on what it is made of, with two exceptions: a
sequence read from the formula of a sequence, and an axiom, are the node that they are read from.
The functions here follow the nodes through readings that are known to succeed, and collect what the
object keeps.
-/

namespace Deduction.Node

/-- The sequence read from a node. -/
def toSequence (n : Node) : Supply Node :=
  if n.connective = .structural .sequence then return n else structural .sequence n.terms

/-- The enumeration read from a node. -/
def toEnumeration (n : Node) : Supply Node := structural .enumeration n.terms

/-- The map read from a node. -/
def toMap (n : Node) : Supply (Kept Node) :=
  match n.terms with
  | [domain, codomain] => do
    let domain ← domain.toEnumeration
    let codomain ← codomain.toSequence
    Kept.structural .map [.bare domain, .bare codomain]
  | _ => return .bare n

/-- The transformation read from a node. -/
def toTransformation (n : Node) : Supply (Kept Node) :=
  match n.terms with
  | [conclusion, vars, premises] => do
    let premises ← premises.toSequence
    let vars ← vars.toEnumeration
    Kept.structural .transformation [.bare conclusion, .bare vars, .bare premises]
  | _ => return .bare n

/-- The inference rule read from a node. -/
def toRule (n : Node) : Supply (Kept Node) :=
  match n.terms with
  | [transformation] => do Kept.structural .inferenceRule [← transformation.toTransformation]
  | _ => return .bare n

/-- The inference read from a node. -/
def toInference (n : Node) : Supply (Kept Node) :=
  match n.terms with
  | [rule, premises] => do
    let rule ← rule.toRule
    let premises ← premises.toSequence
    Kept.structural .inference [rule, .bare premises]
  | _ => return .bare n

/-- The theorem read from a node. -/
def toTheorem (n : Node) : Supply (Kept Node) :=
  match n.terms with
  | [statement, inference] => do Kept.provedTheorem statement (← inference.toInference)
  | _ => return .bare n

/-- The derivation read from a node. -/
def toDerivation (n : Node) : Supply (Kept Node) :=
  match n.connective with
  | .structural .inferenceRule => n.toRule
  | .structural .provedTheorem => n.toTheorem
  | _ => return .bare n

/-- The list of derivations read from a node, as a new object of the kind. -/
def toDerivations (kind : Structure) (n : Node) : Supply (Kept Node) := do
  Kept.structural kind (← n.terms.mapM toDerivation)

/-- What is read from a node as an object of the kind. -/
def read (kind : Structure) (n : Node) : Supply (Kept Node) :=
  match kind with
  | .sequence => .bare <$> n.toSequence
  | .enumeration => .bare <$> n.toEnumeration
  | .map => n.toMap
  | .transformation => n.toTransformation
  | .statedAxiom => return .bare n
  | .inferenceRule => n.toRule
  | .inference => n.toInference
  | .provedTheorem => n.toTheorem
  | .theory => n.toDerivations .theory
  | .axiomatization => n.toDerivations .axiomatization

end Deduction.Node
