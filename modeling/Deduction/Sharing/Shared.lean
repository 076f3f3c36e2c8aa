import Deduction.Builder
import Deduction.Renaming
import Deduction.Search.Strategy
import Deduction.Sharing.Reading
import Deduction.Sharing.Search
import Deduction.Theory.Axiomatization

/-!
# Values with their nodes

A `Shared` value is a value together with the nodes that it keeps: the node of its formula and,
beside it, those of its parts.  The operations of the library carry over: each does to the value
what it does anyway, and makes or keeps the nodes.

An object made of others has a new node on their nodes and keeps what they keep.  An operation that
gives back what it was given keeps the node.  An axiomatization comes with its theory, which is an
object of its own on the same derivations.

Objects are compared by their nodes.  Of rules, inferences and theorems the parts are compared too,
down to the parts of parts.
-/

namespace Deduction

/-- A value with the nodes that it keeps. -/
structure Shared (α : Type) where
  /-- The value. -/
  value : α
  /-- The node of its formula, and what its parts keep. -/
  kept : Kept Node

/-- A computation that takes addresses for new nodes and may be refused. -/
abbrev Placing (ε α : Type) := ExceptT ε Supply α

namespace Shared

variable {α β ε : Type}

/-- The node of the value's formula. -/
def node (x : Shared α) : Node := x.kept.root

/-- The value with nodes that are made or kept. -/
def place (value : α) (kept : Supply (Kept Node)) : Supply (Shared α) := return ⟨value, ← kept⟩

/-- The value of a result, if there is one, with nodes that are made or kept. -/
def follow (result : Except ε α) (kept : Supply (Kept Node)) : Placing ε (Shared α) := do
  match result with
  | .ok value => place value kept
  | .error e => throw e

/-- The nodes of shared values. -/
def nodes (xs : List (Shared α)) : List Node := xs.map node

/-- The values of shared values. -/
def values (xs : List (Shared α)) : List α := xs.map (·.value)

/-- A shared value as a value of another type that keeps the same. -/
def cast (f : α → β) (x : Shared α) : Shared β := ⟨f x.value, x.kept⟩

/-- The part at an index. -/
def part (x : Shared α) (f : α → β) (index : Nat) : Shared β := ⟨f x.value, x.kept.part index⟩

/-- Formulas with their nodes. -/
def together (φs : List Formula) (ns : List Node) : List (Shared Formula) :=
  List.zipWith (fun φ n => ⟨φ, .bare n⟩) φs ns

/-- The formula that stands for an object. -/
def formula [Object α] (x : Shared α) : Shared Formula := ⟨Object.formula x.value, .bare x.node⟩

/-! ## Formulas -/

/-- Both are one node. -/
def same (a b : Shared α) : Bool := a.node.same b.node

/-- The formulas are equal, decided with an eye on shared nodes. -/
def equivalent (a b : Shared α) : Bool := a.node.equivalent b.node

/-- The formula of a result, if there is one, of new nodes only. -/
def fresh (result : Except ε Formula) : Placing ε (Shared Formula) := do
  match result with
  | .ok φ => place φ (.bare <$> Node.ofFormula φ)
  | .error e => throw e

/-- A new node of connective `c` on terms. -/
def apply (c : Connective) (ts : List (Shared Formula)) : Placing SyntaxError (Shared Formula) :=
  follow (c.apply (values ts)) (.bare <$> Node.make c (nodes ts))

/-- New nodes of connective `c` on one term, `n` times over. -/
def nest (c : Connective) (n : Nat) (t : Shared Formula) : Placing SyntaxError (Shared Formula) :=
  follow (c.nest n t.value) (.bare <$> Node.nest c n t.node)

/-- The term at an index. -/
def term? (φ : Shared Formula) (index : Nat) : Option (Shared Formula) := do
  return ⟨← φ.value.terms[index]?, .bare (← φ.node.terms[index]?)⟩

/-- The formula and all formulas in it, each before its terms. -/
def subformulas (φ : Shared Formula) : List (Shared Formula) :=
  together φ.value.subformulas φ.node.preorder

/-- A formula with its connectives renamed has new nodes only. -/
def rename (ρ : Renaming) (φ : Shared Formula) : Placing SyntaxError (Shared Formula) :=
  fresh (φ.value.rename ρ)

/-- The formula of a builder has new nodes only. -/
def freeze (b : Builder) : Placing SyntaxError (Shared Formula) := fresh b.freeze

/-- A formula made from a template whose finished formulas are shared. -/
def build (t : Template (Shared Formula)) : Placing SyntaxError (Shared Formula) :=
  follow (t.map (·.value)).build (.bare <$> Node.ofTemplate (t.map node))

/-! ## Collections -/

/-- The sequence of formulas. -/
def sequence (φs : List (Shared Formula)) : Supply (Shared Sequence) :=
  place ⟨values φs⟩ (.bare <$> Node.structural .sequence (nodes φs))

/-- A sequence of the same elements. -/
def copy (s : Shared Sequence) : Supply (Shared Sequence) :=
  place s.value (.bare <$> Node.structural .sequence s.node.terms)

/-- The enumeration of formulas, refused if one repeats. -/
def enumeration (φs : List (Shared Formula)) : Placing SyntaxError (Shared Enumeration) :=
  follow (Enumeration.ofList (values φs)) (.bare <$> Node.structural .enumeration (nodes φs))

/-- The enumeration of first occurrences. -/
def strip (φs : List (Shared Formula)) : Supply (Shared Enumeration) :=
  place (Enumeration.strip (values φs)) <|
    .bare <$> Node.structural .enumeration (firstOccurrences Node.formula [] (nodes φs))

/-- The atomic subformulas in order of first occurrence. -/
def leaves (φ : Shared Formula) : Supply (Shared Enumeration) :=
  place φ.value.leaves <| .bare <$> Node.structural .enumeration
    (firstOccurrences Node.formula [] (φ.node.preorder.filter (·.terms.isEmpty)))

/-- The sequence with one more element. -/
def appendTo (s : Shared Sequence) (φ : Shared Formula) : Supply (Shared Sequence) :=
  place (s.value.withElement φ.value) <|
    .bare <$> Node.structural .sequence (s.node.terms ++ [φ.node])

/-- The enumeration with one more element, or the same node if the element is there. -/
def addTo (e : Shared Enumeration) (φ : Shared Formula) : Supply (Shared Enumeration) :=
  place (e.value.withElement φ.value) <|
    if φ.value ∈ e.value.elements then return e.kept
    else .bare <$> Node.structural .enumeration (e.node.terms ++ [φ.node])

/-- The sequence of an enumeration. -/
def toSequence (e : Shared Enumeration) : Supply (Shared Sequence) :=
  place e.value.toSequence (.bare <$> Node.structural .sequence e.node.terms)

/-- The union of enumerations. -/
def union (a b : Shared Enumeration) : Supply (Shared Enumeration) :=
  place (a.value.union b.value) <| .bare <$> Node.structural .enumeration
    (firstOccurrences Node.formula a.node.terms b.node.terms)

/-- The map with the given domain and codomain. -/
def mapOfParts (domain : Shared Enumeration) (codomain : Shared Sequence) :
    Placing SyntaxError (Shared Map) :=
  follow (Map.ofParts domain.value codomain.value)
    (Kept.structural .map [domain.kept, codomain.kept])

/-- The domain of a map. -/
def mapDomain (m : Shared Map) : Shared Enumeration := m.part (·.domain) 0

/-- The codomain of a map. -/
def mapCodomain (m : Shared Map) : Shared Sequence := m.part (·.codomain) 1

/-- The values of pairs. -/
def pairValues (pairs : List (Shared Formula × Shared Formula)) : List (Formula × Formula) :=
  pairs.map fun (key, image) => (key.value, image.value)

/-- The nodes of pairs. -/
def pairNodes (pairs : List (Shared Formula × Shared Formula)) : List (Node × Node) :=
  pairs.map fun (key, image) => (key.node, image.node)

/-- The map of pairs, refused if a key repeats. -/
def mapOfPairs (pairs : List (Shared Formula × Shared Formula)) :
    Placing SyntaxError (Shared Map) :=
  follow (Map.ofPairs (pairValues pairs)) (Kept.ofPairs (pairNodes pairs))

/-- The image of a key. -/
def image (m : Shared Map) (key : Shared Formula) : Placing SyntaxError (Shared Formula) :=
  follow (m.value.image key.value) <|
    return .bare ((Node.image? m.kept.pairs key.value).getD m.node)

/-- The map with another pair. -/
def withPair (m : Shared Map) (key image : Shared Formula) : Supply (Shared Map) :=
  place (m.value.withPair key.value image.value) <|
    Kept.ofPairs (m.kept.pairs.filter (·.1.formula ≠ key.value) ++ [(key.node, image.node)])

/-- The map without a key. -/
def without (m : Shared Map) (key : Shared Formula) : Supply (Shared Map) :=
  place (m.value.without key.value) <|
    Kept.ofPairs (m.kept.pairs.filter (·.1.formula ≠ key.value))

/-- The map on some keys only. -/
def restrict (m : Shared Map) (keys : List (Shared Formula)) : Supply (Shared Map) :=
  place (m.value.restrict (values keys)) <|
    Kept.ofPairs (m.kept.pairs.filter (·.1.formula ∈ values keys))

/-- The inverse of a map. -/
def inverse (m : Shared Map) : Placing SyntaxError (Shared Map) :=
  follow m.value.inverse (Kept.ofPairs (m.kept.pairs.map Prod.swap))

/-! ## Matching and substitution -/

/-- The value of a result, if there is one, and if it is one, with nodes that are made or kept. -/
def followSome (result : Except ε (Option α)) (kept : Supply (Kept Node)) :
    Placing ε (Option (Shared α)) := do
  match result with
  | .ok (some value) => place value kept
  | .ok none => return none
  | .error e => throw e

/-- The bindings of a match. -/
def matchPattern (target pattern : Shared Formula) (vars : List (Shared Formula))
    (bindings : Shared Map) : Placing SyntaxError (Option (Shared Map)) :=
  followSome (target.value.matchPattern pattern.value (values vars) bindings.value) <|
    Kept.ofPairs (Node.bind (values vars) pattern.node target.node bindings.kept.pairs)

/-- The formula with images in place of subformulas. -/
def replace (φ : Shared Formula) (image : Formula → Option (Shared Formula)) :
    Supply (Shared Formula) :=
  place (φ.value.replace fun χ => (image χ).map (·.value)) <|
    .bare <$> φ.node.substitute fun χ => (image χ).map node

/-- The formula under a map. -/
def substitute (φ : Shared Formula) (m : Shared Map) : Supply (Shared Formula) :=
  place (φ.value.substitute m.value) (.bare <$> φ.node.substitute (Node.image? m.kept.pairs))

/-- The formula with the images of the first pairs for its subformulas. -/
def replaceByFirst (φ : Shared Formula) (pairs : List (Shared Formula × Shared Formula)) :
    Supply (Shared Formula) :=
  place (φ.value.replace (.firstOf (pairValues pairs)))
    (.bare <$> φ.node.substitute (Node.image? (pairNodes pairs)))

/-- The formula with the images of the last pairs for its subformulas. -/
def replaceByLast (φ : Shared Formula) (pairs : List (Shared Formula × Shared Formula)) :
    Supply (Shared Formula) :=
  place (φ.value.replace (.lastOf (pairValues pairs)))
    (.bare <$> φ.node.substitute (Node.image? (pairNodes pairs).reverse))

/-! ## Transformations and derivations -/

/-- The transformation with the given parts. -/
def transformation (premises : Shared Sequence) (conclusion : Shared Formula)
    (vars : Shared Enumeration) : Placing SyntaxError (Shared Transformation) :=
  follow (Transformation.ofParts premises.value conclusion.value vars.value)
    (Kept.structural .transformation [conclusion.kept, vars.kept, premises.kept])

/-- The conclusion of a transformation. -/
def transformationConclusion (t : Shared Transformation) : Shared Formula := t.part (·.conclusion) 0

/-- The variables of a transformation. -/
def transformationVars (t : Shared Transformation) : Shared Enumeration := t.part (·.vars) 1

/-- The premises of a transformation. -/
def transformationPremises (t : Shared Transformation) : Shared Sequence := t.part (·.premises) 2

/-- What a transformation concludes from arguments. -/
def conclude (t : Shared Transformation) (arguments : List (Shared Formula)) :
    Placing Error (Shared Formula) :=
  follow (t.value.apply (values arguments)) (.bare <$> t.kept.apply (nodes arguments))

/-- The bindings of a match of the target against a conclusion. -/
def matchConclusion (t : Shared Transformation) (target : Shared Formula) :
    Placing SyntaxError (Option (Shared Map)) :=
  followSome (t.value.matchConclusion target.value) <|
    Kept.ofPairs (Node.bind t.kept.vars t.kept.conclusion target.node [])

/-- The variables of a transformation that bindings leave free. -/
def freeVariables (t : Shared Transformation) (bindings : Shared Map) : List (Shared Formula) :=
  let free := t.value.freeVariables bindings.value
  (together t.value.vars.elements t.transformationVars.node.terms).filter (·.value ∈ free)

/-- The premises of a transformation under bindings. -/
def premisesUnder (t : Shared Transformation) (bindings : Shared Map) :
    Supply (Shared Sequence) :=
  place (t.value.necessaryPremises bindings.value) do
    let premises ← Node.substituteList (Node.image? bindings.kept.pairs) t.kept.premises
    return .bare (← Node.structural .sequence premises)

/-- The axiom that states the formula. -/
def stated (statement : Shared Formula) : Supply (Shared Axiom) :=
  place ⟨statement.value⟩ (.bare <$> Node.structural .statedAxiom [statement.node])

/-- The rule of a transformation. -/
def rule (t : Shared Transformation) : Supply (Shared InferenceRule) :=
  place ⟨t.value⟩ (Kept.structural .inferenceRule [t.kept])

/-- The transformation of a rule. -/
def ruleTransformation (r : Shared InferenceRule) : Shared Transformation :=
  r.part (·.transformation) 0

/-- The inference by the rule from the premises. -/
def inference (r : Shared InferenceRule) (premises : Shared Sequence) :
    Supply (Shared Inference) :=
  place ⟨r.value, premises.value⟩ (Kept.structural .inference [r.kept, premises.kept])

/-- The rule of an inference. -/
def inferenceRule (i : Shared Inference) : Shared InferenceRule := i.part (·.rule) 0

/-- The premises of an inference. -/
def inferencePremises (i : Shared Inference) : Shared Sequence := i.part (·.premises) 1

/-- What an inference derives. -/
def infer (i : Shared Inference) : Placing Error (Shared Formula) :=
  follow i.value.apply <| .bare <$>
    i.inferenceRule.ruleTransformation.kept.apply i.inferencePremises.node.terms

/-- The theorem that states the formula by the inference. -/
def proved (statement : Shared Formula) (i : Shared Inference) :
    Placing Error (Shared Theorem) :=
  follow (Theorem.ofInference statement.value i.value) (Kept.provedTheorem statement.node i.kept)

/-- The statement of an axiom, which is the first term of its formula. -/
def axiomStatement (a : Shared Axiom) : Shared Formula := ⟨a.value.statement, .bare (a.node.term 0)⟩

/-- The statement of a theorem, which is the first term of its formula. -/
def theoremStatement (t : Shared Theorem) : Shared Formula :=
  ⟨t.value.statement, .bare (t.node.term 0)⟩

/-- The inference of a theorem. -/
def theoremInference (t : Shared Theorem) : Shared Inference := t.part (·.inference) 0

/-- What is read from a formula as an object of the kind. -/
def read (kind : Structure) (ofFormula : Formula → Except ε α) (φ : Shared Formula) :
    Placing ε (Shared α) :=
  follow (ofFormula φ.value) (φ.node.read kind)

/-- The derivation that is read from a formula. -/
def readDerivation (φ : Shared Formula) : Placing Error (Shared Derivation) :=
  follow (Derivation.ofFormula φ.value) φ.node.toDerivation

/-! ### Equality -/

/-- The rules have the same formula and keep the same transformation. -/
def equalRules (a b : Shared InferenceRule) : Bool :=
  a.equivalent b && a.ruleTransformation.equivalent b.ruleTransformation

/-- The inferences have the same formula and keep the same rule and the same premises. -/
def equalInferences (a b : Shared Inference) : Bool :=
  a.equivalent b && a.inferenceRule.equalRules b.inferenceRule
    && a.inferencePremises.equivalent b.inferencePremises

/-- The theorems have the same formula and keep the same inference. -/
def equalTheorems (a b : Shared Theorem) : Bool :=
  a.equivalent b && a.theoremInference.equalInferences b.theoremInference

/-- The derivations are of one kind and equal. -/
def equalDerivations (a b : Shared Derivation) : Bool :=
  match a.value, b.value with
  | .stated _, .stated _ => a.equivalent b
  | .rule r, .rule s => equalRules ⟨r, a.kept⟩ ⟨s, b.kept⟩
  | .proved t, .proved u => equalTheorems ⟨t, a.kept⟩ ⟨u, b.kept⟩
  | _, _ => false

/-! ## Theories -/

/-- The theory of derivations. -/
def theory (ds : List (Shared Derivation)) : Placing Error (Shared Theory) :=
  follow (Theory.ofList (values ds)) (Kept.structural .theory (ds.map (·.kept)))

/-- The derivations of a theory. -/
def derivations (T : Shared Theory) : List (Shared Derivation) :=
  List.zipWith Shared.mk T.value.derivations T.kept.parts

/-- What derivations keep, with those of further derivations that are not among them. -/
def withNew (parts : List (Kept Node)) (ds : List (Shared Derivation)) : List (Kept Node) :=
  firstOccurrences (·.root.formula) parts (ds.map (·.kept))

/-- The theory `extended`, which extending `T` by derivations led to. -/
def extensionOf (T : Shared Theory) (ds : List (Shared Derivation)) (extended : Theory) :
    Supply (Shared Theory) :=
  place extended (Kept.structural .theory (withNew T.kept.parts ds))

/-- Extends a theory. -/
def extend (T : Shared Theory) (ds : List (Shared Derivation)) : Run (Supply (Shared Theory)) :=
  return T.extensionOf ds (← T.value.extending (values ds))

/-- Extends a theory by the derivations of another. -/
def unite (S T : Shared Theory) : Run (Supply (Shared Theory)) := S.extend T.derivations

/-- Derives a theorem by hand. -/
def derive (T : Shared Theory) (conjecture : Shared Formula) (premises : Shared Sequence)
    (r : Shared InferenceRule) : Run (Theorem × Supply (Shared Theory)) := do
  let (extended, t) ← T.value.derive conjecture.value premises.value r.value
  let placed := do
    let i ← inference r premises
    T.extensionOf [⟨.proved t, ← Kept.provedTheorem conjecture.node i.kept⟩] extended
  return (t, placed)

/-- The axiomatization whose derivations keep what is given, with its theory. -/
def axiomatizationOn (result : Except Error Axiomatization) (parts : List (Kept Node)) :
    Placing Error (Shared Axiomatization × Shared Theory) := do
  let A ← follow result (Kept.structural .axiomatization parts)
  return (A, ← place A.value.theory (Kept.structural .theory parts))

/-- The axiomatization of derivations. -/
def axiomatization (ds : List (Shared Derivation)) :
    Placing Error (Shared Axiomatization × Shared Theory) :=
  axiomatizationOn (Axiomatization.ofList (values ds)) (ds.map (·.kept))

/-- The axiomatization with more derivations. -/
def extendAxioms (A : Shared Axiomatization) (ds : List (Shared Derivation)) :
    Placing Error (Shared Axiomatization × Shared Theory) :=
  axiomatizationOn (A.value.extend (values ds)) (withNew A.kept.parts ds)

/-- The axiomatization that is read from a formula. -/
def readAxiomatization (φ : Shared Formula) :
    Placing Error (Shared Axiomatization × Shared Theory) := do
  match Axiomatization.ofFormula φ.value with
  | .ok A => axiomatizationOn (.ok A) (← φ.node.toDerivations .theory).parts
  | .error e => throw e

/-! ## Search -/

/-- A strategy whose rules have nodes. -/
inductive Plan where
  /-- Look among the valid statements. -/
  | exactMatch
  /-- Use one rule. -/
  | singleLevel
  /-- Use rules on several levels. -/
  | recursive (options : Options)
  /-- Use the given rule once. -/
  | withRule (rule : Shared InferenceRule)
  /-- Try plans in order. -/
  | escalating (plans : List Plan)

namespace Plan

mutual

/-- The strategy without the nodes. -/
def strategy : Plan → Strategy
  | .exactMatch => .exactMatch
  | .singleLevel => .singleLevel
  | .recursive options => .recursive options
  | .withRule rule => .withRule rule.value
  | .escalating plans => .escalating (strategies plans)

/-- The strategies without the nodes. -/
def strategies : List Plan → List Strategy
  | [] => []
  | p :: ps => p.strategy :: strategies ps

end

mutual

/-- Where the plan takes rules from, in order: a rule of its own, or the theory. -/
def sources : Plan → List (Option (Shared InferenceRule))
  | .exactMatch => []
  | .singleLevel | .recursive _ => [none]
  | .withRule rule => [some rule]
  | .escalating plans => sourcesList plans

/-- Where the plans take rules from, in order. -/
def sourcesList : List Plan → List (Option (Shared InferenceRule))
  | [] => []
  | p :: ps => p.sources ++ sourcesList ps

end

/-- What a rule of formula `φ` that is the plan's own keeps, if the plan does not come to the rules
of the theory before it. -/
def rule? (plan : Plan) (φ : Formula) : Option (Kept Node) :=
  (plan.sources.find? (·.all (·.value.formula = φ))).join.map (·.kept)

/-- From the exact to the single-level to the recursive search. -/
def standard : Plan := .escalating [.exactMatch, .singleLevel, .recursive {}]

end Plan

/-- Searches for a target. -/
def search (T : Shared Theory) (plan : Plan) (target : Shared Formula) :
    Run (Outcome × Supply (Shared Theory)) := do
  let o ← plan.strategy.search T.value target.value
  return (o, place o.theory (T.kept.ofSearch plan.rule? [target.node] o.theory))

/-- Searches for targets in order. -/
def searchSequence (T : Shared Theory) (plan : Plan) (targets : List (Shared Formula)) :
    Run (Outcome × Supply (Shared Theory)) := do
  let o ← Search.sequence plan.strategy.search T.value (values targets)
  return (o, place o.theory (T.kept.ofSearch plan.rule? (nodes targets) o.theory))

end Shared

end Deduction
