import Deduction.Sharing.Node
import Deduction.Theory.Axiomatization

/-!
# What objects keep

An object keeps more than its formula.  A map keeps its domain and its codomain beside it, a
transformation its conclusion, its variables and its premises, a rule its transformation, an
inference its rule and its premises, a theorem its inference, and a theory its derivations.  Each of
these has a formula of its own, and nothing in `Kept` says that it is a term of the object's.

`Object.outline` lists what a value keeps, and a `Kept Node` is what it keeps with the addresses.
-/

namespace Deduction

/-- The formula of an object and what its parts keep, where `ν` is what stands for formulas. -/
inductive Kept (ν : Type) where
  | mk (root : ν) (parts : List (Kept ν))

namespace Kept

variable {ν : Type}

/-- The object's own formula. -/
def root : Kept ν → ν
  | .mk root _ => root

/-- What the parts keep. -/
def parts : Kept ν → List (Kept ν)
  | .mk _ parts => parts

/-- What an object without parts keeps. -/
def bare (root : ν) : Kept ν := .mk root []

/-- What the part at an index keeps, or the object itself if there is none. -/
def part (k : Kept ν) (index : Nat) : Kept ν := k.parts.getD index k

/-- A new object of a structural kind, whose formula has those of its parts as terms. -/
def structural (kind : Structure) (parts : List (Kept Node)) : Supply (Kept Node) :=
  return .mk (← Node.structural kind (parts.map root)) parts

/-- A new theorem.  It keeps its inference, while its statement is just the first term. -/
def provedTheorem (statement : Node) (inference : Kept Node) : Supply (Kept Node) :=
  return .mk (← Node.structural .provedTheorem [statement, inference.root]) [inference]

end Kept

/-! ## Objects -/

/-- Values that a formula stands for. -/
class Object (α : Type) where
  /-- What the value keeps. -/
  outline : α → Kept Formula

namespace Object

/-- The formula that stands for the object. -/
def formula {α : Type} [Object α] (a : α) : Formula := (outline a).root

instance : Object Formula := ⟨.bare⟩
instance : Object Sequence := ⟨fun s => .bare s.formula⟩
instance : Object Enumeration := ⟨fun e => .bare e.formula⟩
instance : Object Axiom := ⟨fun a => .bare a.formula⟩

instance : Object Map := ⟨fun m => .mk m.formula [outline m.domain, outline m.codomain]⟩

instance : Object Transformation :=
  ⟨fun t => .mk t.formula [outline t.conclusion, outline t.vars, outline t.premises]⟩

instance : Object InferenceRule := ⟨fun r => .mk r.formula [outline r.transformation]⟩
instance : Object Inference := ⟨fun i => .mk i.formula [outline i.rule, outline i.premises]⟩
instance : Object Theorem := ⟨fun t => .mk t.formula [outline t.inference]⟩

instance : Object Derivation where
  outline
    | .stated a => outline a
    | .rule r => outline r
    | .proved t => outline t

instance : Object Theory := ⟨fun T => .mk T.formula (T.derivations.map outline)⟩
instance : Object Axiomatization := ⟨fun A => .mk A.formula (A.derivations.map outline)⟩

@[simp] theorem formula_formula (φ : Formula) : formula φ = φ := rfl
@[simp] theorem formula_sequence (s : Sequence) : formula s = s.formula := rfl
@[simp] theorem formula_enumeration (e : Enumeration) : formula e = e.formula := rfl
@[simp] theorem formula_axiom (a : Axiom) : formula a = a.formula := rfl
@[simp] theorem formula_map (m : Map) : formula m = m.formula := rfl
@[simp] theorem formula_transformation (t : Transformation) : formula t = t.formula := rfl
@[simp] theorem formula_rule (r : InferenceRule) : formula r = r.formula := rfl
@[simp] theorem formula_inference (i : Inference) : formula i = i.formula := rfl
@[simp] theorem formula_theorem (t : Theorem) : formula t = t.formula := rfl
@[simp] theorem formula_derivation (d : Derivation) : formula d = d.formula := by cases d <;> rfl
@[simp] theorem formula_theory (T : Theory) : formula T = T.formula := rfl
@[simp] theorem formula_axiomatization (A : Axiomatization) : formula A = A.formula := rfl

end Object

end Deduction
