import Deduction.Arity

/-!
# Connectives

A connective marks the kind of a formula's node.  It is either *declared*, with an identity of its
own, or *structural*, one of ten kinds that the library gives a meaning to.  Two connectives are
equal when they have the same identity: each declaration takes an identity that no other has, so
equal labels do not make connectives equal, and structural connectives are equal when their kinds
are.  The label and the style only say how a formula is written.
-/

namespace Deduction

/-- The kinds of formula that stand for an object of a formal system. -/
inductive Structure where
  | sequence
  | enumeration
  | map
  | transformation
  | statedAxiom
  | inferenceRule
  | inference
  | provedTheorem
  | theory
  | axiomatization
deriving DecidableEq

namespace Structure

/-- The name of the kind. -/
def label : Structure → String
  | sequence => "sequence"
  | enumeration => "enumeration"
  | map => "map"
  | transformation => "transformation"
  | statedAxiom => "axiom"
  | inferenceRule => "inference-rule"
  | inference => "inference"
  | provedTheorem => "theorem"
  | theory => "theory"
  | axiomatization => "axiomatization"

/-- The number of terms of a formula of the kind. -/
def arity : Structure → Arity
  | sequence | enumeration | theory | axiomatization => .free
  | map | inference | provedTheorem => .fixed 2
  | transformation => .fixed 3
  | statedAxiom | inferenceRule => .fixed 1

/-- All kinds, in the order of their declaration. -/
def all : List Structure :=
  [sequence, enumeration, map, transformation, statedAxiom, inferenceRule, inference,
    provedTheorem, theory, axiomatization]

/-- The kind named `name`. -/
def ofLabel? (name : String) : Option Structure := all.find? (·.label = name)

end Structure

/-- How a formula is written, once its terms are. -/
inductive Style where
  /-- The label, followed by the terms in parentheses. -/
  | classical
  /-- The symbol between the two terms. -/
  | infixed (symbol : String)
  /-- The symbol before the one term. -/
  | prefixed (symbol : String)
  /-- The style of a structural kind. -/
  | structured (kind : Structure)
  /-- A style from outside of the library, told apart from others by a number. -/
  | custom (typesetter : Nat)
deriving DecidableEq

/-- The mark of a formula's node. -/
inductive Connective where
  /-- A connective declared under a label.  The identity tells apart what the other three fields
  may not. -/
  | declared (identity : Nat) (label : String) (arity : Arity) (style : Style)
  /-- The connective of a structural kind. -/
  | structural (kind : Structure)
deriving DecidableEq

namespace Connective

/-- The name under which the connective is written. -/
def label : Connective → String
  | declared _ label _ _ => label
  | structural kind => kind.label

/-- The numbers of terms that the connective takes. -/
def arity : Connective → Arity
  | declared _ _ arity _ => arity
  | structural kind => kind.arity

/-- How formulas of the connective are written. -/
def style : Connective → Style
  | declared _ _ _ style => style
  | structural kind => .structured kind

/-- The kind of a structural connective. -/
def kind? : Connective → Option Structure
  | declared .. => none
  | structural kind => some kind

@[simp] theorem kind?_eq_some {c : Connective} {kind : Structure} :
    c.kind? = some kind ↔ c = structural kind := by
  cases c <;> simp [kind?]

/-- A connective of `n` terms in the classical style. -/
def ofArity (identity : Nat) (label : String) (n : Nat) : Connective :=
  declared identity label (.fixed n) .classical

/-- A connective of any number of terms in the classical style. -/
def freeArity (identity : Nat) (label : String) : Connective :=
  declared identity label .free .classical

/-- A connective of two terms with `symbol` between them. -/
def binaryOperator (identity : Nat) (label symbol : String) : Connective :=
  declared identity label (.fixed 2) (.infixed symbol)

/-- A connective of one term with `symbol` before it. -/
def unaryOperator (identity : Nat) (label symbol : String) : Connective :=
  declared identity label (.fixed 1) (.prefixed symbol)

end Connective

end Deduction
