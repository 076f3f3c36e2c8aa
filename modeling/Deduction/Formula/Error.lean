import Deduction.Formula.Text

/-!
# What can go wrong with formulas

Each way in which an operation on formulas is refused is a constructor that carries what the
refusal is about.  `SyntaxError.code` gives its stable code and `SyntaxError.message` its wording.
-/

namespace Deduction

/-- What a formula was to be read as. -/
inductive Reading where
  /-- An object of a structural kind. -/
  | object (kind : Structure)
  /-- A derivation: an axiom, an inference rule or a theorem. -/
  | derivation
deriving DecidableEq

/-- The name of what a formula was to be read as. -/
def Reading.label : Reading → String
  | object kind => kind.label
  | derivation => "derivation"

/-- Why an operation on formulas is refused. -/
inductive SyntaxError where
  /-- The connective does not take the given number of terms. -/
  | arityMismatch (connective : Connective) (given : Nat)
  /-- The element at index `second` equals the one at index `first`. -/
  | duplicate (element : Formula) (first second : Nat)
  /-- The domain and the codomain of a map differ in length. -/
  | cardinality (domain codomain : Nat)
  /-- The formula does not encode what it was to be read as. -/
  | unreadable (expected : Reading) (formula : Formula)
  /-- A declared variable has terms. -/
  | notAtomic (var : Formula)
  /-- A variable occurs in the formula that is matched against a pattern. -/
  | variableOccurs (var target : Formula)
  /-- A binding is given for a formula that is not a variable. -/
  | notVariable (key : Formula)
  /-- The map has no image for the formula. -/
  | noImage (key map : Formula)
  /-- Two elements of the map have the same image. -/
  | notInvertible (map image : Formula)
  /-- The builder has no connective at the end of the path. -/
  | incomplete (path : List Nat)
  /-- Two different connectives have the same label. -/
  | ambiguous (label : String)
deriving DecidableEq

namespace SyntaxError

/-- The stable code of an error. -/
def code : SyntaxError → String
  | arityMismatch .. => "SYN-001"
  | duplicate .. => "SYN-002"
  | cardinality .. => "SYN-003"
  | unreadable .. => "SYN-004"
  | notAtomic .. => "SYN-005"
  | variableOccurs .. => "SYN-006"
  | notVariable .. => "SYN-007"
  | noImage .. => "SYN-008"
  | notInvertible .. => "SYN-009"
  | incomplete .. => "SYN-010"
  | ambiguous .. => "SYN-011"

/-- A path as a list of numbers in square brackets. -/
def pathText (path : List Nat) : String := s!"[{commaSeparated (path.map toString)}]"

/-- The wording of an error. -/
def message [Typesetters] : SyntaxError → String
  | arityMismatch c given =>
    s!"connective `{c.label}` expects {c.arity.text} terms, but {given} were given"
  | duplicate element first second =>
    s!"element `{element.text}` at index {second} duplicates the element at index {first}"
  | cardinality domain codomain =>
    s!"map domain has {domain} elements, but its codomain has {codomain}"
  | unreadable expected φ =>
    s!"cannot coerce `{φ.text}` of kind `{φ.connective.label}` into {expected.label}"
  | notAtomic v => s!"variable `{v.text}` is not an atomic formula"
  | variableOccurs v target =>
    s!"variable `{v.text}` occurs in the matched formula `{target.text}`"
  | notVariable key => s!"bound formula `{key.text}` is not a declared variable"
  | noImage key map => s!"formula `{key.text}` is not in the domain of map `{map.text}`"
  | notInvertible map image =>
    s!"map `{map.text}` is not invertible: `{image.text}` is the image of more than one element"
  | incomplete path => s!"formula builder has no connective at term path {pathText path}"
  | ambiguous label => s!"label `{label}` is declared by two distinct connectives"

end SyntaxError

end Deduction
