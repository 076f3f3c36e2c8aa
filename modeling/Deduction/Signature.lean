import Deduction.Formula.Application

/-!
# Signatures

A signature is a catalogue of connectives in the order in which they were added, with an index that
leads from a label to the position of the connective with that label.  List and index change
together, in `Signature.add` and nowhere else.  As a label has one position at most, no two
connectives of a signature have the same label.
-/

namespace Deduction

/-- A list of connectives with an index of their labels. -/
structure Signature where
  /-- The connectives in the order of their addition. -/
  connectives : List Connective
  /-- The position of the connective with a label. -/
  index : String → Option Nat
  /-- The index leads a label to a position exactly when the connective there has the label. -/
  indexed : ∀ label i, index label = some i ↔
    (connectives[i]?).map Connective.label = some label

namespace Signature

/-- The signature without connectives. -/
def empty : Signature := ⟨[], fun _ => none, by simp⟩

/-- The connective with the label. -/
def get? (s : Signature) (label : String) : Option Connective :=
  (s.index label).bind (s.connectives[·]?)

/-- The index stays in step with the list when a connective with a new label is appended. -/
theorem indexed_append {s : Signature} {c : Connective} (h : s.index c.label = none)
    (label : String) (i : Nat) :
    (if label = c.label then some s.connectives.length else s.index label) = some i ↔
      ((s.connectives ++ [c])[i]?).map Connective.label = some label := by
  have hnew : ∀ j : Nat, (s.connectives[j]?).map Connective.label ≠ some c.label := by
    intro j hj
    rw [← s.indexed, h] at hj
    cases hj
  have hold := s.indexed label i
  have hout : s.connectives.length ≤ i → s.connectives[i]? = none := List.getElem?_eq_none
  grind

/-- The signature with `c` after its last connective.  Nothing changes if `c` is there, and
another connective with its label is an error. -/
def add (s : Signature) (c : Connective) : Except SyntaxError Signature :=
  match h : s.index c.label with
  | some i => if s.connectives[i]? = some c then .ok s else .error (.ambiguous c.label)
  | none => .ok {
      connectives := s.connectives ++ [c]
      index := fun label => if label = c.label then some s.connectives.length else s.index label
      indexed := indexed_append h }

/-- The signature with the connectives added in order. -/
def addAll (s : Signature) : List Connective → Except SyntaxError Signature
  | [] => .ok s
  | c :: cs => do (← s.add c).addAll cs

/-- The signature `s` with the connectives of `t` added in order. -/
def merge (s t : Signature) : Except SyntaxError Signature := s.addAll t.connectives

/-- The signatures merged from left to right. -/
def mergeAll : List Signature → Except SyntaxError Signature :=
  List.foldlM merge empty

/-- The signature of the connectives of a formula, in the order of its subformulas. -/
def ofFormula (φ : Formula) : Except SyntaxError Signature :=
  empty.addAll (φ.subformulas.map Formula.connective)

/-- The labels in order, in square brackets. -/
def text (s : Signature) : String := s!"[{commaSeparated (s.connectives.map Connective.label)}]"

end Signature

end Deduction
