import Deduction.Collection.Repeat
import Deduction.Collection.Sequence

/-!
# Enumerations

An enumeration is a list of formulas without duplicates, in an order that matters to equality but
not to `Enumeration.equivalent`.  A list with duplicates can be refused (`Enumeration.ofList`) or
stripped of them (`Enumeration.strip`), and then every element that is left out is worth a
warning.
-/

namespace Deduction

/-- Something left out of an enumeration. -/
inductive Warning where
  /-- The element at `index` of the given list repeats an earlier one. -/
  | dropped (element : Formula) (index : Nat)
  /-- The element to be added is there already. -/
  | present (element : Formula)
deriving DecidableEq

namespace Warning

/-- The wording of a warning. -/
def message : Warning → String
  | dropped .. => "dropping duplicate enumeration element"
  | present _ => "element already in enumeration"

/-- The element that a warning is about. -/
def element : Warning → Formula
  | dropped element _ => element
  | present element => element

/-- The index that a warning is about. -/
def index? : Warning → Option Nat
  | dropped _ index => some index
  | present _ => none

end Warning

/-- An ordered list of formulas without duplicates. -/
structure Enumeration where
  /-- The elements in order. -/
  elements : List Formula
  /-- No element repeats. -/
  nodup : elements.Nodup
deriving DecidableEq

namespace Enumeration

@[ext] theorem ext {a b : Enumeration} (h : a.elements = b.elements) : a = b := by
  cases a; cases b; simp_all

/-- The enumeration without elements. -/
def empty : Enumeration := ⟨[], List.nodup_nil⟩

/-- The enumeration of a list, refused if an element repeats. -/
def ofList (xs : List Formula) : Except SyntaxError Enumeration :=
  match h : firstRepeat? [] xs with
  | some r => .error (.duplicate r.element r.first r.second)
  | none => .ok ⟨xs, nodup_of_firstRepeat?_eq_none h⟩

/-- The enumeration of the first occurrences in a list. -/
def strip (xs : List Formula) : Enumeration := ⟨appendNew [] xs, nodup_appendNew List.nodup_nil xs⟩

/-- What `strip` leaves out of a list. -/
def stripWarnings (xs : List Formula) : List Warning :=
  (repeats [] 0 xs).map fun (element, index) => .dropped element index

/-- The formula that stands for the enumeration. -/
def formula (e : Enumeration) : Formula := .structural .enumeration e.elements

/-- The index of the element equal to `φ`. -/
def position? (e : Enumeration) (φ : Formula) : Option Nat := e.elements.findIdx? (· = φ)

/-- The enumeration with `φ` after its last element, unless it is an element already. -/
def withElement (e : Enumeration) (φ : Formula) : Enumeration :=
  ⟨appendNew e.elements [φ], nodup_appendNew e.nodup [φ]⟩

/-- What `withElement` leaves out. -/
def withElementWarnings (e : Enumeration) (φ : Formula) : List Warning :=
  if φ ∈ e.elements then [.present φ] else []

/-- Each enumeration has every element of the other. -/
def equivalent (a b : Enumeration) : Bool :=
  a.elements.all (· ∈ b.elements) && b.elements.all (· ∈ a.elements)

/-- The elements of `a`, followed by those of `b` that are not in `a`. -/
def union (a b : Enumeration) : Enumeration :=
  ⟨appendNew a.elements b.elements, nodup_appendNew a.nodup b.elements⟩

/-- The sequence of the elements. -/
def toSequence (e : Enumeration) : Sequence := ⟨e.elements⟩

/-- Reads an enumeration from a formula of an enumeration or of a sequence without duplicates. -/
def ofFormula : Formula → Except SyntaxError Enumeration
  | .node (.structural .enumeration) ts => ofList ts
  | .node (.structural .sequence) ts => ofList ts
  | φ => .error (.unreadable (.object .enumeration) φ)

/-- A list is refused exactly when an element repeats. -/
theorem ofList_eq_ok {xs : List Formula} {e : Enumeration} :
    ofList xs = .ok e ↔ e.elements = xs := by
  rw [ofList]
  split
  next r h =>
    have hr : ¬ (xs.Nodup ∧ ∀ x ∈ xs, x ∉ ([] : List Formula)) := by
      rw [← firstRepeat?_eq_none_iff, h]
      simp
    constructor
    · simp
    · rintro rfl
      exact absurd ⟨e.nodup, by simp⟩ hr
  next h => simp [Enumeration.ext_iff, eq_comm]

@[simp] theorem ofList_elements (e : Enumeration) : ofList e.elements = .ok e :=
  ofList_eq_ok.mpr rfl

@[simp] theorem ofFormula_formula (e : Enumeration) : ofFormula e.formula = .ok e :=
  ofList_elements e

end Enumeration

/-- The atomic subformulas, in the order of their first occurrence. -/
def Formula.leaves (φ : Formula) : Enumeration :=
  .strip (φ.subformulas.filter fun ψ => decide ψ.IsAtomic)

end Deduction
