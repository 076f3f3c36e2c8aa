import Deduction.Connective

/-!
# Formulas

A formula is an ordered tree: a connective on a list of terms.  Equality of formulas is equality
of trees, and it is decidable.  `Formula.WellFormed` says that every node has a number of terms
that its connective takes; the type itself does not ask for it.

A formula is listed before its terms and the terms from left to right.  `Formula.subformulas`
produces that list with a stack of formulas still to visit, `Formula.preorder` by recursion on the
tree, and `Formula.subformulas_eq_preorder` says that they agree.
-/

namespace Deduction

/-- A connective on a list of terms. -/
inductive Formula where
  | node (connective : Connective) (terms : List Formula)

namespace Formula

/-- What holds of a formula whenever it holds of all its terms holds of every formula. -/
@[elab_as_elim, induction_eliminator]
theorem induct {motive : Formula → Prop}
    (node : ∀ c ts, (∀ t ∈ ts, motive t) → motive (.node c ts)) (φ : Formula) : motive φ :=
  @Formula.rec motive (fun ts => ∀ t ∈ ts, motive t)
    node (by simp) (fun _ _ ht hts => by simpa using ⟨ht, hts⟩) φ

/-! ## Decidable equality -/

mutual

/-- Decides equality of formulas, comparing the connectives first. -/
def decEq : (φ ψ : Formula) → Decidable (φ = ψ)
  | .node c ts, .node d us =>
    if hc : c = d then
      match decEqList ts us with
      | isTrue hts => isTrue (by rw [hc, hts])
      | isFalse hts => isFalse (by simp [hts])
    else isFalse (by simp [hc])

/-- Decides equality of lists of formulas, from left to right. -/
def decEqList : (ts us : List Formula) → Decidable (ts = us)
  | [], [] => isTrue rfl
  | [], _ :: _ => isFalse (by simp)
  | _ :: _, [] => isFalse (by simp)
  | t :: ts, u :: us =>
    match decEq t u with
    | isTrue ht =>
      match decEqList ts us with
      | isTrue hts => isTrue (by rw [ht, hts])
      | isFalse hts => isFalse (by simp [hts])
    | isFalse ht => isFalse (by simp [ht])

end

instance : DecidableEq Formula := decEq

/-! ## Parts -/

/-- The connective at the root. -/
def connective : Formula → Connective
  | .node c _ => c

/-- The terms of the root, from left to right. -/
def terms : Formula → List Formula
  | .node _ ts => ts

@[simp] theorem connective_node (c : Connective) (ts : List Formula) :
    (node c ts).connective = c := rfl

@[simp] theorem terms_node (c : Connective) (ts : List Formula) : (node c ts).terms = ts := rfl

theorem node_connective_terms (φ : Formula) : node φ.connective φ.terms = φ := by
  cases φ; rfl

/-- A formula without terms. -/
def IsAtomic (φ : Formula) : Prop := φ.terms = []

instance (φ : Formula) : Decidable φ.IsAtomic := inferInstanceAs (Decidable (_ = _))

/-- The index of the first term equal to `ψ`. -/
def position? (φ ψ : Formula) : Option Nat := φ.terms.findIdx? (· = ψ)

/-- The formula of a structural kind on `terms`. -/
def structural (kind : Structure) (terms : List Formula) : Formula :=
  .node (.structural kind) terms

/-- Every node has a number of terms that its connective takes. -/
inductive WellFormed : Formula → Prop where
  | node {c : Connective} {ts : List Formula} (arity : c.arity.Admits ts.length)
      (terms : ∀ t ∈ ts, WellFormed t) : WellFormed (.node c ts)

theorem wellFormed_node {c : Connective} {ts : List Formula} :
    (node c ts).WellFormed ↔ c.arity.Admits ts.length ∧ ∀ t ∈ ts, t.WellFormed := by
  constructor
  · rintro ⟨harity, hts⟩
    exact ⟨harity, hts⟩
  · rintro ⟨harity, hts⟩
    exact .node harity hts

/-! ## Measures -/

mutual

/-- The number of nodes on a longest path from the root to a leaf. -/
def depth : Formula → Nat
  | .node _ ts => depthList ts + 1

/-- The greatest depth of a list of formulas, zero if it is empty. -/
def depthList : List Formula → Nat
  | [] => 0
  | t :: ts => max t.depth (depthList ts)

end

mutual

/-- The number of nodes. -/
def size : Formula → Nat
  | .node _ ts => sizeList ts + 1

/-- The number of nodes of all formulas of a list. -/
def sizeList : List Formula → Nat
  | [] => 0
  | t :: ts => t.size + sizeList ts

end

theorem sizeList_append (ts us : List Formula) :
    sizeList (ts ++ us) = sizeList ts + sizeList us := by
  induction ts with
  | nil => simp [sizeList]
  | cons t ts ih => simp [sizeList, ih, Nat.add_assoc]

/-! ## Subformulas -/

mutual

/-- The formula, then the subformulas of its terms from left to right. -/
def preorder : Formula → List Formula
  | .node c ts => .node c ts :: preorderList ts

/-- The subformulas of the formulas of a list, in the order of the list. -/
def preorderList : List Formula → List Formula
  | [] => []
  | t :: ts => t.preorder ++ preorderList ts

end

theorem preorderList_append (ts us : List Formula) :
    preorderList (ts ++ us) = preorderList ts ++ preorderList us := by
  induction ts with
  | nil => simp [preorderList]
  | cons t ts ih => simp [preorderList, ih]

theorem preorderList_eq_flatMap (ts : List Formula) : preorderList ts = ts.flatMap preorder := by
  induction ts with
  | nil => simp [preorderList]
  | cons t ts ih => simp [preorderList, ih]

/-- Visits the formulas of a stack: the top one is listed and its terms take its place. -/
def visit : List Formula → List Formula
  | [] => []
  | .node c ts :: rest => .node c ts :: visit (ts ++ rest)
termination_by stack => sizeList stack
decreasing_by simp [sizeList, size, sizeList_append]

/-- The subformulas of a formula, itself first. -/
def subformulas (φ : Formula) : List Formula := visit [φ]

theorem visit_eq_preorderList (stack : List Formula) : visit stack = preorderList stack := by
  fun_induction visit stack with
  | case1 => rfl
  | case2 c ts rest ih => simp [ih, preorderList, preorder, preorderList_append]

theorem subformulas_eq_preorder (φ : Formula) : φ.subformulas = φ.preorder := by
  simp [subformulas, visit_eq_preorderList, preorderList]

mutual

/-- The formula is `ψ` or one of its terms contains `ψ`. -/
def contains : Formula → Formula → Bool
  | .node c ts, ψ => decide (.node c ts = ψ) || containsList ts ψ

/-- A formula of the list contains `ψ`. -/
def containsList : List Formula → Formula → Bool
  | [], _ => false
  | t :: ts, ψ => t.contains ψ || containsList ts ψ

end

/-- A formula contains exactly the formulas listed among its subformulas. -/
theorem contains_iff_mem_preorder {φ ψ : Formula} :
    φ.contains ψ = true ↔ ψ ∈ φ.preorder := by
  induction φ with
  | node c ts ih =>
    have hts : ∀ us : List Formula, (∀ u ∈ us, u ∈ ts) →
        (containsList us ψ = true ↔ ψ ∈ preorderList us) := by
      intro us hus
      induction us with
      | nil => simp [containsList, preorderList]
      | cons u us ihus =>
        have hu := ih u (hus u (by simp))
        have hrest := ihus fun v hv => hus v (by simp [hv])
        simp [containsList, preorderList, hu, hrest]
    simp only [contains, preorder, Bool.or_eq_true, decide_eq_true_eq, List.mem_cons,
      hts ts fun _ h => h]
    exact or_congr_left eq_comm

end Formula

end Deduction
