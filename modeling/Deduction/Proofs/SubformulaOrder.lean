import Deduction.Proofs.Propositional
import Deduction.Proofs.Substitution

/-!
# The order of subformulas

The subformulas of a formula are listed by a loop over a stack of formulas still to visit.  A step
takes the top off the stack and puts its terms there, and since the first term is to come next, they
are put there from the last to the first.  `Formula.Traversal` is the state between two steps, with
the top of the stack at the end of the list.  Read from the top, the stack is a list of formulas
whose listings come one after the other, and so the loop ends with the recursive listing
(`Traversal.yields_start_iff`).

To be contained is to be listed.  That it is an order does not show in its definition, which looks
at one term after the other: two formulas that contain each other are the same because whatever lies
properly inside a formula is less deep (`Formula.depth_lt_of_mem_preorder`).
-/

namespace Deduction

namespace Formula

/-! ## Listing with a stack -/

/-- A listing under way.  The stack has the formulas still to visit; the next one stands last. -/
structure Traversal where
  stack : List Formula

namespace Traversal

/-- The listing of the subformulas of `φ` before its first step. -/
def start (φ : Formula) : Traversal := ⟨[φ]⟩

/-- The next formula and the listing after it.  The formula is taken off the stack, and its terms
are put there from the last to the first. -/
def next? (t : Traversal) : Option (Formula × Traversal) :=
  t.stack.getLast?.map fun φ => (φ, ⟨t.stack.dropLast ++ φ.terms.reverse⟩)

/-- The listing comes to an end, and what it lists until then are the formulas of the list. -/
inductive Yields : Traversal → List Formula → Prop where
  | done {t : Traversal} (stop : t.next? = none) : Yields t []
  | step {t t' : Traversal} {φ : Formula} {φs : List Formula} (next : t.next? = some (φ, t'))
      (rest : Yields t' φs) : Yields t (φ :: φs)

/-- Seen from the top of the stack, the terms take the place of the formula. -/
theorem next?_reverse (φ : Formula) (rest : List Formula) :
    next? ⟨(φ :: rest).reverse⟩ = some (φ, ⟨(φ.terms ++ rest).reverse⟩) := by
  simp [next?]

/-- The listing goes on in one way only. -/
theorem Yields.unique {t : Traversal} {φs ψs : List Formula} (h : t.Yields φs)
    (h' : t.Yields ψs) : φs = ψs := by
  induction h generalizing ψs with
  | done stop =>
    cases h' with
    | done => rfl
    | step next => simp [stop] at next
  | step next _ ih =>
    cases h' with
    | done stop => simp [stop] at next
    | step next' rest' =>
      obtain ⟨rfl, rfl⟩ := Prod.mk.inj (Option.some.inj (next.symm.trans next'))
      rw [ih rest']

/-- From any stack, the listing ends with the listings of its formulas, from the top down. -/
theorem yields_visit (stack : List Formula) : Yields ⟨stack.reverse⟩ (visit stack) := by
  fun_induction visit stack with
  | case1 => exact .done rfl
  | case2 c ts rest ih => exact .step (next?_reverse (node c ts) rest) ih

theorem yields_start (φ : Formula) : (start φ).Yields φ.subformulas := yields_visit [φ]

theorem yields_start_iff {φ : Formula} {φs : List Formula} :
    (start φ).Yields φs ↔ φs = φ.preorder := by
  rw [← subformulas_eq_preorder]
  constructor
  · intro h
    exact h.unique (yields_start φ)
  · rintro rfl
    exact yields_start φ

end Traversal

/-! ## What lies inside -/

variable {φ ψ χ : Formula}

/-- What is inside of a part is inside of the whole. -/
theorem preorder_subset_of_mem (h : ψ ∈ φ.preorder) : ψ.preorder ⊆ φ.preorder := by
  induction φ with
  | node c ts ih =>
    rw [preorder_node, List.mem_cons] at h
    rcases h with rfl | h
    · exact fun _ hχ => hχ
    · obtain ⟨t, ht, hψ⟩ := mem_preorderList.mp h
      exact fun χ hχ => mem_preorder_of_term ht (ih t ht hψ hχ)

theorem depth_le_depthList {t : Formula} {ts : List Formula} (h : t ∈ ts) :
    t.depth ≤ depthList ts := by
  induction ts with
  | nil => simp at h
  | cons u us ih =>
    rw [depthList]
    rcases List.mem_cons.mp h with rfl | h
    · exact Nat.le_max_left _ _
    · exact Nat.le_trans (ih h) (Nat.le_max_right _ _)

theorem depth_lt_of_term {t : Formula} {c : Connective} {ts : List Formula} (h : t ∈ ts) :
    t.depth < (node c ts).depth := by
  rw [depth]
  exact Nat.lt_succ_of_le (depth_le_depthList h)

/-- What lies properly inside of a formula is less deep. -/
theorem depth_lt_of_mem_preorder (h : ψ ∈ φ.preorder) (hne : φ ≠ ψ) : ψ.depth < φ.depth := by
  induction φ with
  | node c ts ih =>
    rw [preorder_node, List.mem_cons] at h
    obtain ⟨t, ht, hψ⟩ := mem_preorderList.mp (h.resolve_left (Ne.symm hne))
    by_cases htψ : t = ψ
    · exact htψ ▸ depth_lt_of_term ht
    · exact Nat.lt_trans (ih t ht hψ htψ) (depth_lt_of_term ht)

/-- The subformulas of a formula are listed by a loop that comes to an end with the recursive
listing.  A formula contains exactly what is equal to something in the list.  Containing is
reflexive and transitive, and formulas that contain each other are equal: what a formula contains is
less deep, unless it is the formula itself. -/
theorem contains_ordered (φ ψ χ : Formula) :
    (∀ φs, (Traversal.start φ).Yields φs ↔ φs = φ.preorder) ∧
    φ.subformulas = φ.preorder ∧
    (φ.contains ψ = true ↔ ∃ ξ ∈ φ.subformulas, ξ = ψ) ∧
    φ.contains φ = true ∧
    (φ.contains ψ = true → ψ.contains χ = true → φ.contains χ = true) ∧
    (φ.contains ψ = true → ψ.contains φ = true → φ = ψ) ∧
    (φ.contains ψ = true → ψ.depth ≤ φ.depth ∧ (φ ≠ ψ → ψ.depth < φ.depth)) := by
  simp only [subformulas_eq_preorder, contains_iff_mem_preorder]
  refine ⟨fun φs => Traversal.yields_start_iff, trivial, by simp, mem_preorder_self φ,
    fun hψ hχ => preorder_subset_of_mem hψ hχ, fun hψ hφ => ?_, fun hψ => ⟨?_, ?_⟩⟩
  · by_contra hne
    have hlt := depth_lt_of_mem_preorder hψ hne
    have hgt := depth_lt_of_mem_preorder hφ (Ne.symm hne)
    omega
  · by_cases heq : φ = ψ
    · exact heq ▸ Nat.le_refl _
    · exact Nat.le_of_lt (depth_lt_of_mem_preorder hψ heq)
  · exact depth_lt_of_mem_preorder hψ

open Propositional in
/-- A conjunction occurs twice, at different depths, and is listed each time. -/
theorem contains_ordered_repeated :
    let φ := implies (both p q) (implies r (both p q))
    (Traversal.start φ).Yields
      [φ, both p q, p, q, implies r (both p q), r, both p q, p, q] ∧
    φ.contains (both p q) = true ∧ (both p q).contains q = true ∧ φ.contains q = true ∧
    (both p q).contains φ = false ∧ (both p q).depth < φ.depth := by
  intro φ
  have hφ : φ.contains (both p q) = true := by decide
  have hq : (both p q).contains q = true := by decide
  have hne : φ ≠ both p q := by decide
  obtain ⟨hyields, -, -, -, htrans, hantisymm, hdepth⟩ := contains_ordered φ (both p q) q
  refine ⟨(hyields _).mpr (by decide), hφ, hq, htrans hφ hq, ?_, (hdepth hφ).2 hne⟩
  rw [Bool.eq_false_iff]
  exact fun h => hne (hantisymm hφ h)

end Formula

end Deduction
