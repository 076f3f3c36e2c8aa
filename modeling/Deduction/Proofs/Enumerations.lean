import Mathlib.Data.List.Perm.Basic
import Deduction.Proofs.Collections
import Deduction.Proofs.Propositional

/-!
# Enumerations

An enumeration is made of a list in one pass.  The pass compares an element with those that it has
kept, but what it reports are positions in the given list.  The two agree only because the kept
elements are the first occurrences in the part of the list that is already done, so every statement
of `Enumeration.modes_firstOccurrences` looks back in the given list alone.

The union of enumerations keeps first occurrences too.  On the nose it is associative and
idempotent, but not commutative: it is so up to the order of the elements, which is all that
`Enumeration.equivalent` leaves out (`Enumeration.union_algebra`).
-/

namespace Deduction

namespace Enumeration

/-! ## Two ways to treat duplicates -/

/-- Some enumeration of the list is accepted exactly when the list has no duplicates. -/
theorem exists_ofList_iff {xs : List Formula} : (∃ e, ofList xs = .ok e) ↔ xs.Nodup := by
  constructor
  · rintro ⟨e, he⟩
    exact ofList_eq_ok.mp he ▸ e.nodup
  · intro h
    exact ⟨⟨xs, h⟩, ofList_eq_ok.mpr rfl⟩

theorem stripWarnings_eq_selected (xs : List Formula) :
    stripWarnings xs =
      (selected (fun before x => decide (x ∈ before)) xs).map fun p => .dropped p.1 p.2 := by
  rw [stripWarnings, repeats_nil_eq_selected]

theorem strip_elements (e : Enumeration) : strip e.elements = e :=
  Enumeration.ext (appendNew_eq_append e.nodup (by simp))

/-- Nothing is left out of a list without duplicates. -/
theorem stripWarnings_elements (e : Enumeration) : stripWarnings e.elements = [] := by
  have hnone : selected (fun before x => decide (x ∈ before)) e.elements = [] := by
    rw [selected, List.filter_eq_nil_iff]
    intro p hp hmem
    have hget : e.elements[p.2]? = some p.1 := List.mem_zipIdx_iff_getElem?.mp hp
    exact nodup_iff_not_repeatsAt.mp e.nodup p.2 ⟨p.1, hget, of_decide_eq_true hmem⟩
  rw [stripWarnings_eq_selected, hnone, List.map_nil]

/-- A list is enumerated as it is, if no element repeats.  Otherwise it is refused: the second index
that is reported is the least at which an element occurs again, and the first is the least index of
that element.  Stripped of duplicates, any list can be enumerated.  That keeps the elements that do
not occur before and warns of each of the others, in the order of the list; it makes no difference
to a list that can be enumerated as it is, and what it comes to can be enumerated as it is. -/
theorem modes_firstOccurrences (xs : List Formula) :
    ((∃ e, ofList xs = .ok e) ↔ xs.Pairwise (· ≠ ·)) ∧
    (∀ e, ofList xs = .ok e → e.elements = xs ∧ strip xs = e ∧ stripWarnings xs = []) ∧
    (∀ e, ofList xs = .error e ↔
      ∃ element first second, e = .duplicate element first second ∧ e.code = "SYN-002" ∧
        xs[second]? = some element ∧
        IsLeast {i | ∃ x, xs[i]? = some x ∧ x ∈ xs.take i} second ∧
        IsLeast {i | xs[i]? = some element} first) ∧
    (strip xs).elements =
      (xs.zipIdx.filter fun p => decide (p.1 ∉ xs.take p.2)).map (fun p => p.1) ∧
    stripWarnings xs =
      (xs.zipIdx.filter fun p => decide (p.1 ∈ xs.take p.2)).map (fun p => .dropped p.1 p.2) ∧
    ofList (strip xs).elements = .ok (strip xs) := by
  refine ⟨exists_ofList_iff, fun e he => ?_, fun e => ?_, appendNew_nil_eq_selected xs,
    stripWarnings_eq_selected xs, ofList_elements _⟩
  · obtain rfl := ofList_eq_ok.mp he
    exact ⟨rfl, strip_elements e, stripWarnings_elements e⟩
  · rw [ofList_eq_error]
    constructor
    · rintro ⟨r, hr, rfl⟩
      exact ⟨r.element, r.first, r.second, rfl, rfl, firstRepeat?_eq_some_iff_isLeast.mp hr⟩
    · rintro ⟨element, first, second, rfl, -, hleast⟩
      exact ⟨⟨element, first, second⟩, firstRepeat?_eq_some_iff_isLeast.mpr hleast, rfl⟩

open Propositional in
/-- Two elements repeat, and the one that repeats first does not occur first.  What is left after
stripping is enumerated as it is. -/
theorem modes_firstOccurrences_crossed :
    ofList [q, p, r, p, q, p] = .error (.duplicate p 1 3) ∧
    (strip [q, p, r, p, q, p]).elements = [q, p, r] ∧
    stripWarnings [q, p, r, p, q, p] = [.dropped p 3, .dropped q 4, .dropped p 5] ∧
    ∃ e, ofList [q, p, r] = .ok e ∧ e.elements = [q, p, r] ∧ strip [q, p, r] = e := by
  obtain ⟨-, -, -, helements, hwarnings, -⟩ := modes_firstOccurrences [q, p, r, p, q, p]
  obtain ⟨hexists, hok, -⟩ := modes_firstOccurrences [q, p, r]
  obtain ⟨e, he⟩ := hexists.mpr (by decide)
  obtain ⟨hlist, hstrip, -⟩ := hok e he
  exact ⟨by decide, helements.trans (by decide), hwarnings.trans (by decide), e, he, hlist, hstrip⟩

/-! ## Unions -/

/-- Without duplicates, having the same elements is being a permutation. -/
theorem equivalent_iff_perm {a b : Enumeration} :
    a.equivalent b = true ↔ a.elements.Perm b.elements := by
  rw [equivalent_iff, List.perm_ext_iff_of_nodup a.nodup b.nodup]

theorem union_elements (a b : Enumeration) :
    (a.union b).elements = a.elements ++ b.elements.filter (· ∉ a.elements) :=
  appendNew_of_nodup a.elements b.nodup

@[simp] theorem mem_union {a b : Enumeration} {φ : Formula} :
    φ ∈ (a.union b).elements ↔ φ ∈ a.elements ∨ φ ∈ b.elements :=
  mem_appendNew

/-- The union is what stripping leaves of the two lists one after the other. -/
theorem union_eq_strip (a b : Enumeration) : a.union b = strip (a.elements ++ b.elements) := by
  have ha : appendNew [] a.elements = a.elements := appendNew_eq_append a.nodup (by simp)
  apply Enumeration.ext
  calc
    appendNew a.elements b.elements = appendNew (appendNew [] a.elements) b.elements := by rw [ha]
    _ = appendNew [] (a.elements ++ b.elements) := (appendNew_append [] _ _).symm

theorem union_self (a : Enumeration) : a.union a = a :=
  Enumeration.ext (appendNew_of_subset fun _ h => h)

theorem empty_union (a : Enumeration) : empty.union a = a :=
  Enumeration.ext (appendNew_eq_append a.nodup (by simp [empty]))

theorem union_empty (a : Enumeration) : a.union empty = a := rfl

theorem union_assoc (a b c : Enumeration) : (a.union b).union c = a.union (b.union c) :=
  Enumeration.ext (appendNew_assoc a.elements b.elements c.elements)

theorem union_comm (a b : Enumeration) : (a.union b).equivalent (b.union a) = true := by
  rw [equivalent_iff]
  intro φ
  rw [mem_union, mem_union, or_comm]

theorem union_congr {a a' b b' : Enumeration} (ha : a.equivalent a' = true)
    (hb : b.equivalent b' = true) : (a.union b).equivalent (a'.union b') = true := by
  rw [equivalent_iff] at ha hb ⊢
  intro φ
  rw [mem_union, mem_union, ha, hb]

/-- Enumerations are equivalent exactly when one is a permutation of the other.  The union of two
has the elements of the first and then those of the second that the first does not have, which are
the first occurrences in both lists one after the other.  It is idempotent and associative with the
empty enumeration as identity, the order included; in another order of the two it is equivalent; and
equivalent enumerations have equivalent unions. -/
theorem union_algebra (a b c : Enumeration) :
    (a.equivalent b = true ↔ a.elements.Perm b.elements) ∧
    a.elements <+: (a.union b).elements ∧
    (a.union b).elements = a.elements ++ b.elements.filter (· ∉ a.elements) ∧
    a.union b = strip (a.elements ++ b.elements) ∧
    a.union a = a ∧ empty.union a = a ∧ a.union empty = a ∧
    (a.union b).union c = a.union (b.union c) ∧
    (a.union b).equivalent (b.union a) = true ∧
    ∀ a' b', a.equivalent a' = true → b.equivalent b' = true →
      (a.union b).equivalent (a'.union b') = true :=
  ⟨equivalent_iff_perm, prefix_appendNew a.elements b.elements, union_elements a b,
    union_eq_strip a b, union_self a, empty_union a, union_empty a, union_assoc a b c,
    union_comm a b, fun _ _ => union_congr⟩

open Propositional in
/-- Three lists that overlap in pairs: the union depends on the order, but only in the order of its
elements. -/
theorem union_algebra_overlapping :
    let a : Enumeration := ⟨[p, q], by decide⟩
    let b : Enumeration := ⟨[r, q, s], by decide⟩
    let a' : Enumeration := ⟨[q, p], by decide⟩
    let b' : Enumeration := ⟨[s, r, q], by decide⟩
    a.equivalent a' = true ∧ b.equivalent b' = true ∧ a.union b ≠ a'.union b' ∧
      (a.union b).equivalent (a'.union b') = true := by
  intro a b a' b'
  have ha : a.equivalent a' = true := by decide
  have hb : b.equivalent b' = true := by decide
  obtain ⟨-, -, -, -, -, -, -, -, -, hcongr⟩ := union_algebra a b empty
  exact ⟨ha, hb, by decide, hcongr a' b' ha hb⟩

end Enumeration

end Deduction
