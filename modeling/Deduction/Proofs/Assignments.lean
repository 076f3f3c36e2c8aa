import Mathlib.Data.List.FinRange
import Mathlib.Data.List.Lex
import Mathlib.Data.List.Perm.Subperm
import Deduction.Proofs.Collections
import Deduction.Search.Assignment

/-!
# The order in which assignments are tried

A search tries all ways to give free variables different positions of a list of statements.  An
*arrangement* of a list is a list of some of its elements, each taken once.  Assignments are the
arrangements of the pool, each bound to the variables (`assignments_eq_map`).  The arrangements of
an increasing list are exactly the lists of distinct elements of it of the given length
(`mem_arrangements`), and they come in lexicographic order (`arrangements_sorted`).  Applied to the
list of all positions, this says which candidates a search looks at and in which order.
-/

namespace Deduction

variable {α β : Type}

/-! ## Arrangements -/

theorem picks_fst (xs : List α) : (picks xs).map Prod.fst = xs := by
  induction xs with
  | nil => rfl
  | cons x xs ih =>
    have hfst : (Prod.fst ∘ fun p : α × List α => (p.1, x :: p.2)) = Prod.fst := rfl
    simp [picks, hfst, ih]

theorem mem_picks {x : α} {rest xs : List α} :
    (x, rest) ∈ picks xs ↔ ∃ front back, xs = front ++ x :: back ∧ rest = front ++ back := by
  induction xs generalizing rest with
  | nil => simp [picks]
  | cons y xs ih =>
    rw [picks, List.mem_cons, List.mem_map]
    constructor
    · rintro (h | ⟨⟨z, rest'⟩, hz, h⟩)
      · obtain ⟨rfl, rfl⟩ := Prod.mk.inj h
        exact ⟨[], rest, rfl, rfl⟩
      · obtain ⟨rfl, rfl⟩ := Prod.mk.inj h
        obtain ⟨front, back, rfl, rfl⟩ := ih.mp hz
        exact ⟨y :: front, back, rfl, rfl⟩
    · rintro ⟨front, back, hxs, rfl⟩
      cases front with
      | nil =>
        obtain ⟨rfl, rfl⟩ : y = x ∧ xs = back := by simpa using hxs
        exact .inl rfl
      | cons z front =>
        obtain ⟨rfl, rfl⟩ : y = z ∧ xs = front ++ x :: back := by simpa using hxs
        exact .inr ⟨(x, front ++ back), ih.mpr ⟨front, back, rfl, rfl⟩, rfl⟩

theorem picks_map (f : α → β) (xs : List α) :
    picks (xs.map f) = (picks xs).map (Prod.map f (List.map f)) := by
  induction xs with
  | nil => rfl
  | cons x xs ih => simp [picks, ih]

/-- The lists of `n` elements of a list, each taken once.  The first element varies slowest. -/
def arrangements : Nat → List α → List (List α)
  | 0, _ => [[]]
  | n + 1, xs => (picks xs).flatMap fun (x, rest) => (arrangements n rest).map (x :: ·)

theorem arrangements_map (f : α → β) (n : Nat) (xs : List α) :
    arrangements n (xs.map f) = (arrangements n xs).map (List.map f) := by
  induction n generalizing xs with
  | zero => rfl
  | succ n ih => simp [arrangements, picks_map, List.flatMap_map, List.map_flatMap, ih,
      Function.comp_def]

/-- The arrangements of a list without duplicates are the lists without duplicates of its elements,
of the given length. -/
theorem mem_arrangements {n : Nat} {xs ys : List α} (hxs : xs.Nodup) :
    ys ∈ arrangements n xs ↔ ys.length = n ∧ ys.Nodup ∧ ys ⊆ xs := by
  induction n generalizing xs ys with
  | zero =>
    rw [arrangements, List.mem_singleton, List.length_eq_zero_iff]
    constructor
    · rintro rfl
      simp
    · exact fun h => h.1
  | succ n ih =>
    simp only [arrangements, List.mem_flatMap, List.mem_map, Prod.exists, mem_picks]
    constructor
    · rintro ⟨x, rest, ⟨front, back, rfl, rfl⟩, zs, hzs, rfl⟩
      obtain ⟨hx, hrest⟩ := List.nodup_middle.mp hxs |> List.nodup_cons.mp
      obtain ⟨hlength, hnodup, hsub⟩ := (ih hrest).mp hzs
      refine ⟨by simp [hlength], List.nodup_cons.mpr ⟨fun h => hx (hsub h), hnodup⟩, ?_⟩
      intro z hz
      rcases List.mem_cons.mp hz with rfl | hz
      · simp
      · have := hsub hz
        grind
    · rintro ⟨hlength, hnodup, hsub⟩
      cases ys with
      | nil => simp at hlength
      | cons x zs =>
        obtain ⟨front, back, rfl⟩ := List.append_of_mem (hsub (List.mem_cons_self))
        obtain ⟨hx, hrest⟩ := List.nodup_middle.mp hxs |> List.nodup_cons.mp
        obtain ⟨hxzs, hzs⟩ := List.nodup_cons.mp hnodup
        refine ⟨x, front ++ back, ⟨front, back, rfl, rfl⟩, zs, (ih hrest).mpr ?_, rfl⟩
        refine ⟨by simpa using hlength, hzs, fun z hz => ?_⟩
        have hmem : z ∈ front ++ x :: back := hsub (List.mem_cons_of_mem x hz)
        have hne : z ≠ x := fun h => hxzs (h ▸ hz)
        simpa [hne] using hmem

/-- The arrangements of an increasing list come in lexicographic order. -/
theorem arrangements_sorted [LT α] (n : Nat) {xs : List α} (hxs : xs.Pairwise (· < ·)) :
    (arrangements n xs).Pairwise (· < ·) := by
  induction n generalizing xs with
  | zero => simp [arrangements]
  | succ n ih =>
    rw [arrangements, List.pairwise_flatMap]
    constructor
    · rintro ⟨x, rest⟩ hpick
      obtain ⟨front, back, rfl, rfl⟩ := mem_picks.mp hpick
      have hrest : (front ++ back).Pairwise (· < ·) :=
        hxs.sublist (List.Sublist.append_left (List.sublist_cons_self x back) front)
      rw [List.pairwise_map]
      exact (ih hrest).imp fun h => List.cons_lt_cons_iff.mpr (.inr ⟨rfl, h⟩)
    · have hfst : (picks xs).Pairwise fun p q => p.1 < q.1 := by
        rw [← List.pairwise_map, picks_fst]
        exact hxs
      refine hfst.imp fun {p q} hlt ys hys zs hzs => ?_
      obtain ⟨ys', -, rfl⟩ := List.mem_map.mp hys
      obtain ⟨zs', -, rfl⟩ := List.mem_map.mp hzs
      exact List.cons_lt_cons_iff.mpr (.inl hlt)

/-! ## Assignments -/

/-- The variables bound, one after the other, to the formulas at the same index. -/
def bindAll (vs φs : List Formula) (bindings : Map) : Map :=
  (vs.zip φs).foldl (fun m (v, φ) => m.withPair v φ) bindings

/-- Assigning elements of the pool to the variables is binding the arrangements of the pool. -/
theorem assignments_eq_map (vs pool : List Formula) (bindings : Map) :
    assignments vs pool bindings =
      (arrangements vs.length pool).map fun φs => bindAll vs φs bindings := by
  induction vs generalizing pool bindings with
  | nil => simp [assignments, arrangements, bindAll]
  | cons v vs ih =>
    simp [assignments, arrangements, ih, List.map_flatMap, bindAll, Function.comp_def]

/-- The assignments as arrangements of the positions in the pool. -/
theorem assignments_eq_map_finRange (vs pool : List Formula) (bindings : Map) :
    assignments vs pool bindings = (arrangements vs.length (List.finRange pool.length)).map
      fun positions => bindAll vs (positions.map pool.get) bindings := by
  have hpool := arrangements_map pool.get vs.length (List.finRange pool.length)
  rw [List.map_get_finRange] at hpool
  rw [assignments_eq_map, hpool, List.map_map]
  rfl

theorem mem_keys_assignments {vs pool : List Formula} {bindings m : Map}
    (h : m ∈ assignments vs pool bindings) {key : Formula} :
    key ∈ m.keys ↔ key ∈ bindings.keys ∨ key ∈ vs := by
  induction vs generalizing pool bindings with
  | nil =>
    obtain rfl : m = bindings := by simpa [assignments] using h
    simp
  | cons v vs ih =>
    obtain ⟨⟨φ, rest⟩, -, hm⟩ := List.mem_flatMap.mp h
    rw [ih hm, Map.mem_keys_withPair, List.mem_cons, or_assoc]

/-- New variables are bound behind the bindings, to formulas of the pool each of which is taken
once. -/
theorem pairs_of_mem_assignments {vs pool : List Formula} {bindings m : Map} (hvs : vs.Nodup)
    (hnew : ∀ v ∈ vs, v ∉ bindings.keys) (h : m ∈ assignments vs pool bindings) :
    ∃ φs, φs.length = vs.length ∧ φs.Subperm pool ∧ m.pairs = bindings.pairs ++ vs.zip φs := by
  induction vs generalizing pool bindings with
  | nil =>
    obtain rfl : m = bindings := by simpa [assignments] using h
    exact ⟨[], rfl, List.nil_subperm, by simp⟩
  | cons v vs ih =>
    obtain ⟨⟨φ, rest⟩, hpick, hm⟩ := List.mem_flatMap.mp h
    obtain ⟨front, back, rfl, rfl⟩ := mem_picks.mp hpick
    obtain ⟨hv, hvs⟩ := List.nodup_cons.mp hvs
    have hkeys := Map.withPair_keys (hnew v (by simp)) φ
    have hnew' : ∀ u ∈ vs, u ∉ (bindings.withPair v φ).keys := by
      intro u hu
      have hne : u ≠ v := fun heq => hv (heq ▸ hu)
      simp [hkeys, hne, hnew u (by simp [hu])]
    obtain ⟨φs, hlength, hsubperm, hpairs⟩ := ih hvs hnew' hm
    refine ⟨φ :: φs, by simp [hlength], ?_, ?_⟩
    · exact ((List.subperm_cons φ).mpr hsubperm).trans List.perm_middle.symm.subperm
    · rw [hpairs, Map.withPair_pairs (hnew v (by simp))]
      simp

theorem mem_pairs_assignments {vs pool : List Formula} {bindings m : Map}
    (h : m ∈ assignments vs pool bindings) {pair : Formula × Formula} (hpair : pair ∈ m.pairs) :
    pair ∈ bindings.pairs ∨ pair.2 ∈ pool := by
  induction vs generalizing pool bindings with
  | nil =>
    obtain rfl : m = bindings := by simpa [assignments] using h
    exact .inl hpair
  | cons v vs ih =>
    obtain ⟨⟨φ, rest⟩, hpick, hm⟩ := List.mem_flatMap.mp h
    obtain ⟨front, back, rfl, rfl⟩ := mem_picks.mp hpick
    rcases ih hm with hbound | hrest
    · rcases Map.mem_withPair.mp hbound with ⟨hpair, -⟩ | rfl
      · exact .inl hpair
      · exact .inr (by simp)
    · have := List.mem_append.mp hrest
      exact .inr (by grind)

end Deduction
