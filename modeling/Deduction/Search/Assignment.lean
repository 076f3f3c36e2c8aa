import Deduction.Search.Run

/-!
# Assigning statements to variables

A search has to find statements for the variables that a match leaves free.  It tries all ways to
give the variables different *positions* of a list of statements, so a statement that stands there
twice can be given twice.  The positions given to the first variable vary slowest, each from the
front of the list to its end.

This order is an assumption about the listing of permutations that a search draws on, which is not
part of the library: the permutations of `k` positions out of `n` are assumed to come in the
lexicographic order of the positions.  `assignments` is the definition of it, and
`arrangements_sorted` in `Deduction.Proofs.Assignments` says that it is that order.  Everything that
is said of the first candidate that works rests on it.
-/

namespace Deduction

/-- Each element of a list, in order, with the list of the others. -/
def picks {α : Type} : List α → List (α × List α)
  | [] => []
  | x :: xs => (x, xs) :: (picks xs).map fun (y, rest) => (y, x :: rest)

/-- All ways to bind the variables to different elements of the pool, on top of the bindings. -/
def assignments : (vars pool : List Formula) → Map → List Map
  | [], _, bindings => [bindings]
  | v :: vs, pool, bindings =>
    (picks pool).flatMap fun (φ, rest) => assignments vs rest (bindings.withPair v φ)

/-- The first value that `f` finds for an assignment.  Assignments are made as they are needed. -/
def firstAssignment {β : Type} (f : Map → Run (Option β)) :
    (vars pool : List Formula) → Map → Run (Option β)
  | [], _, bindings => f bindings
  | v :: vs, pool, bindings =>
    Run.firstSome (fun (φ, rest) => firstAssignment f vs rest (bindings.withPair v φ)) (picks pool)

theorem Run.firstSome_append {α β : Type} (f : α → Run (Option β)) (xs ys : List α) :
    firstSome f (xs ++ ys) = firstSome f xs >>= fun b? =>
      match b? with
      | some b => pure (some b)
      | none => firstSome f ys := by
  induction xs with
  | nil => simp [firstSome]
  | cons x xs ih =>
    simp only [List.cons_append, firstSome, ih, bind_assoc]
    congr
    funext b
    cases b <;> simp

theorem Run.firstSome_flatMap {α β γ : Type} (f : β → Run (Option γ)) (g : α → List β)
    (xs : List α) : firstSome f (xs.flatMap g) = firstSome (fun x => firstSome f (g x)) xs := by
  induction xs with
  | nil => rfl
  | cons x xs ih =>
    rw [List.flatMap_cons, firstSome_append, ih]
    exact rfl

/-- Trying assignments as they are made is trying the list of them. -/
theorem firstAssignment_eq_firstSome {β : Type} (f : Map → Run (Option β)) (vs pool : List Formula)
    (bindings : Map) :
    firstAssignment f vs pool bindings = Run.firstSome f (assignments vs pool bindings) := by
  induction vs generalizing pool bindings with
  | nil =>
    simp only [firstAssignment, assignments, Run.firstSome]
    conv => lhs; rw [← bind_pure (f bindings)]
    congr
    funext b
    cases b <;> rfl
  | cons v vs ih => simp [firstAssignment, assignments, Run.firstSome_flatMap, ih]

end Deduction
