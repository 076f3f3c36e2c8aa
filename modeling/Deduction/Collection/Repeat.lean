/-!
# Repeated elements

Three readings of a list whose elements may repeat, each with the list `seen` of what came before:
the first element that repeats an earlier one, the elements that repeat one, and the list with
every repeated element left out.  What counts as repeated may also be decided by a key.
-/

namespace Deduction

variable {α : Type} [DecidableEq α]

/-- An element that occurs at index `first` and again at index `second`. -/
structure Repeat (α : Type) where
  /-- The repeated element. -/
  element : α
  /-- The index of its first occurrence. -/
  first : Nat
  /-- The index of the occurrence that repeats it. -/
  second : Nat
deriving DecidableEq

/-- The first element of `xs` that occurs in `seen` or earlier in `xs`, with the indices of both
occurrences in `seen ++ xs`. -/
def firstRepeat? (seen : List α) : (xs : List α) → Option (Repeat α)
  | [] => none
  | x :: xs =>
    match seen.findIdx? (· = x) with
    | some first => some ⟨x, first, seen.length⟩
    | none => firstRepeat? (seen ++ [x]) xs

/-- Nothing repeats exactly when the list has no duplicates and nothing of it was seen. -/
theorem firstRepeat?_eq_none_iff {seen xs : List α} :
    firstRepeat? seen xs = none ↔ xs.Nodup ∧ ∀ x ∈ xs, x ∉ seen := by
  induction xs generalizing seen with
  | nil => simp [firstRepeat?]
  | cons x xs ih =>
    rw [firstRepeat?]
    split
    next i hi =>
      have hx : x ∈ seen := by
        obtain ⟨hlt, hget, -⟩ := List.findIdx?_eq_some_iff_getElem.mp hi
        exact of_decide_eq_true hget ▸ List.getElem_mem hlt
      simp [hx]
    next hi =>
      have hx : x ∉ seen := by
        intro h
        simpa using List.findIdx?_eq_none_iff.mp hi x h
      rw [ih]
      simp only [List.nodup_cons, List.mem_append, List.mem_cons]
      grind

theorem nodup_of_firstRepeat?_eq_none {xs : List α} (h : firstRepeat? [] xs = none) : xs.Nodup :=
  (firstRepeat?_eq_none_iff.mp h).1

/-- The elements of `xs` that occur in `seen` or earlier in `xs`, each with its index in `xs`
counted from `index`. -/
def repeats (seen : List α) (index : Nat) : (xs : List α) → List (α × Nat)
  | [] => []
  | x :: xs =>
    if x ∈ seen then (x, index) :: repeats seen (index + 1) xs
    else repeats (seen ++ [x]) (index + 1) xs

/-- `seen`, followed by the elements of `xs` that occur neither there nor earlier in `xs`. -/
def appendNew (seen : List α) : (xs : List α) → List α
  | [] => seen
  | x :: xs => if x ∈ seen then appendNew seen xs else appendNew (seen ++ [x]) xs

theorem prefix_appendNew (seen xs : List α) : seen <+: appendNew seen xs := by
  induction xs generalizing seen with
  | nil => simp [appendNew]
  | cons x xs ih =>
    rw [appendNew]
    split
    · exact ih seen
    · exact (List.prefix_append seen [x]).trans (ih _)

theorem nodup_appendNew {seen : List α} (h : seen.Nodup) (xs : List α) :
    (appendNew seen xs).Nodup := by
  induction xs generalizing seen with
  | nil => simpa [appendNew] using h
  | cons x xs ih =>
    rw [appendNew]
    split
    next => exact ih h
    next hx => exact ih (by simp [List.nodup_append, h]; grind)

@[simp] theorem mem_appendNew {seen xs : List α} {y : α} :
    y ∈ appendNew seen xs ↔ y ∈ seen ∨ y ∈ xs := by
  induction xs generalizing seen with
  | nil => simp [appendNew]
  | cons x xs ih => grind [appendNew]

/-- A list without duplicates of which nothing was seen is appended whole. -/
theorem appendNew_eq_append {seen xs : List α} (hxs : xs.Nodup) (h : ∀ x ∈ xs, x ∉ seen) :
    appendNew seen xs = seen ++ xs := by
  induction xs generalizing seen with
  | nil => simp [appendNew]
  | cons x xs ih =>
    have hx : x ∉ seen := h x (by simp)
    simp only [appendNew, hx, if_false]
    rw [ih (List.nodup_cons.mp hxs).2]
    · simp
    · grind

section Keys

variable {β γ : Type} [DecidableEq γ]

/-- `seen`, followed by the elements of a list whose key is neither that of an element of `seen` nor
that of an earlier element. -/
def firstOccurrences (key : β → γ) (seen : List β) : List β → List β
  | [] => seen
  | x :: xs =>
    if seen.any (key · = key x) then firstOccurrences key seen xs
    else firstOccurrences key (seen ++ [x]) xs

end Keys

end Deduction
