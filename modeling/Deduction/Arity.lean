/-!
# Arities

An arity says how many terms a connective takes: at least `min` and, if there is a `max`, at most
that many.  Nothing ties the two bounds together: an arity whose upper bound lies below its lower
bound admits no number of terms at all.
-/

namespace Deduction

/-- The numbers of terms that a connective takes. -/
structure Arity where
  /-- The least number of terms. -/
  min : Nat
  /-- The greatest number of terms, if there is one. -/
  max : Option Nat
deriving DecidableEq

namespace Arity

/-- Exactly `n` terms. -/
def fixed (n : Nat) : Arity := ⟨n, some n⟩

/-- `n` terms or more. -/
def atLeast (n : Nat) : Arity := ⟨n, none⟩

/-- From `lo` to `hi` terms, both included. -/
def between (lo hi : Nat) : Arity := ⟨lo, some hi⟩

/-- Any number of terms. -/
def free : Arity := atLeast 0

/-- The arity `a` allows `n` terms. -/
def Admits (a : Arity) (n : Nat) : Prop := a.min ≤ n ∧ ∀ m ∈ a.max, n ≤ m

instance (a : Arity) (n : Nat) : Decidable (a.Admits n) :=
  inferInstanceAs (Decidable (_ ∧ _))

@[simp] theorem fixed_admits {k n : Nat} : (fixed k).Admits n ↔ n = k := by
  simp [Admits, fixed]
  omega

@[simp] theorem free_admits (n : Nat) : free.Admits n := by
  simp [Admits, free, atLeast]

/-- The arity in words, as it stands before the word "terms". -/
def text (a : Arity) : String :=
  match a.max with
  | none => if a.min = 0 then "any number of" else s!"at least {a.min}"
  | some m => if a.min = m then s!"exactly {a.min}" else s!"between {a.min} and {m}"

end Arity

end Deduction
