import Deduction.Formula.Error

/-!
# What can go wrong with theories

The errors of transformations, theorems, theories and searches.  An error about formulas keeps its
own code and wording.
-/

namespace Deduction

/-- Why an operation on theories is refused.  Theorems, rules and transformations are carried as
the formulas that stand for them. -/
inductive Error where
  /-- The arguments do not match the premises of the transformation. -/
  | mismatch (arguments transformation : Formula)
  /-- The theorem's inference derives something else. -/
  | notDerived (statement derived : Formula)
  /-- A premise of the theorem is stated nowhere in the theory. -/
  | premiseAbsent (premise proved : Formula)
  /-- A premise of the theorem at `index` is first stated at `position`, which is not earlier. -/
  | premisePosterior (premise proved : Formula) (index position : Nat)
  /-- The rule of the theorem is nowhere in the theory. -/
  | ruleAbsent (rule proved : Formula)
  /-- The rule of the theorem at `index` first stands at `position`, which is not earlier. -/
  | rulePosterior (rule proved : Formula) (index position : Nat)
  /-- A premise to derive from is not a valid statement of the theory. -/
  | premiseNotValid (premise : Formula)
  /-- An axiomatization is given a theorem. -/
  | notAxiomatic (derivation : Formula)
  /-- The text of search options cannot be read. -/
  | unreadableOptions
  /-- An error about formulas. -/
  | ofFormulas (e : SyntaxError)
deriving DecidableEq

namespace Error

/-- The stable code of an error. -/
def code : Error → String
  | mismatch .. => "THY-001"
  | notDerived .. => "THY-002"
  | premiseAbsent .. => "THY-003"
  | premisePosterior .. => "THY-004"
  | ruleAbsent .. => "THY-005"
  | rulePosterior .. => "THY-006"
  | premiseNotValid .. => "THY-007"
  | notAxiomatic .. => "THY-008"
  | unreadableOptions => "THY-009"
  | ofFormulas e => e.code

/-- The wording of an error.  Unreadable options have none. -/
def message? [Typesetters] : Error → Option String
  | mismatch arguments transformation =>
    s!"arguments `{arguments.text}` do not match the premises of transformation "
      ++ s!"`{transformation.text}`"
  | notDerived statement derived =>
    s!"theorem claims `{statement.text}`, but its inference derives `{derived.text}`"
  | premiseAbsent premise proved =>
    s!"premise `{premise.text}` of theorem `{proved.text}` is not a valid statement of the theory"
  | premisePosterior premise proved index position =>
    s!"premise `{premise.text}` of theorem `{proved.text}` at index {index} first appears at "
      ++ s!"index {position}"
  | ruleAbsent rule proved =>
    s!"inference rule `{rule.text}` of theorem `{proved.text}` is not in the theory"
  | rulePosterior rule proved index position =>
    s!"inference rule `{rule.text}` of theorem `{proved.text}` at index {index} first appears at "
      ++ s!"index {position}"
  | premiseNotValid premise =>
    s!"premise `{premise.text}` is not a valid statement of the theory"
  | notAxiomatic derivation =>
    s!"axiomatizations admit only axioms and inference rules, found `{derivation.text}`"
  | unreadableOptions => none
  | ofFormulas e => e.message

end Error

/-- A result about formulas where a result about theories is expected. -/
instance : MonadLift (Except SyntaxError) (Except Error) where
  monadLift
    | .ok a => .ok a
    | .error e => .error (.ofFormulas e)

section Results

variable {α β ε : Type}

theorem except_bind_eq_ok {x : Except ε α} {f : α → Except ε β} {b : β} :
    x >>= f = .ok b ↔ ∃ a, x = .ok a ∧ f a = .ok b := by
  cases x <;> simp [bind, Except.bind]

theorem except_bind_eq_error {x : Except ε α} {f : α → Except ε β} {e : ε} :
    x >>= f = .error e ↔ x = .error e ∨ ∃ a, x = .ok a ∧ f a = .error e := by
  cases x <;> simp [bind, Except.bind]

theorem except_map_eq_ok {x : Except ε α} {f : α → β} {b : β} :
    f <$> x = .ok b ↔ ∃ a, x = .ok a ∧ f a = b := by
  cases x <;> simp [Functor.map, Except.map]

@[simp] theorem lift_eq_ok {x : Except SyntaxError α} {a : α} :
    (liftM x : Except Error α) = .ok a ↔ x = .ok a := by
  cases x <;> simp [liftM, monadLift, MonadLift.monadLift]

@[simp] theorem lift_eq_error {x : Except SyntaxError α} {e : Error} :
    (liftM x : Except Error α) = .error e ↔ ∃ e', x = .error e' ∧ .ofFormulas e' = e := by
  cases x <;> simp [liftM, monadLift, MonadLift.monadLift]

end Results

end Deduction
