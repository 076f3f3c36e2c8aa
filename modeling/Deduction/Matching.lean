import Deduction.Substitution

/-!
# Matching

A target is matched against a pattern in one direction: some atomic formulas, the variables, may
stand in the pattern for any formula, and a match binds them so that the pattern becomes the
target.  A variable must not occur in the target, so a match never has to look at what it bound.

The bindings that a match starts from are kept, and new ones are added in the order in which the
pattern's variables are met, from left to right.  They are collected as a list of pairs, of which a
match that has gone through the whole pattern makes a map.  Making it is refused if a variable is
assigned twice; `Formula.exists_map_of_unify` says that this never happens.
-/

namespace Deduction

namespace Formula

mutual

/-- Extends the assignments so that the pattern becomes the target: a variable takes the target or
has it already, and any other formula agrees with the target in its connective and, from left to
right, in its terms. -/
def unify (vars : List Formula) :
    (pattern target : Formula) → (assigned : List (Formula × Formula)) →
      Option (List (Formula × Formula))
  | .node c ps, target, assigned =>
    if .node c ps ∈ vars then
      match Lookup.firstOf assigned (.node c ps) with
      | some image => if image = target then some assigned else none
      | none => some (assigned ++ [(.node c ps, target)])
    else if target.connective = c then unifyList vars ps target.terms assigned
    else none

/-- Extends the assignments so that each pattern becomes the target at the same index. -/
def unifyList (vars : List Formula) :
    (patterns targets : List Formula) → (assigned : List (Formula × Formula)) →
      Option (List (Formula × Formula))
  | [], [], assigned => some assigned
  | p :: ps, t :: ts, assigned =>
    match unify vars p t assigned with
    | some assigned => unifyList vars ps ts assigned
    | none => none
  | _, _, _ => none

end

/-- Why the variables cannot be matched against the target, if they cannot: the first that has
terms or occurs in it. -/
def variableError? (vars : List Formula) (target : Formula) : Option SyntaxError :=
  vars.findSome? fun v =>
    if ¬ v.IsAtomic then some (.notAtomic v)
    else if target.contains v then some (.variableOccurs v target)
    else none

/-- Matches the target against the pattern, starting from the bindings.  A mismatch is no error:
errors are a variable that has terms or occurs in the target, and a binding of a formula that is no
variable. -/
def matchPattern (target pattern : Formula) (vars : List Formula) (bindings : Map) :
    Except SyntaxError (Option Map) :=
  match variableError? vars target with
  | some e => .error e
  | none =>
    match bindings.keys.find? (· ∉ vars) with
    | some key => .error (.notVariable key)
    | none =>
      match unify vars pattern target bindings.pairs with
      | some assigned => some <$> Map.ofPairs assigned
      | none => .ok none

/-- The target is what some binding of the variables makes of the pattern. -/
def matchesPattern (target pattern : Formula) (vars : List Formula) :
    Except SyntaxError Bool := do
  return (← target.matchPattern pattern vars .empty).isSome

end Formula

end Deduction
