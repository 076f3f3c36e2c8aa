import Deduction.Collection.Map

/-!
# Substitution

Substitution replaces subformulas by images, all at once and from the root down: where a formula
has an image, the image takes its place and is not looked into again; where it has none, its terms
are dealt with.  What has an image is given by a `Lookup`, which a map is one source of; a list of
pairs with repeated keys gives two others, by its first or by its last pair for a key.
-/

namespace Deduction

/-- The image of a formula, if it has one. -/
abbrev Lookup := Formula → Option Formula

namespace Lookup

/-- The image in the first pair whose key is the formula. -/
def firstOf (pairs : List (Formula × Formula)) : Lookup := fun φ =>
  (pairs.find? (·.1 = φ)).map Prod.snd

/-- The image in the last pair whose key is the formula. -/
def lastOf (pairs : List (Formula × Formula)) : Lookup := firstOf pairs.reverse

theorem firstOf_map (m : Map) : firstOf m.pairs = m.get? :=
  funext fun key => (m.get?_eq_find? key).symm

end Lookup

namespace Formula

mutual

/-- The formula with each subformula that has an image replaced by it, from the root down. -/
def replace (image : Lookup) : Formula → Formula
  | .node c ts =>
    match image (.node c ts) with
    | some φ => φ
    | none => .node c (replaceList image ts)

/-- The formulas of a list with their subformulas replaced. -/
def replaceList (image : Lookup) : List Formula → List Formula
  | [] => []
  | t :: ts => t.replace image :: replaceList image ts

end

theorem replaceList_eq_map (image : Lookup) (ts : List Formula) :
    replaceList image ts = ts.map (replace image) := by
  induction ts with
  | nil => rfl
  | cons t ts ih => simp [replaceList, ih]

/-- The formula with each subformula that is a key of the map replaced by its image. -/
def substitute (φ : Formula) (m : Map) : Formula := φ.replace m.get?

theorem substitute_node (m : Map) (c : Connective) (ts : List Formula) :
    (node c ts).substitute m =
      (m.get? (node c ts)).getD (node c (ts.map (·.substitute m))) := by
  have h : (replace m.get? : Formula → Formula) = (substitute · m) := rfl
  rw [substitute, replace, replaceList_eq_map, h]
  split <;> simp [*]

end Formula

end Deduction
