import Deduction.Sharing.Node

/-!
# What is hashed

A hash is made of numbers that a value feeds to a hash function.  A declared connective feeds its
identity and a structural one its kind, each after a mark of which it is.  A formula feeds its
connective, the number of its terms, and then its terms.  A node feeds what its formula does, and
not its address.
-/

namespace Deduction

/-- What a connective feeds to a hash function. -/
def Connective.feed : Connective → List Nat
  | .declared identity _ _ _ => [0, identity]
  | .structural kind => [1, Structure.all.idxOf kind]

mutual

/-- What a formula feeds to a hash function. -/
def Formula.feed : Formula → List Nat
  | .node c ts => c.feed ++ ts.length :: feedList ts

/-- What formulas feed to a hash function, one after the other. -/
def Formula.feedList : List Formula → List Nat
  | [] => []
  | t :: ts => t.feed ++ feedList ts

end

mutual

/-- What a node feeds to a hash function. -/
def Node.feed : Node → List Nat
  | .mk _ c ts => c.feed ++ ts.length :: feedList ts

/-- What nodes feed to a hash function, one after the other. -/
def Node.feedList : List Node → List Nat
  | [] => []
  | t :: ts => t.feed ++ feedList ts

end

end Deduction
