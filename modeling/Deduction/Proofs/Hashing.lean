import Mathlib.Data.List.Basic
import Deduction.Proofs.NodeStore
import Deduction.Sharing.Bindings
import Deduction.Sharing.Hashing

/-!
# Formulas in hash tables

A hash table finds a formula by its hash and by comparing it with what has the same hash, and both
are done on nodes.  The hash is made of what the node feeds and does not depend on addresses
(`Node.feed_formula`), so nodes that are compared as equal have one hash
(`Node.Stored.feed_eq_of_equivalent`).  With that, the nodes of a store are keys to which the laws
of hash tables apply (`Node.Key`), whatever a hash function makes of what it is fed.

Two things are done with hash tables.  `unrepeated` leaves out what is in a hash set already, and
comes to the first occurrences (`firstOccurrences_eq_unrepeated`).  And a table of pairs finds the
last pair with a key (`getElem?_ofList`).  Of two nodes of one formula, the set keeps the node that
comes first (`Node.unrepeated_keys`), and the table finds the image that was put in last
(`Node.getElem?_ofList_keys`).

That the elements are kept in the order in which they occur first is what is assumed here about
leaving out duplicates by a hash set; `unrepeated` is the definition of it.
-/

namespace Deduction

/-! ## First occurrences -/

section FirstOccurrences

variable {α β γ : Type} [DecidableEq γ]

theorem firstOccurrences_id [DecidableEq α] (seen xs : List α) :
    firstOccurrences id seen xs = appendNew seen xs := by
  induction xs generalizing seen with
  | nil => rfl
  | cons x xs ih =>
    have hany : seen.any (id · = id x) = true ↔ x ∈ seen := by simp
    simp only [firstOccurrences, appendNew, hany, ih]

theorem map_firstOccurrences (key : β → γ) (f : α → β) (seen xs : List α) :
    (firstOccurrences (key ∘ f) seen xs).map f =
      firstOccurrences key (seen.map f) (xs.map f) := by
  induction xs generalizing seen with
  | nil => rfl
  | cons x xs ih =>
    have hany : (seen.map f).any (key · = key (f x)) = seen.any ((key ∘ f) · = (key ∘ f) x) := by
      simp [List.any_map, Function.comp_def]
    simp only [firstOccurrences, List.map_cons, hany]
    split
    · exact ih seen
    · rw [ih, List.map_append, List.map_singleton]

end FirstOccurrences

/-! ## Hash sets and hash tables -/

section Tables

variable {α β : Type} [BEq α] [Hashable α]

/-- The elements of a list that are not in the hash set.  Each of them is put into it when it
occurs, so that it does not come again. -/
def unrepeated (seen : Std.HashSet α) : List α → List α
  | [] => []
  | x :: xs => if seen.contains x then unrepeated seen xs else x :: unrepeated (seen.insert x) xs

variable [EquivBEq α] [LawfulHashable α]

/-- A hash set with the elements of a list leaves the same to be appended as the list does. -/
theorem firstOccurrences_eq_append_unrepeated [DecidableEq β] (key : α → β)
    (hkey : ∀ x y, (x == y) = true ↔ key x = key y) {front : List α} {seen : Std.HashSet α}
    (h : ∀ x, seen.contains x = true ↔ ∃ y ∈ front, key y = key x) (xs : List α) :
    firstOccurrences key front xs = front ++ unrepeated seen xs := by
  induction xs generalizing front seen with
  | nil => simp [firstOccurrences, unrepeated]
  | cons x xs ih =>
    have hany : front.any (key · = key x) = true ↔ seen.contains x = true := by simp [h]
    rw [firstOccurrences, unrepeated]
    by_cases hx : seen.contains x = true
    · rw [if_pos (hany.mpr hx), if_pos hx, ih h]
    · have hinsert (y : α) :
          (seen.insert x).contains y = true ↔ ∃ z ∈ front ++ [x], key z = key y := by
        rw [Std.HashSet.contains_insert, Bool.or_eq_true, hkey, h]
        simp only [List.mem_append, List.mem_singleton, or_and_right, exists_or, exists_eq_left]
        exact or_comm
      rw [if_neg (mt hany.mp hx), if_neg hx, ih hinsert, List.append_assoc, List.singleton_append]

theorem firstOccurrences_eq_unrepeated [DecidableEq β] (key : α → β)
    (hkey : ∀ x y, (x == y) = true ↔ key x = key y) (xs : List α) :
    firstOccurrences key [] xs = unrepeated ∅ xs :=
  firstOccurrences_eq_append_unrepeated key hkey (by simp) xs

/-- A table into which pairs are put one after the other has the last pair with a key. -/
theorem getElem?_ofList (pairs : List (α × β)) (k : α) :
    (Std.HashMap.ofList pairs)[k]? = (pairs.reverse.find? (·.1 == k)).map Prod.snd := by
  rw [Std.HashMap.ofList_eq_insertMany_empty, Std.HashMap.getElem?_insertMany_list,
    List.findSomeRev?_eq_findSome?_reverse]
  induction pairs.reverse with
  | nil => simp
  | cons p pairs ih =>
    by_cases hp : (p.1 == k) = true
    · simp [hp]
    · simpa [hp] using ih

end Tables

/-! ## Nodes as keys -/

namespace Node

mutual

/-- What a node feeds does not depend on addresses. -/
theorem feed_formula : (n : Node) → n.formula.feed = n.feed
  | .mk a c ts => by
    rw [formula, Formula.feed, feed, feedList_formulaList, formulaList_eq_map, List.length_map]

theorem feedList_formulaList : (ts : List Node) → Formula.feedList (formulaList ts) = feedList ts
  | [] => rfl
  | t :: ts => by
    rw [formulaList, Formula.feedList, feedList, feed_formula, feedList_formulaList]

end

/-- Nodes that are compared as equal feed the same, also where the comparison stops early. -/
theorem Stored.feed_eq_of_equivalent {σ : Store} {m n : Node} (hm : m.Stored σ) (hn : n.Stored σ)
    (h : m.equivalent n = true) : m.feed = n.feed := by
  rw [← feed_formula, ← feed_formula, (hm.equivalent_iff hn).mp h]

/-- A node of a store as a key of hash tables, where `finish` makes a hash of what is fed. -/
structure Key (σ : Store) (finish : List Nat → UInt64) where
  /-- The node. -/
  node : Node
  /-- The store has it. -/
  stored : node.Stored σ

namespace Key

variable {σ : Store} {finish : List Nat → UInt64}

instance : BEq (Key σ finish) := ⟨fun k l => k.node.equivalent l.node⟩

instance : Hashable (Key σ finish) := ⟨fun k => finish k.node.feed⟩

theorem beq_iff {k l : Key σ finish} : (k == l) = true ↔ k.node.formula = l.node.formula :=
  k.stored.equivalent_iff l.stored

instance : EquivBEq (Key σ finish) where
  rfl := beq_iff.mpr rfl
  symm h := beq_iff.mpr (beq_iff.mp h).symm
  trans h h' := beq_iff.mpr ((beq_iff.mp h).trans (beq_iff.mp h'))

instance : LawfulHashable (Key σ finish) where
  hash_eq k l h := congrArg finish (k.stored.feed_eq_of_equivalent l.stored h)

end Key

variable {σ : Store} {finish : List Nat → UInt64}

/-- Nodes of a store are keys. -/
theorem exists_keys {ns : List Node} (h : ∀ n ∈ ns, n.Stored σ) (finish : List Nat → UInt64) :
    ∃ ks : List (Key σ finish), ks.map (·.node) = ns := by
  refine ⟨ns.attach.map fun n => ⟨n.val, h n.val n.property⟩, ?_⟩
  rw [List.map_map]
  exact ns.attach_map_subtype_val

/-- Leaving out duplicates by a hash set of nodes leaves the nodes that occur first. -/
theorem unrepeated_keys (ks : List (Key σ finish)) :
    (unrepeated ∅ ks).map (·.node) = firstOccurrences formula [] (ks.map (·.node)) := by
  rw [← firstOccurrences_eq_unrepeated (formula ∘ Key.node) fun _ _ => Key.beq_iff]
  exact map_firstOccurrences formula Key.node [] ks

/-- In a hash table of nodes the image is found that was put in last for a formula. -/
theorem getElem?_ofList_keys (pairs : List (Key σ finish × Node)) (k : Key σ finish) :
    (Std.HashMap.ofList pairs)[k]? =
      image? (pairs.map fun p => (p.1.node, p.2)).reverse k.node.formula := by
  have hbeq : (fun p : Key σ finish × Node => p.1 == k) =
      fun p => decide (p.1.node.formula = k.node.formula) :=
    funext fun p => Bool.eq_iff_iff.mpr (Key.beq_iff.trans decide_eq_true_iff.symm)
  rw [getElem?_ofList, image?, ← List.map_reverse, List.find?_map, Option.map_map, hbeq]
  rfl

end Node

end Deduction
