import Deduction.Proofs.Hashing
import Deduction.Proofs.Propositional
import Deduction.Proofs.Substitution

/-!
# Substitutions compared and composed

A substitution is carried out by a lookup, and it asks the lookup about subformulas of the formula
only.  So it makes no difference how a lookup finds an image: by its position in the domain of a
map, by going through the pairs from either end, or in a hash table with whatever hash function.  As
the keys of a map do not repeat, all of these find the same, and with that
`Formula.substitute_extensional` comes down to `Formula.replace_congr`.

Two substitutions in a row are one substitution, provided that the second one replaces atoms only
(`Formula.substitute_composes`).  The keys of the first may be compound and may lie inside one
another.  An image that the first one puts in is not looked into again by it, but it is by the
second; and a node that the first one rebuilds is compound, so the second one passes it by.  Were
compound keys allowed there, the second could replace a node that the first has just made.
-/

namespace Deduction

/-! ## Ways to look up -/

namespace Lookup

/-- The image at the position that the formula has in the domain. -/
def ofParts (domain : Enumeration) (codomain : Sequence) : Lookup := fun φ =>
  (domain.position? φ).bind (codomain.elements[·]?)

/-- The image in a hash table into which the pairs are put one after the other. -/
def hashed [Hashable Formula] (pairs : List (Formula × Formula)) : Lookup := fun φ =>
  (Std.HashMap.ofList pairs)[φ]?

/-- In a hash table the last pair for a key is found, as it has replaced the others. -/
theorem hashed_eq_lastOf [Hashable Formula] (pairs : List (Formula × Formula)) :
    hashed pairs = lastOf pairs := by
  funext φ
  rw [hashed, getElem?_ofList]
  rfl

/-! ### In a map -/

variable (m : Map)

theorem lastOf_map : lastOf m.pairs = m.get? := by
  have hnodup : (m.pairs.reverse.map Prod.fst).Nodup := by
    rw [List.map_reverse, List.nodup_reverse]
    exact m.nodup
  let backwards := Map.ofDistinct m.pairs.reverse hnodup
  calc
    lastOf m.pairs = firstOf backwards.pairs := by rw [Map.pairs_ofDistinct, lastOf]
    _ = backwards.get? := firstOf_map backwards
    _ = m.get? := Map.get?_congr fun p => by rw [Map.pairs_ofDistinct, List.mem_reverse]

theorem hashed_map [Hashable Formula] : hashed m.pairs = m.get? := by
  rw [hashed_eq_lastOf, lastOf_map]

theorem ofParts_map : ofParts m.domain m.codomain = m.get? := rfl

end Lookup

/-! ## Agreement -/

namespace Formula

/-- Only the pairs for subformulas matter. -/
theorem substitute_restrict (φ : Formula) (m : Map) :
    φ.substitute (m.restrict φ.subformulas) = φ.substitute m := by
  apply replace_congr
  intro ψ hψ
  rw [← subformulas_eq_preorder] at hψ
  rw [Map.get?_restrict, if_pos hψ]

/-- What a substitution makes of a formula is decided by the images of its subformulas.  So it is
the same for maps that are equivalent, for a map and its restriction to the subformulas, and for all
ways to look a formula up in a map: by its position in the domain, in the first or in the last pair
that has it as key, and in a hash table of the pairs. -/
theorem substitute_extensional (φ : Formula) :
    (∀ f g : Lookup, (∀ ψ ∈ φ.subformulas, f ψ = g ψ) → φ.replace f = φ.replace g) ∧
    (∀ m n : Map, m.equivalent n = true → φ.substitute m = φ.substitute n) ∧
    (∀ m : Map, φ.substitute m = φ.substitute (m.restrict φ.subformulas)) ∧
    ∀ (m : Map) [Hashable Formula],
      φ.replace (.ofParts m.domain m.codomain) = φ.substitute m ∧
      φ.replace (.hashed m.pairs) = φ.substitute m ∧
      φ.replace (.firstOf m.pairs) = φ.substitute m ∧
      φ.replace (.lastOf m.pairs) = φ.substitute m := by
  refine ⟨fun f g h => ?_, fun m n h => ?_, fun m => (substitute_restrict φ m).symm, fun m _ => ?_⟩
  · exact replace_congr fun ψ hψ => h ψ (subformulas_eq_preorder φ ▸ hψ)
  · exact replace_congr fun ψ _ => Map.equivalent_iff.mp h ψ
  · rw [Lookup.ofParts_map, Lookup.hashed_map, Lookup.firstOf_map, Lookup.lastOf_map]
    exact ⟨rfl, rfl, rfl, rfl⟩

open Propositional in
/-- The pairs may come in any order, and a pair for a formula that does not occur may be added. -/
theorem substitute_extensional_nested :
    nested.equivalent (.ofDistinct nested.pairs.reverse (by decide)) = true ∧
    overlapped.substitute nested = both x (implies y (both x q)) ∧
    overlapped.substitute (.ofDistinct nested.pairs.reverse (by decide)) =
      both x (implies y (both x q)) ∧
    overlapped.replace (.lastOf ((r, s) :: nested.pairs)) = both x (implies y (both x q)) := by
  have hequivalent : nested.equivalent (.ofDistinct nested.pairs.reverse (by decide)) = true := by
    decide
  have hvalue : overlapped.substitute nested = both x (implies y (both x q)) := by decide
  have hagrees : ∀ ψ ∈ overlapped.subformulas,
      Lookup.lastOf ((r, s) :: nested.pairs) ψ = nested.get? ψ := by
    rw [subformulas_eq_preorder]
    decide
  obtain ⟨hlookups, hmaps, -⟩ := substitute_extensional overlapped
  exact ⟨hequivalent, hvalue, (hmaps _ _ hequivalent).symm.trans hvalue,
    (hlookups _ _ hagrees).trans hvalue⟩

end Formula

/-! ## Composition -/

/-- The image under `f`, with its subformulas replaced by `g`; and the image under `g`, if there is
none under `f`. -/
def Lookup.andThen (f g : Lookup) : Lookup := fun φ => ((f φ).map (·.replace g)).or (g φ)

namespace Formula

/-- Replacing twice is replacing once, if the second lookup has images for atoms only. -/
theorem replace_replace {f g : Lookup} (hg : ∀ ψ, ¬ ψ.IsAtomic → g ψ = none) (φ : Formula) :
    (φ.replace f).replace g = φ.replace (f.andThen g) := by
  induction φ with
  | node c ts ih =>
    rw [replace_node f, replace_node (f.andThen g), Lookup.andThen]
    cases hf : f (node c ts) with
    | some image => simp
    | none =>
      -- The rebuilt node has as many terms as before: either it is still the same atom, or both
      -- nodes are compound and have no image.
      have hkey : g (node c (ts.map (replace f))) = g (node c ts) := by
        cases ts with
        | nil => rfl
        | cons t ts => rw [hg _ (by simp [IsAtomic]), hg _ (by simp [IsAtomic])]
      have hterms : (ts.map (replace f)).map (replace g) = ts.map (replace (f.andThen g)) := by
        rw [List.map_map]
        exact List.map_congr_left ih
      simp only [Option.getD_none, Option.map_none, Option.none_or]
      rw [replace_node, hkey, hterms]

/-- A substitution without keys changes nothing. -/
theorem substitute_empty (φ : Formula) : φ.substitute .empty = φ := by
  induction φ with
  | node c ts ih =>
    have hnone : Map.empty.get? (node c ts) = none := rfl
    rw [substitute_node, hnone, Option.getD_none, List.map_congr_left ih, List.map_id']

end Formula

namespace Map

/-- The map `u` sends each key of `s` to what `t` makes of its image, and everything else where `t`
sends it. -/
structure Composite (s t u : Map) : Prop where
  first : ∀ key image, s.get? key = some image → u.get? key = some (image.substitute t)
  second : ∀ key, key ∉ s.keys → u.get? key = t.get? key

theorem Composite.get?_eq {s t u : Map} (h : Composite s t u) :
    u.get? = Lookup.andThen s.get? t.get? := by
  funext key
  rw [Lookup.andThen]
  cases hs : s.get? key with
  | some image => exact h.first key image hs
  | none => exact h.second key (get?_eq_none.mp hs)

/-- The images of `s` under `t`, followed by the pairs of `t` whose keys `s` does not have. -/
def andThen (s t : Map) : Map :=
  .ofDistinct
      (s.pairs.map (fun p => (p.1, p.2.substitute t)) ++ (t.filter (· ∉ s.keys)).pairs) <| by
    have hfirst : (s.pairs.map fun p => (p.1, p.2.substitute t)).map Prod.fst = s.keys := by
      rw [List.map_map, ← map_fst_pairs]
      rfl
    have hsecond : ∀ key ∈ (t.filter (· ∉ s.keys)).keys, key ∉ s.keys := fun key hkey =>
      of_decide_eq_true (mem_keys_filter.mp hkey).2
    rw [List.map_append, hfirst, map_fst_pairs, List.nodup_append]
    exact ⟨s.domain.nodup, (t.filter _).domain.nodup, fun a ha b hb hab => hsecond b hb (hab ▸ ha)⟩

theorem pairs_andThen (s t : Map) : (s.andThen t).pairs =
    s.pairs.map (fun p => (p.1, p.2.substitute t)) ++ (t.filter (· ∉ s.keys)).pairs :=
  pairs_ofDistinct ..

theorem composite_andThen (s t : Map) : Composite s t (s.andThen t) where
  first key image hs := by
    rw [get?_eq_some] at hs ⊢
    rw [pairs_andThen]
    exact List.mem_append_left _ (List.mem_map.mpr ⟨_, hs, rfl⟩)
  second key hkey := by
    apply Option.ext
    intro image
    have hfirst : (key, image) ∉ s.pairs.map fun p => (p.1, p.2.substitute t) := by
      intro hmem
      obtain ⟨p, hp, heq⟩ := List.mem_map.mp hmem
      exact hkey ((Prod.mk.inj heq).1 ▸ mem_keys_of_mem hp)
    rw [get?_eq_some, get?_eq_some, pairs_andThen, List.mem_append, or_iff_right hfirst]
    simp [hkey]

end Map

namespace Formula

/-- Substitution composes.  Let the keys of `t` be atomic.  Substituting by `s` and then by `t` is
substituting once by a map that sends each key of `s` to what `t` makes of its image and each other
key of `t` to its image; there is such a map, and it does not matter which one is taken.
Substituting by the empty map changes nothing. -/
theorem substitute_composes (s : Map) {t : Map} (ht : ∀ key ∈ t.keys, key.IsAtomic) :
    Map.Composite s t (s.andThen t) ∧
    (∀ u, Map.Composite s t u → ∀ φ : Formula, (φ.substitute s).substitute t = φ.substitute u) ∧
    ∀ φ : Formula, φ.substitute .empty = φ := by
  refine ⟨Map.composite_andThen s t, fun u hu φ => ?_, substitute_empty⟩
  have hcompound : ∀ ψ : Formula, ¬ ψ.IsAtomic → t.get? ψ = none := fun ψ hψ =>
    Map.get?_eq_none.mpr fun hkey => hψ (ht ψ hkey)
  rw [substitute, substitute, substitute, hu.get?_eq, replace_replace hcompound]

open Propositional in
/-- What the first map puts in for its nested keys is dealt with by the second one. -/
theorem substitute_composes_nested :
    (∀ key ∈ ((Map.empty.withPair x p).withPair q r).keys, key.IsAtomic) ∧
    (overlapped.substitute nested).substitute ((Map.empty.withPair x p).withPair q r) =
      overlapped.substitute (nested.andThen ((Map.empty.withPair x p).withPair q r)) ∧
    overlapped.substitute (nested.andThen ((Map.empty.withPair x p).withPair q r)) =
      both p (implies y (both p r)) := by
  have hatomic : ∀ key ∈ ((Map.empty.withPair x p).withPair q r).keys, key.IsAtomic := by decide
  obtain ⟨hcomposite, hsame, -⟩ := substitute_composes nested hatomic
  exact ⟨hatomic, hsame _ hcomposite overlapped, by decide⟩

open Propositional in
-- With a compound key, the second map may replace a node that the first one has made.
example :
    ((implies p q).substitute (Map.empty.withPair p r)).substitute
      (Map.empty.withPair (implies r q) s) = s ∧
    (implies p q).substitute ((Map.empty.withPair p r).withPair (implies r q) s) =
      implies r q := by
  decide

end Formula

end Deduction
