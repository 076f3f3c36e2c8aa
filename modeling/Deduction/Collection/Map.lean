import Deduction.Collection.Enumeration

/-!
# Maps

A map sends finitely many formulas, its keys, to formulas.  It keeps its keys as an enumeration, the
domain, its images as a sequence, the codomain, and beside them the formula that stands for both.
The key and the image at one index belong together: an image is looked up by the position of its
key.  The order takes part in equality, and `Map.equivalent` compares maps without it.

Every operation makes the two lists anew, and with them the formula.  That they stay aligned, that
no key repeats and that the formula is that of the lists is part of what a map is.  Where the lists
do not matter, a map is the list of its pairs: it is determined by them (`Map.ext`), and
`Deduction.Proofs.Collections` says what each operation does to them.
-/

namespace Deduction

/-- Finitely many keys, no two of them equal, with an image for each. -/
structure Map where
  /-- The formula that stands for the map. -/
  formula : Formula
  /-- The keys in order. -/
  domain : Enumeration
  /-- The images in the order of their keys. -/
  codomain : Sequence
  /-- There are as many images as keys. -/
  aligned : domain.elements.length = codomain.elements.length
  /-- The formula is made of those of the domain and the codomain. -/
  formula_eq : formula = .structural .map [domain.formula, codomain.formula]
deriving DecidableEq

namespace Map

/-- The map with the given domain and codomain. -/
def assemble (domain : Enumeration) (codomain : Sequence)
    (aligned : domain.elements.length = codomain.elements.length) : Map :=
  ⟨.structural .map [domain.formula, codomain.formula], domain, codomain, aligned, rfl⟩

/-- The map without keys. -/
def empty : Map := assemble .empty ⟨[]⟩ rfl

/-- The keys in order. -/
def keys (m : Map) : List Formula := m.domain.elements

/-- The images in the order of their keys. -/
def images (m : Map) : List Formula := m.codomain.elements

/-- The pairs of a key and its image, in order. -/
def pairs (m : Map) : List (Formula × Formula) := m.keys.zip m.images

@[simp] theorem keys_empty : empty.keys = [] := rfl

@[simp] theorem pairs_empty : empty.pairs = [] := rfl

@[simp] theorem map_fst_pairs (m : Map) : m.pairs.map Prod.fst = m.keys :=
  List.map_fst_zip (Nat.le_of_eq m.aligned)

@[simp] theorem map_snd_pairs (m : Map) : m.pairs.map Prod.snd = m.images :=
  List.map_snd_zip (Nat.le_of_eq m.aligned.symm)

/-- No key repeats. -/
theorem nodup (m : Map) : (m.pairs.map Prod.fst).Nodup := m.map_fst_pairs ▸ m.domain.nodup

/-- A map is determined by its pairs. -/
@[ext] theorem ext {m n : Map} (h : m.pairs = n.pairs) : m = n := by
  have hdomain : m.domain = n.domain := by
    apply Enumeration.ext
    change m.keys = n.keys
    rw [← map_fst_pairs, ← map_fst_pairs, h]
  have hcodomain : m.codomain = n.codomain := by
    apply Sequence.ext
    change m.images = n.images
    rw [← map_snd_pairs, ← map_snd_pairs, h]
  obtain ⟨_, _, _, _, rfl⟩ := m
  obtain ⟨_, _, _, _, rfl⟩ := n
  simp_all

/-- The map that sends each element of `domain` to the element of `codomain` at the same index. -/
def ofParts (domain : Enumeration) (codomain : Sequence) : Except SyntaxError Map :=
  if h : domain.elements.length = codomain.elements.length then .ok (assemble domain codomain h)
  else .error (.cardinality domain.elements.length codomain.elements.length)

/-- The map of a list of pairs, refused if a key repeats. -/
def ofPairs (pairs : List (Formula × Formula)) : Except SyntaxError Map := do
  ofParts (← Enumeration.ofList (pairs.map Prod.fst)) ⟨pairs.map Prod.snd⟩

/-- The map of a list of pairs without repeated keys. -/
def ofDistinct (pairs : List (Formula × Formula)) (nodup : (pairs.map Prod.fst).Nodup) : Map :=
  assemble ⟨pairs.map Prod.fst, nodup⟩ ⟨pairs.map Prod.snd⟩ (by simp)

@[simp] theorem pairs_ofDistinct (pairs : List (Formula × Formula))
    (nodup : (pairs.map Prod.fst).Nodup) : (ofDistinct pairs nodup).pairs = pairs :=
  (List.zip_of_prod rfl rfl).symm

/-- The image of `key`, which stands in the codomain where the key stands in the domain. -/
def get? (m : Map) (key : Formula) : Option Formula :=
  (m.domain.position? key).bind (m.codomain.elements[·]?)

/-- The map has an image for `key`. -/
def containsKey (m : Map) (key : Formula) : Bool := decide (key ∈ m.keys)

/-- The image of `key`, refused if there is none. -/
def image (m : Map) (key : Formula) : Except SyntaxError Formula :=
  match m.get? key with
  | some φ => .ok φ
  | none => .error (.noImage key m.formula)

/-- The pairs whose key passes the test. -/
def filter (m : Map) (keep : Formula → Bool) : Map :=
  ofDistinct (m.pairs.filter (keep ·.1)) (m.nodup.sublist (List.filter_sublist.map _))

/-- The map without a pair for `key`. -/
def without (m : Map) (key : Formula) : Map := m.filter (· ≠ key)

/-- The pairs whose key is one of `keys`. -/
def restrict (m : Map) (keys : List Formula) : Map := m.filter (· ∈ keys)

theorem nodup_keys_without (m : Map) (key : Formula) : ((m.without key).keys ++ [key]).Nodup := by
  have hkey : key ∉ (m.without key).keys := by
    simp [without, filter, ofDistinct, assemble, keys]
  refine List.nodup_append.mpr ⟨(m.without key).domain.nodup, by simp, ?_⟩
  rintro k hk k' hk' rfl
  exact hkey (List.mem_singleton.mp hk' ▸ hk)

/-- The map that sends `key` to `image` and every other key as before.  The pair stands at the
end. -/
def withPair (m : Map) (key image : Formula) : Map :=
  let reduced := m.without key
  assemble ⟨reduced.keys ++ [key], m.nodup_keys_without key⟩ (reduced.codomain.withElement image) <|
    by simp [keys, Sequence.withElement, reduced.aligned]

/-- The map from the images back to the keys, refused if two keys have the same image. -/
def inverse (m : Map) : Except SyntaxError Map :=
  match h : Enumeration.ofList m.images with
  | .ok domain =>
    have aligned := (congrArg List.length (Enumeration.ofList_eq_ok.mp h)).trans m.aligned.symm
    .ok (assemble domain m.domain.toSequence aligned)
  | .error (.duplicate image _ _) => .error (.notInvertible m.formula image)
  | .error e => .error e

/-- The maps have the same keys and send them to the same images. -/
def equivalent (m n : Map) : Bool :=
  m.domain.equivalent n.domain && m.pairs.all fun (key, image) => n.get? key = some image

/-- Reads a map from its formula: the domain, then the codomain. -/
def ofFormula : Formula → Except SyntaxError Map
  | .node (.structural .map) [domain, codomain] => do
    ofParts (← Enumeration.ofFormula domain) (← Sequence.ofFormula codomain)
  | φ => .error (.unreadable (.object .map) φ)

/-- What stands at the position of a key is the image in the first pair with that key. -/
theorem get?_eq_find? (m : Map) (key : Formula) :
    m.get? key = (m.pairs.find? (·.1 = key)).map Prod.snd := by
  have hposition (pairs : List (Formula × Formula)) :
      ((pairs.map Prod.fst).findIdx? (· = key)).bind ((pairs.map Prod.snd)[·]?) =
        (pairs.find? (·.1 = key)).map Prod.snd := by
    induction pairs with
    | nil => rfl
    | cons p pairs ih =>
      by_cases hp : p.1 = key
      · simp [List.findIdx?_cons, hp]
      · simpa [List.findIdx?_cons, hp, Option.bind_map, Function.comp_def] using ih
  rw [← hposition, map_fst_pairs, map_snd_pairs]
  rfl

theorem get?_eq_none {m : Map} {key : Formula} : m.get? key = none ↔ key ∉ m.keys := by
  rw [get?_eq_find?, ← map_fst_pairs]
  simp only [Option.map_eq_none_iff, List.find?_eq_none, List.mem_map]
  grind

theorem get?_isSome {m : Map} {key : Formula} : (m.get? key).isSome ↔ key ∈ m.keys := by
  rw [← Decidable.not_iff_not, ← get?_eq_none]
  simp

end Map

end Deduction
