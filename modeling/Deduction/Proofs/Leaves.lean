import Deduction.Proofs.Hashing
import Deduction.Proofs.Propositional
import Deduction.Proofs.Substitution

/-!
# Leaves

The leaves of a formula are its atomic subformulas in the order of their first occurrence.  Whether
an atom has occurred before may as well be looked up in a hash set, with whatever hash function
(`Formula.leaves_eq_unrepeated`).

With atomic keys, a substitution changes a formula at its leaves only.  Each leaf of the result is a
leaf that was there before and is no key, or it came with the image of a key that was there before
(`Formula.mem_leaves_substitute`).  An image is not looked into, so a key may be a leaf of the
result.

A list of variables is substituted away if all of them that occur have images without variables, and
if the other keys that occur do not bring variables in.  The second condition is needed
(`Formula.variables_brought_in`), but it is met by itself if the keys are among the variables.
-/

namespace Deduction

namespace Formula

variable {φ a : Formula} {m : Map}

/-! ## Leaves -/

theorem leaves_eq_strip (φ : Formula) :
    φ.leaves = .strip (φ.preorder.filter fun ψ => decide ψ.IsAtomic) := by
  rw [leaves, subformulas_eq_preorder]

theorem leaves_eq_unrepeated [Hashable Formula] (φ : Formula) :
    φ.leaves.elements = unrepeated ∅ (φ.preorder.filter fun ψ => decide ψ.IsAtomic) := by
  rw [leaves_eq_strip, ← firstOccurrences_eq_unrepeated id (fun _ _ => beq_iff_eq),
    firstOccurrences_id]
  rfl

@[simp] theorem mem_leaves : a ∈ φ.leaves.elements ↔ a.IsAtomic ∧ a ∈ φ.preorder := by
  simp [leaves_eq_strip, Enumeration.strip, and_comm]

theorem mem_leaves_iff_contains (ha : a.IsAtomic) :
    a ∈ φ.leaves.elements ↔ φ.contains a = true := by
  rw [mem_leaves, contains_iff_mem_preorder, and_iff_right ha]

/-! ## After a substitution -/

/-- Where the leaves come from after a substitution of atoms. -/
theorem mem_leaves_substitute (hatomic : ∀ key ∈ m.keys, key.IsAtomic) :
    a ∈ (φ.substitute m).leaves.elements ↔
      (a ∈ φ.leaves.elements ∧ a ∉ m.keys) ∨
        ∃ key image, key ∈ φ.leaves.elements ∧ m.get? key = some image ∧
          a ∈ image.leaves.elements := by
  simp only [mem_leaves]
  constructor
  · rintro ⟨ha, hoccurs⟩
    obtain ⟨hstays, hfree⟩ | ⟨⟨key, image⟩, hpair, hkey, himage⟩ :=
      mem_preorder_substitute ha hoccurs
    · exact .inl ⟨⟨ha, hstays⟩, hfree⟩
    · have hget : m.get? key = some image := Map.get?_eq_some.mpr hpair
      have hleaf : key.IsAtomic := hatomic key (Map.mem_keys_of_get? hget)
      exact .inr ⟨key, image, ⟨hleaf, hkey⟩, hget, ha, himage⟩
  · rintro (⟨⟨ha, hoccurs⟩, hfree⟩ | ⟨key, image, ⟨-, hkey⟩, hget, ha, himage⟩)
    · exact ⟨ha, mem_preorder_substitute_of_notMem hatomic ha hfree hoccurs⟩
    · exact ⟨ha, preorder_image_subset hatomic hget hkey himage⟩

/-- No formula of the list occurs. -/
def FreeOf (φ : Formula) (vars : List Formula) : Prop := ∀ v ∈ vars, φ.contains v = false

instance (φ : Formula) (vars : List Formula) : Decidable (φ.FreeOf vars) :=
  inferInstanceAs (Decidable (∀ _ ∈ _, _ = _))

variable {vars : List Formula}

theorem freeOf_iff (hvars : ∀ v ∈ vars, v.IsAtomic) :
    φ.FreeOf vars ↔ ∀ v ∈ vars, v ∉ φ.leaves.elements := by
  refine forall_congr' fun v => forall_congr' fun hv => ?_
  rw [mem_leaves_iff_contains (hvars v hv), Bool.not_eq_true]

section Variables

variable (hatomic : ∀ key ∈ m.keys, key.IsAtomic) (hvars : ∀ v ∈ vars, v.IsAtomic)
include hatomic hvars

/-- No variable is left exactly when all that occur are keys and no image of a key that occurs has
one. -/
theorem freeOf_substitute_iff_keys :
    (φ.substitute m).FreeOf vars ↔
      (∀ v ∈ vars, φ.contains v = true → v ∈ m.keys) ∧
      ∀ key image, φ.contains key = true → m.get? key = some image → image.FreeOf vars := by
  have hleaf : ∀ key image, m.get? key = some image →
      (key ∈ φ.leaves.elements ↔ φ.contains key = true) := fun key image hget =>
    mem_leaves_iff_contains (hatomic key (Map.mem_keys_of_get? hget))
  simp only [freeOf_iff hvars, mem_leaves_substitute hatomic]
  constructor
  · intro h
    refine ⟨fun v hv hoccurs => ?_, fun key image hoccurs hget v hv hmem => ?_⟩
    · by_contra hfree
      exact h v hv (.inl ⟨(mem_leaves_iff_contains (hvars v hv)).mpr hoccurs, hfree⟩)
    · exact h v hv (.inr ⟨key, image, (hleaf key image hget).mpr hoccurs, hget, hmem⟩)
  · rintro ⟨hkeys, himages⟩ v hv (⟨hmem, hfree⟩ | ⟨key, image, hkey, hget, hmem⟩)
    · exact hfree (hkeys v hv ((mem_leaves_iff_contains (hvars v hv)).mp hmem))
    · exact himages key image ((hleaf key image hget).mp hkey) hget v hv hmem

/-- The same, with what the variables are sent to apart from what the other keys are sent to. -/
theorem freeOf_substitute :
    (φ.substitute m).FreeOf vars ↔
      (∀ v ∈ vars, φ.contains v = true → ∃ image, m.get? v = some image ∧ image.FreeOf vars) ∧
      ∀ key, key ∉ vars → φ.contains key = true →
        ∀ image, m.get? key = some image → image.FreeOf vars := by
  rw [freeOf_substitute_iff_keys hatomic hvars]
  constructor
  · rintro ⟨hkeys, himages⟩
    refine ⟨fun v hv hoccurs => ?_, fun key _ hoccurs image hget => himages key image hoccurs hget⟩
    obtain ⟨image, hget⟩ := Option.isSome_iff_exists.mp (Map.get?_isSome.mpr (hkeys v hv hoccurs))
    exact ⟨image, hget, himages v image hoccurs hget⟩
  · rintro ⟨hvariables, hothers⟩
    refine ⟨fun v hv hoccurs => ?_, fun key image hoccurs hget => ?_⟩
    · obtain ⟨image, hget, -⟩ := hvariables v hv hoccurs
      exact Map.mem_keys_of_get? hget
    · by_cases hvar : key ∈ vars
      · obtain ⟨image', hget', hfree⟩ := hvariables key hvar hoccurs
        obtain rfl : image' = image := Option.some.inj (hget'.symm.trans hget)
        exact hfree
      · exact hothers key hvar hoccurs image hget

end Variables

/-- The leaves of a formula are what is left of its atomic subformulas, in the order of the listing,
if duplicates are left out; a hash set serves as well to find them.

Let the keys of a map be atomic.  An atom is a leaf after the substitution exactly when it is a leaf
before and no key, or a leaf of the image of a key that is a leaf before.  No variable of a list
occurs after the substitution exactly when those that occur before are sent to formulas without
variables, and no other key that occurs before is sent to a formula with one of them. -/
theorem leaves_substitute (φ : Formula) :
    φ.leaves = .strip (φ.preorder.filter fun ψ => decide ψ.IsAtomic) ∧
    (∀ [Hashable Formula],
      φ.leaves.elements = unrepeated ∅ (φ.subformulas.filter fun ψ => decide ψ.IsAtomic)) ∧
    ∀ m : Map, (∀ key ∈ m.keys, key.IsAtomic) →
      (∀ a : Formula, a.IsAtomic →
        (a ∈ (φ.substitute m).leaves.elements ↔
          (a ∈ φ.leaves.elements ∧ a ∉ m.keys) ∨
          ∃ key image, key ∈ φ.leaves.elements ∧ m.get? key = some image ∧
            a ∈ image.leaves.elements)) ∧
      ∀ vars : List Formula, (∀ v ∈ vars, v.IsAtomic) →
        ((φ.substitute m).FreeOf vars ↔
          (∀ v ∈ vars, φ.contains v = true →
            ∃ image, m.get? v = some image ∧ image.FreeOf vars) ∧
          ∀ key, key ∉ vars → φ.contains key = true →
            ∀ image, m.get? key = some image → image.FreeOf vars) := by
  refine ⟨leaves_eq_strip φ, ?_, fun m hatomic => ⟨fun a _ => ?_, fun vars hvars => ?_⟩⟩
  · rw [subformulas_eq_preorder]
    exact leaves_eq_unrepeated φ
  · exact mem_leaves_substitute hatomic
  · exact freeOf_substitute hatomic hvars

open Propositional in
/-- The image of `x` has the key `y` as a leaf, which is not replaced again.  The variable `x` does
not occur any more. -/
theorem leaves_substitute_image :
    let m : Map := .ofDistinct [(x, both p y), (y, r)] (by decide)
    let φ := implies x (both q x)
    (∀ key ∈ m.keys, key.IsAtomic) ∧ φ.leaves.elements = [x, q] ∧
    y ∈ (φ.substitute m).leaves.elements ∧ q ∈ (φ.substitute m).leaves.elements ∧
    (φ.substitute m).FreeOf [x] := by
  intro m φ
  have hatomic : ∀ key ∈ m.keys, key.IsAtomic := by decide
  obtain ⟨hstrip, -, hsubstitute⟩ := leaves_substitute φ
  obtain ⟨hleaves, hvariables⟩ := hsubstitute m hatomic
  obtain ⟨himage, -, -⟩ := leaves_substitute (both p y)
  have hφ : φ.leaves.elements = [x, q] := by
    rw [hstrip]
    decide
  have hy : y ∈ (both p y).leaves.elements := by
    rw [himage]
    decide
  rw [hφ] at hleaves
  refine ⟨hatomic, hφ, (hleaves y rfl).mpr (.inr ⟨x, both p y, by decide, by decide, hy⟩),
    (hleaves q rfl).mpr (.inl (by decide)), (hvariables [x] (by decide)).mpr ⟨?_, ?_⟩⟩
  · intro v hv _
    obtain rfl := List.mem_singleton.mp hv
    exact ⟨both p y, by decide, by decide⟩
  · intro key hkey _ image hget
    -- The other key is `y`, and its image is an atom.
    have hpair : (key, image) ∈ m.pairs := Map.get?_eq_some.mp hget
    have hothers : ∀ pair ∈ m.pairs, pair.1 ∉ [x] → pair.2.FreeOf [x] := by decide
    exact hothers _ hpair hkey

open Propositional in
/-- A variable may be brought in by a key that is not in the list: `y` is sent to a formula without
variables and `x` does not occur, but `p` is sent to `x`. -/
theorem variables_brought_in :
    ¬ ∀ (φ : Formula) (m : Map) (vars : List Formula), (∀ key ∈ m.keys, key.IsAtomic) →
      (∀ v ∈ vars, v.IsAtomic) →
      (∀ v ∈ vars, φ.contains v = true → ∃ image, m.get? v = some image ∧ image.FreeOf vars) →
      (φ.substitute m).FreeOf vars := by
  intro h
  let m : Map := .ofDistinct [(y, q), (p, x)] (by decide)
  have hvariables : ∀ v ∈ [x, y], (implies y p).contains v = true →
      ∃ image, m.get? v = some image ∧ image.FreeOf [x, y] := by
    intro v hv hoccurs
    obtain rfl | rfl : v = x ∨ v = y := by simpa using hv
    · exact absurd hoccurs (by decide)
    · exact ⟨q, by decide, by decide⟩
  have hfree : ((implies y p).substitute m).FreeOf [x, y] :=
    h (implies y p) m [x, y] (by decide) (by decide) hvariables
  exact absurd hfree (by decide)

end Formula

end Deduction
