import Deduction.Proofs.Collections
import Deduction.Substitution

/-!
# Laws of substitution

What a substitution makes of a formula depends on the images of its subformulas only
(`Formula.replace_congr`).  The subformulas are those of the recursive listing
`Formula.preorder`, which is also the order that matching goes by.
-/

namespace Deduction

namespace Formula

/-! ## Subformulas -/

theorem preorder_node (c : Connective) (ts : List Formula) :
    (node c ts).preorder = node c ts :: preorderList ts := by
  rw [preorder]

theorem mem_preorder_self (φ : Formula) : φ ∈ φ.preorder := by
  cases φ with
  | node c ts => simp [preorder_node]

theorem mem_preorderList {ψ : Formula} {ts : List Formula} :
    ψ ∈ preorderList ts ↔ ∃ t ∈ ts, ψ ∈ t.preorder := by
  induction ts with
  | nil => simp [preorderList]
  | cons t ts ih => simp [preorderList, ih]

/-- The subformulas of a term are subformulas. -/
theorem mem_preorder_of_term {ψ t : Formula} {c : Connective} {ts : List Formula} (ht : t ∈ ts)
    (h : ψ ∈ t.preorder) : ψ ∈ (node c ts).preorder := by
  rw [preorder_node]
  exact List.mem_cons_of_mem _ (mem_preorderList.mpr ⟨t, ht, h⟩)

theorem contains_eq_false_iff {φ ψ : Formula} : φ.contains ψ = false ↔ ψ ∉ φ.preorder := by
  rw [← contains_iff_mem_preorder, Bool.not_eq_true]

/-! ## Images of subformulas -/

theorem replace_node (image : Lookup) (c : Connective) (ts : List Formula) :
    (node c ts).replace image = (image (node c ts)).getD (node c (ts.map (replace image))) := by
  rw [replace, replaceList_eq_map]
  split <;> simp [*]

/-- Lookups that agree on the subformulas of a formula replace it by the same formula. -/
theorem replace_congr {f g : Lookup} {φ : Formula} (h : ∀ χ ∈ φ.preorder, f χ = g χ) :
    φ.replace f = φ.replace g := by
  induction φ with
  | node c ts ih =>
    have hterms : ts.map (replace f) = ts.map (replace g) := by
      apply List.map_congr_left
      intro t ht
      exact ih t ht fun χ hχ => h χ (mem_preorder_of_term ht hχ)
    rw [replace_node, replace_node, h _ (mem_preorder_self _), hterms]

/-- A map that binds more than another does the same to a formula, unless the formula contains
something that only the first binds. -/
theorem substitute_of_subset {m n : Map} {φ : Formula} (hsub : m.pairs ⊆ n.pairs)
    (h : ∀ χ ∈ φ.preorder, χ ∈ n.keys → χ ∈ m.keys) : φ.substitute n = φ.substitute m := by
  apply replace_congr
  intro χ hχ
  cases hm : m.get? χ with
  | some image => exact Map.get?_mono hsub hm
  | none =>
    have hkey : χ ∉ m.keys := Map.get?_eq_none.mp hm
    exact Map.get?_eq_none.mpr fun hn => hkey (h χ hχ hn)

/-! ## What occurs after a substitution -/

/-- What is atomic and occurs after a substitution has stayed where it was or came with the image of
a key that occurred before. -/
theorem mem_preorder_substitute {v φ : Formula} {m : Map} (hv : v.IsAtomic)
    (h : v ∈ (φ.substitute m).preorder) :
    (v ∈ φ.preorder ∧ v ∉ m.keys) ∨ ∃ p ∈ m.pairs, p.1 ∈ φ.preorder ∧ v ∈ p.2.preorder := by
  induction φ with
  | node c ts ih =>
    rw [substitute_node] at h
    cases hget : m.get? (node c ts) with
    | some image =>
      rw [hget, Option.getD_some] at h
      exact .inr ⟨_, Map.get?_eq_some.mp hget, mem_preorder_self _, h⟩
    | none =>
      rw [hget, Option.getD_none, preorder_node, List.mem_cons] at h
      rcases h with rfl | h
      · obtain rfl : ts = [] := by simpa [IsAtomic] using hv
        exact .inl ⟨mem_preorder_self _, Map.get?_eq_none.mp hget⟩
      · obtain ⟨u, hu, hvu⟩ := mem_preorderList.mp h
        obtain ⟨t, ht, rfl⟩ := List.mem_map.mp hu
        obtain ⟨hstays, hfree⟩ | ⟨p, hp, hkey, himage⟩ := ih t ht hvu
        · exact .inl ⟨mem_preorder_of_term ht hstays, hfree⟩
        · exact .inr ⟨p, hp, mem_preorder_of_term ht hkey, himage⟩

/-- With atomic keys, what a substitution makes of a subformula occurs in what it makes of the
formula: nothing above the subformula is replaced. -/
theorem preorder_substitute_subset {φ ψ : Formula} {m : Map} (hatomic : ∀ k ∈ m.keys, k.IsAtomic)
    (h : ψ ∈ φ.preorder) : (ψ.substitute m).preorder ⊆ (φ.substitute m).preorder := by
  induction φ with
  | node c ts ih =>
    rw [preorder_node, List.mem_cons] at h
    rcases h with rfl | h
    · exact fun _ h => h
    · obtain ⟨t, ht, hψ⟩ := mem_preorderList.mp h
      have hnone : m.get? (node c ts) = none := by
        rw [Map.get?_eq_none]
        intro hkey
        obtain rfl : ts = [] := hatomic _ hkey
        simp at ht
      intro χ hχ
      rw [substitute_node, hnone, Option.getD_none]
      exact mem_preorder_of_term (List.mem_map_of_mem ht) (ih t ht hψ hχ)

theorem substitute_atomic {φ : Formula} (hφ : φ.IsAtomic) (m : Map) :
    φ.substitute m = (m.get? φ).getD φ := by
  obtain ⟨c, ts⟩ := φ
  obtain rfl : ts = [] := hφ
  simp [substitute_node]

/-- The image of a key that occurs in the formula occurs after the substitution. -/
theorem preorder_image_subset {φ key image : Formula} {m : Map}
    (hatomic : ∀ k ∈ m.keys, k.IsAtomic) (hget : m.get? key = some image)
    (hkey : key ∈ φ.preorder) : image.preorder ⊆ (φ.substitute m).preorder := by
  have himage : key.substitute m = image := by
    rw [substitute_atomic (hatomic key (Map.mem_keys_of_get? hget)), hget, Option.getD_some]
  exact himage ▸ preorder_substitute_subset hatomic hkey

/-- What is atomic and no key stays where it is. -/
theorem mem_preorder_substitute_of_notMem {v φ : Formula} {m : Map}
    (hatomic : ∀ k ∈ m.keys, k.IsAtomic) (hv : v.IsAtomic) (hfree : v ∉ m.keys)
    (h : v ∈ φ.preorder) : v ∈ (φ.substitute m).preorder := by
  have hstays : v.substitute m = v := by
    rw [substitute_atomic hv, Map.get?_eq_none.mpr hfree, Option.getD_none]
  exact preorder_substitute_subset hatomic h (hstays.symm ▸ mem_preorder_self v)

end Formula

end Deduction
