import Deduction.Proofs.NodeStore
import Deduction.Sharing.Kept

/-!
# Parts beside formulas

What an object keeps is a tree of nodes, and two things could go wrong with it: a node could be one
of another formula than the part has, and the nodes of the parts could be others than the terms of
the object's node.  `Kept.Represents` excludes both.  It is what every operation on objects has to
establish, and since new objects are only made on what their parts keep
(`Kept.structural_places`), it comes down to the nodes being stored.
-/

namespace Deduction

theorem exists_of_rel_some {α β : Type} {R : α → β → Prop} {a? : Option α} {b : β}
    (h : Option.Rel R a? (some b)) : ∃ a, a? = some a ∧ R a b := by
  cases h with
  | some h => exact ⟨_, rfl, h⟩

/-- Lists that are related one by one are related at each index. -/
theorem forall₂_getElem? {α β : Type} {R : α → β → Prop} {as : List α} {bs : List β}
    (h : List.Forall₂ R as bs) (i : Nat) : Option.Rel R as[i]? bs[i]? := by
  induction h generalizing i with
  | nil => exact .none
  | cons h _ ih =>
    cases i with
    | zero => exact .some h
    | succ i => exact ih i

namespace Kept

variable {ν : Type} {σ σ' : Store}

/-- What holds of an object whenever it holds of all its parts holds of every object. -/
@[elab_as_elim, induction_eliminator]
theorem induct {motive : Kept ν → Prop}
    (mk : ∀ root parts, (∀ k ∈ parts, motive k) → motive (.mk root parts)) (k : Kept ν) :
    motive k :=
  @Kept.rec ν motive (fun parts => ∀ k ∈ parts, motive k)
    mk (by simp) (fun _ _ hk hparts => by simpa using ⟨hk, hparts⟩) k

/-- The nodes are those of the formulas, part by part, and the nodes of the parts are the last terms
of the object's node. -/
inductive Represents (σ : Store) : Kept Node → Kept Formula → Prop
  | mk {n : Node} {φ : Formula} {ks : List (Kept Node)} {os : List (Kept Formula)}
      (node : n.Represents σ φ) (terms : ks.map root <:+ n.terms)
      (parts : List.Forall₂ (Represents σ) ks os) : Represents σ (.mk n ks) (.mk φ os)

variable {k : Kept Node} {o : Kept Formula}

theorem Represents.node (h : k.Represents σ o) : k.root.Represents σ o.root := by
  obtain ⟨node, -, -⟩ := h
  exact node

theorem Represents.terms (h : k.Represents σ o) : k.parts.map root <:+ k.root.terms := by
  obtain ⟨-, terms, -⟩ := h
  exact terms

theorem Represents.parts (h : k.Represents σ o) :
    List.Forall₂ (Represents σ) k.parts o.parts := by
  obtain ⟨-, -, parts⟩ := h
  exact parts

theorem Represents.bare {n : Node} {φ : Formula} (h : n.Represents σ φ) :
    (bare n).Represents σ (bare φ) :=
  .mk h (List.nil_suffix) .nil

theorem Represents.mono (h : k.Represents σ o) (hσ : σ <+: σ') : k.Represents σ' o := by
  induction k generalizing o with
  | mk n ks ih =>
    obtain ⟨node, terms, parts⟩ := h
    have hparts := (List.forall₂_and_left _ _).mpr ⟨ih, parts⟩
    exact .mk (node.mono hσ) terms (hparts.imp fun k o hk => hk.1 hk.2)

theorem forall₂_mono {ks : List (Kept Node)} {os : List (Kept Formula)}
    (h : List.Forall₂ (Represents σ) ks os) (hσ : σ <+: σ') :
    List.Forall₂ (Represents σ') ks os :=
  h.imp fun _ _ hk => hk.mono hσ

/-- The part at an index is represented where the object is. -/
theorem Represents.part {p : Kept Formula} (h : k.Represents σ o) (index : Nat)
    (hp : o.parts[index]? = some p) : (k.part index).Represents σ p := by
  have hpart := forall₂_getElem? h.parts index
  rw [hp] at hpart
  obtain ⟨l, hl, hpart⟩ := exists_of_rel_some hpart
  rwa [Kept.part, List.getD_eq_getElem?_getD, hl]

theorem parts_eq_map_part (k : Kept ν) : k.parts = (List.range k.parts.length).map k.part := by
  refine List.ext_getElem (by simp) fun i hi _ => ?_
  rw [List.getElem_map, List.getElem_range, part, List.getD_eq_getElem?_getD,
    List.getElem?_eq_getElem hi, Option.getD_some]

/-- The terms of the object's node end with the nodes of its parts. -/
theorem Represents.terms_eq (h : k.Represents σ o) :
    k.root.terms = k.root.terms.take (o.root.terms.length - o.parts.length) ++
      (List.range o.parts.length).map fun i => (k.part i).root := by
  have hsuffix := List.suffix_iff_eq_append.mp h.terms
  have hparts : k.parts.length = o.parts.length := h.parts.length_eq
  have hterms : k.root.terms.length = o.root.terms.length := h.node.terms.length_eq
  rw [parts_eq_map_part k] at hsuffix
  simpa [hparts, hterms, Function.comp_def] using hsuffix.symm

/-- The nodes of what is kept are nodes of the formulas, one by one. -/
theorem representAll_root {ks : List (Kept Node)} {os : List (Kept Formula)}
    (h : List.Forall₂ (Represents σ) ks os) :
    Node.RepresentAll σ (ks.map root) (os.map root) :=
  List.forall₂_map_left_iff.mpr (List.forall₂_map_right_iff.mpr (h.imp fun _ _ hk => hk.node))

theorem bare_places {x : Supply Node} {φ : Formula}
    (h : Supply.Places σ x fun σ' n => n.Represents σ' φ) :
    Supply.Places σ (Kept.bare <$> x) fun σ' k => k.Represents σ' (.bare φ) :=
  h.bind fun _ _ _ hn => .pure (.bare hn)

theorem structural_places (kind : Structure) {ks : List (Kept Node)} {os : List (Kept Formula)}
    (h : List.Forall₂ (Represents σ) ks os) :
    Supply.Places σ (structural kind ks) fun σ' k =>
      k.Represents σ' (.mk (.structural kind (os.map root)) os) := by
  refine (Node.make_places_on _ (representAll_root h)).bind fun σ' n hσ' hn => ?_
  exact .pure (.mk hn.1 (hn.2 ▸ List.suffix_rfl) (forall₂_mono h hσ'))

theorem provedTheorem_places {n : Node} {φ : Formula} (hn : n.Represents σ φ)
    (hk : k.Represents σ o) :
    Supply.Places σ (provedTheorem n k) fun σ' l =>
      l.Represents σ' (.mk (.structural .provedTheorem [φ, o.root]) [o]) := by
  have hterms : Node.RepresentAll σ [n, k.root] [φ, o.root] := .cons hn (.cons hk.node .nil)
  refine (Node.make_places_on _ hterms).bind fun σ' m hσ' hm => ?_
  exact .pure (.mk hm.1 (hm.2 ▸ List.suffix_cons n _) (.cons (hk.mono hσ') .nil))

end Kept

/-! ## Objects -/

open Object (outline)

theorem Map.outline_eq (m : Map) :
    outline m = .mk (.structural .map [m.domain.formula, m.codomain.formula])
      [outline m.domain, outline m.codomain] :=
  congrArg (Kept.mk · _) m.formula_eq

theorem Derivation.map_root_outline (ds : List Derivation) :
    (ds.map outline).map Kept.root = ds.map (·.formula) := by
  rw [List.map_map]
  exact List.map_congr_left fun d _ => Object.formula_derivation d

end Deduction
