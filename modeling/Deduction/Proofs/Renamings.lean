import Deduction.Proofs.Acceptance
import Deduction.Proofs.ObtainableValues
import Deduction.Proofs.Relabeling

/-!
# Renamings

A formula is renamed from its terms up, and a node is checked when its terms are done.  So the nodes
are checked from below (`Formula.postorder`), and to rename a formula is to check its nodes in this
order and then to change all connectives at once (`Formula.rename_eq_forM`).  What stops a renaming
is the first node from below whose new connective does not take its number of terms.

The check of a node depends on its new connective and on its number of terms, and a change of
connectives keeps the number of terms.  Hence a formula with changed connectives is renamed like the
formula itself, with the same result or the same error (`Formula.rename_mapConnectives`).  The law
of composition is the case where the first change was a renaming that succeeded.  If the first
renaming fails, the composite may still succeed.
-/

namespace Deduction

namespace Formula

variable {ρ : Renaming} {φ ψ : Formula} {e : SyntaxError}

/-! ## Changing connectives -/

mutual

/-- The formula with every connective changed, without a look at the numbers of terms. -/
def mapConnectives (ρ : Renaming) : Formula → Formula
  | .node c ts => .node (ρ c) (mapConnectivesList ρ ts)

/-- The formulas of a list with every connective changed. -/
def mapConnectivesList (ρ : Renaming) : List Formula → List Formula
  | [] => []
  | t :: ts => t.mapConnectives ρ :: mapConnectivesList ρ ts

end

theorem mapConnectivesList_eq_map (ρ : Renaming) (ts : List Formula) :
    mapConnectivesList ρ ts = ts.map (mapConnectives ρ) := by
  induction ts with
  | nil => rfl
  | cons t ts ih => rw [mapConnectivesList, ih, List.map_cons]

@[simp] theorem mapConnectives_node (ρ : Renaming) (c : Connective) (ts : List Formula) :
    (node c ts).mapConnectives ρ = node (ρ c) (ts.map (mapConnectives ρ)) := by
  rw [mapConnectives, mapConnectivesList_eq_map]

theorem mapConnectives_id (φ : Formula) : φ.mapConnectives id = φ := by
  induction φ with
  | node c ts ih => rw [mapConnectives_node, List.map_congr_left ih, List.map_id', id]

/-- The nodes stay where they are and keep their numbers of terms. -/
theorem map_preorder_mapConnectives (ρ : Renaming) (φ : Formula) :
    (φ.mapConnectives ρ).preorder.map (fun χ => (χ.connective, χ.terms.length)) =
      φ.preorder.map fun χ => (ρ χ.connective, χ.terms.length) := by
  induction φ with
  | node c ts ih =>
    rw [mapConnectives_node, preorder_node, preorder_node, List.map_cons, List.map_cons,
      preorderList_eq_flatMap, preorderList_eq_flatMap, List.map_flatMap, List.map_flatMap,
      List.flatMap_map, List.flatMap_congr ih]
    simp

/-! ## Nodes from below -/

mutual

/-- The nodes, each after those below it, and the terms from left to right. -/
def postorder : Formula → List Formula
  | .node c ts => postorderList ts ++ [.node c ts]

/-- The nodes of the formulas of a list, in the order of the list. -/
def postorderList : List Formula → List Formula
  | [] => []
  | t :: ts => t.postorder ++ postorderList ts

end

theorem postorder_node (c : Connective) (ts : List Formula) :
    (node c ts).postorder = ts.flatMap postorder ++ [node c ts] := by
  have hterms : postorderList ts = ts.flatMap postorder := by
    induction ts with
    | nil => rfl
    | cons t ts ih => rw [postorderList, ih, List.flatMap_cons]
  rw [postorder, hterms]

/-- The nodes from below are the subformulas. -/
theorem mem_postorder {χ : Formula} : χ ∈ φ.postorder ↔ χ ∈ φ.preorder := by
  induction φ with
  | node c ts ih =>
    have hterms : χ ∈ ts.flatMap postorder ↔ χ ∈ preorderList ts := by
      rw [List.mem_flatMap, mem_preorderList]
      exact exists_congr fun t => and_congr_right fun ht => ih t ht
    rw [postorder_node, preorder_node, List.mem_append, List.mem_singleton, List.mem_cons, hterms,
      or_comm]

/-! ## The order of the checks -/

/-- Refuses a node whose new connective does not take its number of terms. -/
def checkNode (ρ : Renaming) (χ : Formula) : Except SyntaxError Unit :=
  if (ρ χ.connective).arity.Admits χ.terms.length then .ok ()
  else .error (.arityMismatch (ρ χ.connective) χ.terms.length)

theorem checkNode_eq_ok {χ : Formula} :
    checkNode ρ χ = .ok () ↔ (ρ χ.connective).arity.Admits χ.terms.length := by
  rw [checkNode]
  split <;> simp [*]

theorem checkNode_eq_error {χ : Formula} :
    checkNode ρ χ = .error e ↔ ¬ (ρ χ.connective).arity.Admits χ.terms.length ∧
      e = .arityMismatch (ρ χ.connective) χ.terms.length := by
  rw [checkNode]
  split <;> simp [*, eq_comm]

/-- To make the node again from its changed terms is to check it and then to change it. -/
theorem apply_mapConnectives (ρ : Renaming) (c : Connective) (ts : List Formula) :
    (ρ c).apply (ts.map (mapConnectives ρ)) =
      (do checkNode ρ (node c ts); return (node c ts).mapConnectives ρ) := by
  rw [Connective.apply, checkNode, List.length_map, mapConnectives_node, connective_node,
    terms_node]
  split
  · rfl
  · rfl

theorem renameList_eq_mapM (ρ : Renaming) (ts : List Formula) :
    renameList ρ ts = ts.mapM (rename ρ) := by
  induction ts with
  | nil => rfl
  | cons t ts ih => rw [renameList, ih, List.mapM_cons]

theorem rename_node (ρ : Renaming) (c : Connective) (ts : List Formula) :
    (node c ts).rename ρ = (do (ρ c).apply (← ts.mapM (rename ρ))) := by
  rw [rename, renameList_eq_mapM]

/-- Renaming checks the nodes from below and changes all connectives if none is refused. -/
theorem rename_eq_forM (ρ : Renaming) (φ : Formula) :
    φ.rename ρ = (do forM φ.postorder (checkNode ρ); return φ.mapConnectives ρ) := by
  induction φ with
  | node c ts ih =>
    have hterms : ts.mapM (rename ρ) =
        (do forM (ts.flatMap postorder) (checkNode ρ); return ts.map (mapConnectives ρ)) := by
      clear c
      induction ts with
      | nil => rfl
      | cons t ts ihts =>
        obtain ⟨ht, hts⟩ := List.forall_mem_cons.mp ih
        rw [List.mapM_cons, ht, ihts hts, List.flatMap_cons, List.forM_append]
        simp
    rw [rename_node, hterms, postorder_node, List.forM_append]
    simp [apply_mapConnectives]

/-- A formula can be renamed exactly when no node is refused, and what it is renamed to has the new
connectives at its nodes. -/
theorem rename_eq_ok_iff : φ.rename ρ = .ok ψ ↔
    (∀ χ ∈ φ.preorder, (ρ χ.connective).arity.Admits χ.terms.length) ∧ φ.mapConnectives ρ = ψ := by
  have hchecks : forM φ.postorder (checkNode ρ) = .ok () ↔
      ∀ χ ∈ φ.preorder, (ρ χ.connective).arity.Admits χ.terms.length := by
    simp only [forM_eq_ok_iff, checkNode_eq_ok, mem_postorder]
  rw [rename_eq_forM, except_bind_eq_ok, ← hchecks]
  constructor
  · rintro ⟨⟨⟩, hnodes, hψ⟩
    exact ⟨hnodes, Except.ok.inj hψ⟩
  · rintro ⟨hnodes, rfl⟩
    exact ⟨(), hnodes, rfl⟩

theorem relabel_eq_mapConnectives (ρ : Relabeling) (φ : Formula) :
    φ.relabel ρ = φ.mapConnectives ρ := by
  induction φ with
  | node c ts ih => rw [relabel_node, mapConnectives_node, List.map_congr_left ih]

/-- A relabeling keeps all arities.  So by a relabeling exactly the well-formed formulas can be
renamed, and renaming one is relabeling it. -/
theorem rename_eq_ok {ρ : Relabeling} :
    φ.rename ρ = .ok ψ ↔ φ.WellFormed ∧ φ.relabel ρ = ψ := by
  rw [rename_eq_ok_iff, relabel_eq_mapConnectives, wellFormed_iff, subformulas_eq_preorder]
  simp only [ρ.arity]

/-- Renaming fails with the error of the first node from below that is refused. -/
theorem rename_eq_error_iff : φ.rename ρ = .error e ↔
    ∃ (i : Nat) (χ : Formula), φ.postorder[i]? = some χ ∧
      (∀ j χ', j < i → φ.postorder[j]? = some χ' →
        (ρ χ'.connective).arity.Admits χ'.terms.length) ∧
      ¬ (ρ χ.connective).arity.Admits χ.terms.length ∧
      e = .arityMismatch (ρ χ.connective) χ.terms.length := by
  have hchecks : φ.rename ρ = .error e ↔ forM φ.postorder (checkNode ρ) = .error e := by
    rw [rename_eq_forM, except_bind_eq_error]
    simp [pure, Except.pure]
  simp only [hchecks, forM_eq_error_iff, checkNode_eq_ok, checkNode_eq_error]

/-! ## Renamings in a row -/

theorem mapConnectives_mapConnectives (ρ σ : Renaming) (φ : Formula) :
    (φ.mapConnectives ρ).mapConnectives σ = φ.mapConnectives (σ ∘ ρ) := by
  induction φ with
  | node c ts ih =>
    have hterms : (ts.map (mapConnectives ρ)).map (mapConnectives σ) =
        ts.map (mapConnectives (σ ∘ ρ)) := by
      rw [List.map_map]
      exact List.map_congr_left ih
    rw [mapConnectives_node, mapConnectives_node, mapConnectives_node, hterms, Function.comp_apply]

theorem postorder_mapConnectives (ρ : Renaming) (φ : Formula) :
    (φ.mapConnectives ρ).postorder = φ.postorder.map (mapConnectives ρ) := by
  induction φ with
  | node c ts ih =>
    rw [mapConnectives_node, postorder_node, postorder_node, List.flatMap_map, List.map_append,
      List.map_flatMap, List.flatMap_congr ih, List.map_singleton, mapConnectives_node]

/-- What a node is checked for is its number of terms, which is the same after a change. -/
theorem checkNode_mapConnectives (ρ σ : Renaming) (χ : Formula) :
    checkNode σ (χ.mapConnectives ρ) = checkNode (σ ∘ ρ) χ := by
  obtain ⟨c, ts⟩ := χ
  rw [checkNode, checkNode, mapConnectives_node, connective_node, terms_node, List.length_map]
  rfl

/-- A formula with changed connectives is renamed like the formula itself. -/
theorem rename_mapConnectives (ρ σ : Renaming) (φ : Formula) :
    (φ.mapConnectives ρ).rename σ = φ.rename (σ ∘ ρ) := by
  have hchecks : forM (φ.mapConnectives ρ).postorder (checkNode σ) =
      forM φ.postorder (checkNode (σ ∘ ρ)) := by
    rw [postorder_mapConnectives, List.forM_map]
    simp only [checkNode_mapConnectives]
  rw [rename_eq_forM, rename_eq_forM, hchecks, mapConnectives_mapConnectives]

open Propositional in
-- Both renamings at once may succeed where the first one does not.
example :
    let first := Renaming.firstOf [((both p q).connective, p.connective)]
    let second := Renaming.firstOf [(p.connective, (implies p q).connective)]
    (both q r).rename first = .error (.arityMismatch p.connective 2) ∧
      (both q r).rename (second ∘ first) = .ok (implies q r) := by
  decide

/-- A renaming that changes nothing returns the formulas that can be obtained, and no others. -/
theorem rename_id_eq_ok : φ.rename id = .ok φ ↔ Obtainable φ := by
  rw [rename_eq_ok_iff, mapConnectives_id, obtainable_iff, wellFormed_iff, subformulas_eq_preorder]
  exact and_iff_left rfl

/-- A formula can be renamed exactly when at each node the new connective takes the number of terms
that the node has.  The result has the shape of the formula, with the new connectives.  Otherwise
the error is about the first node that is refused, listed from below.

A formula that was renamed can be renamed further, and that succeeds and fails as renaming by both
at once does.  The renaming that changes nothing returns every formula that can be obtained. -/
theorem rename_lawful (φ : Formula) (ρ : Renaming) :
    ((∃ ψ, φ.rename ρ = .ok ψ) ↔
      ∀ χ ∈ φ.subformulas, (ρ χ.connective).arity.Admits χ.terms.length) ∧
    (∀ ψ, φ.rename ρ = .ok ψ → ψ = φ.mapConnectives ρ ∧
      ψ.subformulas.map (fun χ => (χ.connective, χ.terms.length)) =
        φ.subformulas.map (fun χ => (ρ χ.connective, χ.terms.length))) ∧
    (∀ e, φ.rename ρ = .error e ↔
      ∃ (i : Nat) (χ : Formula), φ.postorder[i]? = some χ ∧
        (∀ j χ', j < i → φ.postorder[j]? = some χ' →
          (ρ χ'.connective).arity.Admits χ'.terms.length) ∧
        ¬ (ρ χ.connective).arity.Admits χ.terms.length ∧
        e = .arityMismatch (ρ χ.connective) χ.terms.length ∧ e.code = "SYN-001") ∧
    (∀ ψ, φ.rename ρ = .ok ψ → ∀ σ : Renaming, ψ.rename σ = φ.rename fun c => σ (ρ c)) ∧
    (φ.rename (fun c => c) = .ok φ ↔ Obtainable φ) := by
  simp only [subformulas_eq_preorder]
  refine ⟨?_, fun ψ hψ => ?_, fun e => ?_, fun ψ hψ σ => ?_, rename_id_eq_ok⟩
  · simp [rename_eq_ok_iff]
  · obtain ⟨-, rfl⟩ := rename_eq_ok_iff.mp hψ
    exact ⟨rfl, map_preorder_mapConnectives ρ φ⟩
  · rw [rename_eq_error_iff]
    constructor
    · rintro ⟨i, χ, hi, hbefore, hrefused, rfl⟩
      exact ⟨i, χ, hi, hbefore, hrefused, rfl, rfl⟩
    · rintro ⟨i, χ, hi, hbefore, hrefused, he, -⟩
      exact ⟨i, χ, hi, hbefore, hrefused, he⟩
  · obtain ⟨-, rfl⟩ := rename_eq_ok_iff.mp hψ
    exact rename_mapConnectives ρ σ φ

open Propositional in
/-- The second renaming gives two nodes a connective without terms.  The error is about the lower
one, and it is the same if both renamings are carried out at once. -/
theorem rename_lawful_refused :
    let first := Renaming.lastOf [(p.connective, q.connective), (p.connective, r.connective)]
    let second := Renaming.firstOf
      [((implies p q).connective, q.connective), ((both p q).connective, s.connective)]
    let φ := both p (implies p q)
    let ψ := both r (implies r q)
    φ.rename first = .ok ψ ∧
    ψ.rename second = .error (.arityMismatch q.connective 2) ∧
    (∃ (i : Nat) (χ : Formula), ψ.postorder[i]? = some χ ∧ second χ.connective = q.connective ∧
      ∀ j χ', j < i → ψ.postorder[j]? = some χ' →
        (second χ'.connective).arity.Admits χ'.terms.length) ∧
    φ.rename (fun c => second (first c)) = .error (.arityMismatch q.connective 2) ∧
    Obtainable φ := by
  intro first second φ ψ
  have hfirst : φ.rename first = .ok ψ := by decide
  have hsecond : ψ.rename second = .error (.arityMismatch q.connective 2) := by decide
  have hsame : φ.rename (fun c => c) = .ok φ := by decide
  obtain ⟨-, -, -, hcomposes, hid⟩ := rename_lawful φ first
  obtain ⟨-, -, herror, -⟩ := rename_lawful ψ second
  obtain ⟨i, χ, hi, hbefore, -, he, -⟩ := (herror _).mp hsecond
  obtain ⟨hconnective, -⟩ := SyntaxError.arityMismatch.inj he
  exact ⟨hfirst, hsecond, ⟨i, χ, hi, hconnective.symm, hbefore⟩,
    (hcomposes ψ hfirst second).symm.trans hsecond, hid.mp hsame⟩

end Formula

end Deduction
