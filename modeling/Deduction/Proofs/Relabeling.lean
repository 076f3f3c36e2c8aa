import Mathlib.Data.List.Nodup
import Mathlib.Logic.Equiv.Basic
import Mathlib.Tactic.Simps.Basic
import Deduction.Proofs.Matching
import Deduction.Renaming
import Deduction.Transformation

/-!
# Relabeling formulas

A relabeling puts connectives in the place of connectives.  It is injective and keeps the structural
connectives and every arity, so declared connectives stay declared; identities, labels and styles
may change.  `Formula.relabel` applies one to every node.  Unlike `Formula.rename` it checks
nothing, and on the formulas that renaming accepts the two agree (`Formula.rename_eq_ok`).

This file takes the operations on formulas through a relabeling, up to the application of
transformations.  Every equation has the same form: what an operation makes of relabeled inputs is
the image of what it makes of the inputs.  The image of a result is taken in its value and in its
error (`mapResult`), so the equations also say which errors come out.
-/

namespace Deduction

/-- An injective change of connectives that keeps the structural ones and all arities. -/
structure Relabeling where
  /-- The connective that takes the place of a connective. -/
  toRenaming : Renaming
  injective : Function.Injective toRenaming
  structural (kind : Structure) : toRenaming (.structural kind) = .structural kind
  arity (c : Connective) : (toRenaming c).arity = c.arity

instance : CoeFun Relabeling fun _ => Renaming := ⟨Relabeling.toRenaming⟩

attribute [simp] Relabeling.structural Relabeling.arity

/-- The relabeling that exchanges two declared connectives of the same arity. -/
def Relabeling.swap (c d : Connective) (hc : c.kind? = none) (hd : d.kind? = none)
    (harity : c.arity = d.arity) : Relabeling where
  toRenaming := Equiv.swap c d
  injective := (Equiv.swap c d).injective
  structural kind := by
    apply Equiv.swap_apply_of_ne_of_ne
    · rintro rfl
      simp [Connective.kind?] at hc
    · rintro rfl
      simp [Connective.kind?] at hd
  arity e := by
    by_cases hec : e = c
    · rw [hec, Equiv.swap_apply_left, harity]
    · by_cases hed : e = d
      · rw [hed, Equiv.swap_apply_right, harity]
      · rw [Equiv.swap_apply_of_ne_of_ne hec hed]

variable {ρ : Relabeling}

/-! ## Results -/

section Results

variable {α β γ δ ε ε' : Type}

/-- The image of a result, whose error is sent on by `f` and whose value by `g`. -/
def mapResult (f : ε → ε') (g : α → β) : Except ε α → Except ε' β
  | .error e => .error (f e)
  | .ok a => .ok (g a)

@[simp] theorem mapResult_error (f : ε → ε') (g : α → β) (e : ε) :
    mapResult f g (.error e) = .error (f e) := rfl

@[simp] theorem mapResult_ok (f : ε → ε') (g : α → β) (a : α) :
    mapResult f g (.ok a) = .ok (g a) := rfl

/-- To go on with the image of a result is to take the image of what the result goes on with. -/
theorem mapResult_bind {f : ε → ε'} {g : α → β} {h : γ → δ} {x : Except ε α} {k : α → Except ε γ}
    {k' : β → Except ε' δ} (hk : ∀ a, k' (g a) = mapResult f h (k a)) :
    mapResult f g x >>= k' = mapResult f h (x >>= k) := by
  cases x with
  | error e => rfl
  | ok a => exact hk a

end Results

/-! ## Formulas -/

namespace Formula

mutual

/-- The formula with every connective relabeled. -/
def relabel (ρ : Relabeling) : Formula → Formula
  | .node c ts => .node (ρ c) (relabelList ρ ts)

/-- The formulas of a list with every connective relabeled. -/
def relabelList (ρ : Relabeling) : List Formula → List Formula
  | [] => []
  | t :: ts => t.relabel ρ :: relabelList ρ ts

end

theorem relabelList_eq_map (ts : List Formula) : relabelList ρ ts = ts.map (relabel ρ) := by
  induction ts with
  | nil => rfl
  | cons t ts ih => simp [relabelList, ih]

@[simp] theorem relabel_node (c : Connective) (ts : List Formula) :
    (node c ts).relabel ρ = node (ρ c) (ts.map (relabel ρ)) := by
  rw [relabel, relabelList_eq_map]

@[simp] theorem relabel_structural (kind : Structure) (ts : List Formula) :
    (structural kind ts).relabel ρ = structural kind (ts.map (relabel ρ)) := by
  simp [structural]

theorem relabel_injective : Function.Injective (relabel ρ) := by
  intro φ
  induction φ with
  | node c ts ih =>
    rintro ⟨d, us⟩ h
    simp only [relabel_node, node.injEq] at h
    have hterms : ts = us := by
      obtain ⟨-, h⟩ := h
      induction ts generalizing us with
      | nil => simpa using h.symm
      | cons t ts ihts =>
        cases us with
        | nil => simp at h
        | cons u us =>
          obtain ⟨ht, hts⟩ := List.forall_mem_cons.mp ih
          obtain ⟨h, hrest⟩ := List.cons.inj h
          rw [ht h, ihts hts us hrest]
    rw [ρ.injective h.1, hterms]

@[simp] theorem relabel_inj {φ ψ : Formula} : φ.relabel ρ = ψ.relabel ρ ↔ φ = ψ :=
  relabel_injective.eq_iff

theorem mem_map_relabel {φ : Formula} {φs : List Formula} :
    φ.relabel ρ ∈ φs.map (relabel ρ) ↔ φ ∈ φs :=
  List.mem_map_of_injective relabel_injective

@[simp] theorem connective_relabel (φ : Formula) : (φ.relabel ρ).connective = ρ φ.connective := by
  cases φ; simp

@[simp] theorem terms_relabel (φ : Formula) : (φ.relabel ρ).terms = φ.terms.map (relabel ρ) := by
  cases φ; simp

@[simp] theorem isAtomic_relabel {φ : Formula} : (φ.relabel ρ).IsAtomic ↔ φ.IsAtomic := by
  simp [IsAtomic]

theorem preorder_relabel (φ : Formula) :
    (φ.relabel ρ).preorder = φ.preorder.map (relabel ρ) := by
  induction φ with
  | node c ts ih =>
    have hts : ∀ us : List Formula, us ⊆ ts →
        preorderList (us.map (relabel ρ)) = (preorderList us).map (relabel ρ) := by
      intro us hus
      induction us with
      | nil => rfl
      | cons u us ihus =>
        obtain ⟨hu, hus⟩ := List.cons_subset.mp hus
        simp [preorderList, ih u hu, ihus hus]
    simp [preorder_node, hts ts (List.Subset.refl ts)]

@[simp] theorem contains_relabel (φ ψ : Formula) :
    (φ.relabel ρ).contains (ψ.relabel ρ) = φ.contains ψ := by
  rw [Bool.eq_iff_iff, contains_iff_mem_preorder, contains_iff_mem_preorder, preorder_relabel,
    mem_map_relabel]

end Formula

/-! ## Collections -/

/-- The sequence of the relabeled elements. -/
@[simps] def Sequence.relabel (ρ : Relabeling) (s : Sequence) : Sequence where
  elements := s.elements.map (·.relabel ρ)

@[simp] theorem Sequence.formula_relabel (s : Sequence) :
    (s.relabel ρ).formula = s.formula.relabel ρ := by
  simp [formula]

/-- The enumeration of the relabeled elements. -/
@[simps] def Enumeration.relabel (ρ : Relabeling) (e : Enumeration) : Enumeration where
  elements := e.elements.map (·.relabel ρ)
  nodup := e.nodup.map Formula.relabel_injective

@[simp] theorem Enumeration.formula_relabel (e : Enumeration) :
    (e.relabel ρ).formula = e.formula.relabel ρ := by
  simp [formula]

namespace Map

/-- The map that sends the relabeled keys to the relabeled images. -/
def relabel (ρ : Relabeling) (m : Map) : Map :=
  assemble (m.domain.relabel ρ) (m.codomain.relabel ρ) (by simpa using m.aligned)

@[simp] theorem formula_relabel (m : Map) : (m.relabel ρ).formula = m.formula.relabel ρ := by
  simp [m.formula_eq, relabel, assemble]

@[simp] theorem empty_relabel : (empty : Map).relabel ρ = empty := rfl

@[simp] theorem keys_relabel (m : Map) : (m.relabel ρ).keys = m.keys.map (·.relabel ρ) := rfl

@[simp] theorem pairs_relabel (m : Map) :
    (m.relabel ρ).pairs = m.pairs.map (Prod.map (·.relabel ρ) (·.relabel ρ)) :=
  List.zip_map ..

@[simp] theorem get?_relabel (m : Map) (key : Formula) :
    (m.relabel ρ).get? (key.relabel ρ) = (m.get? key).map (·.relabel ρ) := by
  simp [get?_eq_find?, List.find?_map, Function.comp_def]

@[simp] theorem containsKey_relabel (m : Map) (key : Formula) :
    (m.relabel ρ).containsKey (key.relabel ρ) = m.containsKey key := by
  simp [containsKey]

@[simp] theorem withPair_relabel (m : Map) (key image : Formula) :
    (m.relabel ρ).withPair (key.relabel ρ) (image.relabel ρ) =
      (m.withPair key image).relabel ρ := by
  ext1
  simp [pairs_withPair, List.filter_map, Function.comp_def]

end Map

/-! ## Substitution and matching -/

/-- The error about the relabeled formulas. -/
def SyntaxError.relabel (ρ : Relabeling) : SyntaxError → SyntaxError
  | arityMismatch c given => .arityMismatch (ρ c) given
  | duplicate element first second => .duplicate (element.relabel ρ) first second
  | cardinality domain codomain => .cardinality domain codomain
  | unreadable expected φ => .unreadable expected (φ.relabel ρ)
  | notAtomic v => .notAtomic (v.relabel ρ)
  | variableOccurs v target => .variableOccurs (v.relabel ρ) (target.relabel ρ)
  | notVariable key => .notVariable (key.relabel ρ)
  | noImage key map => .noImage (key.relabel ρ) (map.relabel ρ)
  | notInvertible map image => .notInvertible (map.relabel ρ) (image.relabel ρ)
  | incomplete path => .incomplete path
  | ambiguous label => .ambiguous label

@[simp] theorem SyntaxError.code_relabel (e : SyntaxError) : (e.relabel ρ).code = e.code := by
  cases e <;> rfl

namespace Formula

/-- Lookups that correspond to each other replace corresponding formulas by corresponding
formulas. -/
theorem replace_relabel {f f' : Lookup} (h : ∀ ψ, f' (ψ.relabel ρ) = (f ψ).map (·.relabel ρ))
    (φ : Formula) : (φ.relabel ρ).replace f' = (φ.replace f).relabel ρ := by
  induction φ with
  | node c ts ih =>
    have hterms : (ts.map (relabel ρ)).map (replace f') = (ts.map (replace f)).map (relabel ρ) := by
      simp only [List.map_map]
      exact List.map_congr_left ih
    have hnode := h (node c ts)
    rw [relabel_node] at hnode
    rw [relabel_node, replace_node, replace_node, hnode, hterms]
    cases f (node c ts) <;> simp

@[simp] theorem substitute_relabel (φ : Formula) (m : Map) :
    (φ.relabel ρ).substitute (m.relabel ρ) = (φ.substitute m).relabel ρ :=
  replace_relabel m.get?_relabel φ

/-- The pairs of the relabeled keys and images. -/
abbrev relabelPairs (ρ : Relabeling) (pairs : List (Formula × Formula)) :
    List (Formula × Formula) :=
  pairs.map (Prod.map (·.relabel ρ) (·.relabel ρ))

theorem firstOf_relabel (pairs : List (Formula × Formula)) (φ : Formula) :
    Lookup.firstOf (relabelPairs ρ pairs) (φ.relabel ρ) =
      (Lookup.firstOf pairs φ).map (·.relabel ρ) := by
  simp [Lookup.firstOf, List.find?_map, Function.comp_def]

theorem unifyList_relabel {vars ps : List Formula}
    (h : ∀ p ∈ ps, ∀ t pairs,
      unify (vars.map (relabel ρ)) (p.relabel ρ) (t.relabel ρ) (relabelPairs ρ pairs) =
        (unify vars p t pairs).map (relabelPairs ρ))
    (ts : List Formula) (pairs : List (Formula × Formula)) :
    unifyList (vars.map (relabel ρ)) (ps.map (relabel ρ)) (ts.map (relabel ρ))
        (relabelPairs ρ pairs) =
      (unifyList vars ps ts pairs).map (relabelPairs ρ) := by
  induction ps generalizing ts pairs with
  | nil => cases ts <;> rfl
  | cons p ps ih =>
    obtain ⟨hp, hps⟩ := List.forall_mem_cons.mp h
    cases ts with
    | nil => rfl
    | cons t ts =>
      simp only [List.map_cons, unifyList, hp]
      cases unify vars p t pairs with
      | none => rfl
      | some pairs' => exact ih hps ts pairs'

theorem unify_relabel (vars : List Formula) (pattern target : Formula)
    (pairs : List (Formula × Formula)) :
    unify (vars.map (relabel ρ)) (pattern.relabel ρ) (target.relabel ρ) (relabelPairs ρ pairs) =
      (unify vars pattern target pairs).map (relabelPairs ρ) := by
  induction pattern generalizing target pairs with
  | node c ps ih =>
    -- The pattern is compared as a whole before its terms are looked at.
    have hvar : node (ρ c) (ps.map (relabel ρ)) ∈ vars.map (relabel ρ) ↔ node c ps ∈ vars := by
      rw [← relabel_node, mem_map_relabel]
    have hget : Lookup.firstOf (relabelPairs ρ pairs) (node (ρ c) (ps.map (relabel ρ))) =
        (Lookup.firstOf pairs (node c ps)).map (·.relabel ρ) := by
      rw [← relabel_node, firstOf_relabel]
    rw [relabel_node, unify, unify, hget]
    simp only [hvar, connective_relabel, terms_relabel, ρ.injective.eq_iff]
    by_cases hmem : node c ps ∈ vars
    · simp only [hmem, if_true]
      cases Lookup.firstOf pairs (node c ps) with
      | none => simp [relabelPairs, ← relabel_node]
      | some image => by_cases himage : image = target <;> simp [himage]
    · simp only [hmem, if_false]
      by_cases hc : target.connective = c
      · simp only [hc, if_true]
        exact unifyList_relabel ih _ pairs
      · simp [hc]

theorem variableError?_relabel (vars : List Formula) (target : Formula) :
    variableError? (vars.map (relabel ρ)) (target.relabel ρ) =
      (variableError? vars target).map (·.relabel ρ) := by
  rw [variableError?, variableError?, List.findSome?_map, List.map_findSome?]
  congr 1
  funext v
  by_cases hatomic : v.IsAtomic
  · by_cases hoccurs : target.contains v = true <;> simp [hatomic, hoccurs, SyntaxError.relabel]
  · simp [hatomic, SyntaxError.relabel]

/-- A match of relabeled formulas is the image of the match of the formulas. -/
theorem matchPattern_relabel (target pattern : Formula) (vars : List Formula) (m : Map) :
    (target.relabel ρ).matchPattern (pattern.relabel ρ) (vars.map (relabel ρ)) (m.relabel ρ) =
      mapResult (·.relabel ρ) (Option.map (·.relabel ρ)) (target.matchPattern pattern vars m) := by
  have hkey : (m.relabel ρ).keys.find? (· ∉ vars.map (relabel ρ)) =
      (m.keys.find? (· ∉ vars)).map (·.relabel ρ) := by
    simp only [Map.keys_relabel, List.find?_map, Function.comp_def, mem_map_relabel]
  rw [matchPattern, matchPattern, variableError?_relabel, hkey, Map.pairs_relabel, unify_relabel]
  cases variableError? vars target with
  | some e => rfl
  | none =>
    cases m.keys.find? (· ∉ vars) with
    | some key => rfl
    | none =>
      cases hunify : unify vars pattern target m.pairs with
      | none => rfl
      | some assigned =>
        obtain ⟨n, rfl⟩ := exists_map_of_unify hunify
        have hmap : Map.ofPairs n.pairs = .ok n := Map.ofPairs_eq_ok.mpr rfl
        have hrelabeled : Map.ofPairs (relabelPairs ρ n.pairs) = .ok (n.relabel ρ) :=
          Map.ofPairs_eq_ok.mpr n.pairs_relabel
        simp only [Option.map_some, hmap, hrelabeled]
        rfl

end Formula

/-! ## Transformations -/

/-- The error about the relabeled formulas. -/
def Error.relabel (ρ : Relabeling) : Error → Error
  | mismatch arguments transformation =>
    .mismatch (arguments.relabel ρ) (transformation.relabel ρ)
  | notDerived statement derived => .notDerived (statement.relabel ρ) (derived.relabel ρ)
  | premiseAbsent premise proved => .premiseAbsent (premise.relabel ρ) (proved.relabel ρ)
  | premisePosterior premise proved index position =>
    .premisePosterior (premise.relabel ρ) (proved.relabel ρ) index position
  | ruleAbsent rule proved => .ruleAbsent (rule.relabel ρ) (proved.relabel ρ)
  | rulePosterior rule proved index position =>
    .rulePosterior (rule.relabel ρ) (proved.relabel ρ) index position
  | premiseNotValid premise => .premiseNotValid (premise.relabel ρ)
  | notAxiomatic derivation => .notAxiomatic (derivation.relabel ρ)
  | unreadableOptions => .unreadableOptions
  | ofFormulas e => .ofFormulas (e.relabel ρ)

@[simp] theorem Error.code_relabel (e : Error) : (e.relabel ρ).code = e.code := by
  cases e <;> simp [relabel, code]

namespace Transformation

/-- The transformation between the relabeled patterns. -/
@[simps] def relabel (ρ : Relabeling) (t : Transformation) : Transformation where
  premises := t.premises.relabel ρ
  conclusion := t.conclusion.relabel ρ
  vars := t.vars.relabel ρ
  atomic := by simpa using t.atomic

@[simp] theorem formula_relabel (t : Transformation) :
    (t.relabel ρ).formula = t.formula.relabel ρ := by
  simp [formula]

theorem solve_relabel (vars premises arguments : List Formula) (m : Map) :
    solve (vars.map (·.relabel ρ)) (premises.map (·.relabel ρ)) (arguments.map (·.relabel ρ))
        (m.relabel ρ) =
      mapResult (·.relabel ρ) (Option.map (·.relabel ρ)) (solve vars premises arguments m) := by
  induction premises generalizing arguments m with
  | nil => cases arguments <;> rfl
  | cons p ps ih =>
    cases arguments with
    | nil => rfl
    | cons a as =>
      simp only [List.map_cons, solve, Formula.matchPattern_relabel]
      apply mapResult_bind
      rintro (_ | m')
      · rfl
      · exact ih as m'

/-- The relabeled transformation draws the image of the conclusion from the relabeled arguments. -/
theorem apply_relabel (t : Transformation) (arguments : List Formula) :
    (t.relabel ρ).apply (arguments.map (·.relabel ρ)) =
      mapResult (·.relabel ρ) (·.relabel ρ) (t.apply arguments) := by
  have hsolve := @solve_relabel ρ t.vars.elements t.premises.elements arguments .empty
  have hmismatch : Error.mismatch (Sequence.mk (arguments.map (·.relabel ρ))).formula
      (t.relabel ρ).formula =
        (Error.mismatch (Sequence.mk arguments).formula t.formula).relabel ρ := by
    simp [Error.relabel, ← Sequence.formula_relabel, Sequence.relabel]
  rw [apply, apply, hmismatch]
  simp only [relabel_premises, relabel_vars, relabel_conclusion, Sequence.relabel_elements,
    Enumeration.relabel_elements, List.length_map]
  by_cases hlength : arguments.length = t.premises.elements.length
  · rw [Map.empty_relabel] at hsolve
    simp only [hlength, ne_eq, not_true_eq_false, if_false, hsolve]
    rcases solve t.vars.elements t.premises.elements arguments .empty with e | _ | m
    · rfl
    · rfl
    · simp
  · simp [hlength]

theorem matchConclusion_relabel (t : Transformation) (target : Formula) :
    (t.relabel ρ).matchConclusion (target.relabel ρ) =
      mapResult (·.relabel ρ) (Option.map (·.relabel ρ)) (t.matchConclusion target) :=
  Formula.matchPattern_relabel target t.conclusion t.vars.elements .empty

theorem freeVariables_relabel (t : Transformation) (m : Map) :
    (t.relabel ρ).freeVariables (m.relabel ρ) = (t.freeVariables m).map (·.relabel ρ) := by
  simp [freeVariables, List.filter_map, Function.comp_def]

theorem necessaryPremises_relabel (t : Transformation) (m : Map) :
    (t.relabel ρ).necessaryPremises (m.relabel ρ) = (t.necessaryPremises m).relabel ρ := by
  simp [necessaryPremises, Sequence.relabel, Function.comp_def]

end Transformation

end Deduction
