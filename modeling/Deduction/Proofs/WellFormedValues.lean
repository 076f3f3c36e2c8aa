import Deduction.Builder
import Deduction.Proofs.Matching
import Deduction.Renaming
import Deduction.Search.Outcome
import Deduction.Search.Run
import Deduction.Sharing.Kept

/-!
# Values of well-formed formulas

Only `Connective.apply` checks the number of terms.  Other operations put formulas together without
a check: substitution rebuilds nodes around images, a union or a map lists formulas under a
structural connective, and a match binds parts of its target.  The lemmas here say that none of them
leaves the well-formed formulas.

A value is *proper* if all formulas that can be taken from it are well formed (`Proper`).  These are
its own formula, if it has one, those of its parts if it is a list or a result, and those that an
error carries.  So what is said of an operation covers its errors as well.
-/

namespace Deduction

/-! ## The formulas of a value -/

/-- Values that formulas can be taken from. -/
class HasFormulas (α : Type) where
  /-- The formulas of a value. -/
  formulas : α → List Formula

open HasFormulas (formulas)

/-- The formulas that an error carries. -/
def SyntaxError.formulas : SyntaxError → List Formula
  | arityMismatch .. | cardinality .. | incomplete .. | ambiguous .. => []
  | duplicate element _ _ => [element]
  | unreadable _ φ => [φ]
  | notAtomic v => [v]
  | variableOccurs v target => [v, target]
  | notVariable key => [key]
  | noImage key map => [key, map]
  | notInvertible map image => [map, image]

/-- The formulas that an error carries. -/
def Error.formulas : Error → List Formula
  | mismatch arguments transformation => [arguments, transformation]
  | notDerived statement derived => [statement, derived]
  | premiseAbsent premise proved => [premise, proved]
  | premisePosterior premise proved _ _ => [premise, proved]
  | ruleAbsent rule proved => [rule, proved]
  | rulePosterior rule proved _ _ => [rule, proved]
  | premiseNotValid premise => [premise]
  | notAxiomatic derivation => [derivation]
  | unreadableOptions => []
  | ofFormulas e => e.formulas

section Instances

variable {α β ε : Type}

instance [Object α] : HasFormulas α := ⟨fun a => [Object.formula a]⟩

variable [HasFormulas α] [HasFormulas β] [HasFormulas ε]

instance : HasFormulas Unit := ⟨fun _ => []⟩
instance : HasFormulas Bool := ⟨fun _ => []⟩
instance : HasFormulas (List α) := ⟨fun as => as.flatMap formulas⟩
instance : HasFormulas (Option α) := ⟨fun a? => a?.toList.flatMap formulas⟩
instance : HasFormulas (α × β) := ⟨fun p => formulas p.1 ++ formulas p.2⟩
instance : HasFormulas (Except ε α) := ⟨fun | .ok a => formulas a | .error e => formulas e⟩
instance : HasFormulas SyntaxError := ⟨SyntaxError.formulas⟩
instance : HasFormulas Error := ⟨Error.formulas⟩
instance : HasFormulas Outcome := ⟨fun o => formulas (o.theory, o.derivations)⟩
instance : HasFormulas (Run α) := ⟨fun r => formulas r.result⟩

/-- All formulas of the value are well formed. -/
def Proper (a : α) : Prop := ∀ φ ∈ formulas a, φ.WellFormed

@[simp] theorem proper_unit (u : Unit) : Proper u := by simp [Proper, formulas]

@[simp] theorem proper_bool (b : Bool) : Proper b := by simp [Proper, formulas]

@[simp] theorem proper_list {as : List α} : Proper as ↔ ∀ a ∈ as, Proper a := by
  simp only [Proper, formulas, List.mem_flatMap]
  exact ⟨fun h a ha φ hφ => h φ ⟨a, ha, hφ⟩, fun h φ ⟨a, ha, hφ⟩ => h a ha φ hφ⟩

@[simp] theorem proper_none : Proper (none : Option α) := by simp [Proper, formulas]

@[simp] theorem proper_some {a : α} : Proper (some a) ↔ Proper a := by simp [Proper, formulas]

@[simp] theorem proper_prod {p : α × β} : Proper p ↔ Proper p.1 ∧ Proper p.2 := by
  simp [Proper, formulas, or_imp, forall_and]

theorem Proper.prod {a : α} {b : β} (ha : Proper a) (hb : Proper b) : Proper (a, b) :=
  proper_prod.mpr ⟨ha, hb⟩

@[simp] theorem proper_ok {a : α} : Proper (.ok a : Except ε α) ↔ Proper a := Iff.rfl

@[simp] theorem proper_error {e : ε} : Proper (.error e : Except ε α) ↔ Proper e := Iff.rfl

@[simp] theorem proper_pure {a : α} : Proper (pure a : Except ε α) ↔ Proper a := Iff.rfl

theorem Proper.value {x : Except ε α} {a : α} (h : Proper x) (hx : x = .ok a) : Proper a := by
  subst hx
  exact h

theorem Proper.fault {x : Except ε α} {e : ε} (h : Proper x) (hx : x = .error e) : Proper e := by
  subst hx
  exact h

theorem proper_object {γ : Type} [Object γ] {c : γ} :
    Proper c ↔ (Object.formula c).WellFormed := by
  simp [Proper, formulas]

@[simp] theorem proper_formula {φ : Formula} : Proper φ ↔ φ.WellFormed := proper_object

@[simp] theorem proper_syntaxError {e : SyntaxError} :
    Proper e ↔ ∀ φ ∈ e.formulas, φ.WellFormed := Iff.rfl

theorem proper_nil : Proper ([] : List α) := by simp

theorem Proper.cons {a : α} {as : List α} (ha : Proper a) (has : Proper as) :
    Proper (a :: as) := by
  rw [proper_list] at has ⊢
  exact List.forall_mem_cons.mpr ⟨ha, has⟩

theorem Proper.mem {a : α} {as : List α} (h : Proper as) (ha : a ∈ as) : Proper a :=
  proper_list.mp h a ha

theorem Proper.subset {as bs : List α} (h : Proper as) (hsub : bs ⊆ as) : Proper bs :=
  proper_list.mpr fun _ hb => h.mem (hsub hb)

theorem appendNew_proper [DecidableEq α] {seen as : List α} (hseen : Proper seen)
    (has : Proper as) : Proper (appendNew seen as) := by
  refine proper_list.mpr fun a ha => ?_
  rcases mem_appendNew.mp ha with ha | ha
  · exact hseen.mem ha
  · exact has.mem ha

theorem Proper.bind {x : Except ε α} {f : α → Except ε β} (hx : Proper x)
    (hf : ∀ a, x = .ok a → Proper a → Proper (f a)) : Proper (x >>= f) := by
  cases x with
  | error e => exact hx
  | ok a => exact hf a rfl hx

/-- An error about formulas carries the same formulas as an error about theories. -/
theorem Proper.lift {x : Except SyntaxError α} (hx : Proper x) :
    Proper (liftM x : Except Error α) := by
  cases x with
  | error e => exact hx
  | ok a => exact hx

end Instances

/-! ## Objects and their parts -/

theorem wellFormed_structural {kind : Structure} {ts : List Formula} :
    (Formula.structural kind ts).WellFormed ↔
      kind.arity.Admits ts.length ∧ ∀ t ∈ ts, t.WellFormed :=
  Formula.wellFormed_node

@[simp] theorem proper_sequence {s : Sequence} : Proper s ↔ Proper s.elements := by
  simp [proper_object, Sequence.formula, wellFormed_structural, Structure.arity]

@[simp] theorem proper_enumeration {e : Enumeration} : Proper e ↔ Proper e.elements := by
  simp [proper_object, Enumeration.formula, wellFormed_structural, Structure.arity]

theorem proper_map_parts {m : Map} : Proper m ↔ Proper m.domain ∧ Proper m.codomain := by
  simp [proper_object, m.formula_eq, wellFormed_structural, Structure.arity]

@[simp] theorem proper_map {m : Map} : Proper m ↔ Proper m.pairs := by
  rw [proper_map_parts, proper_enumeration, proper_sequence]
  change Proper m.keys ∧ Proper m.images ↔ Proper m.pairs
  rw [← m.map_fst_pairs, ← m.map_snd_pairs]
  simp only [proper_list, proper_prod, List.forall_mem_map]
  exact forall₂_and.symm

@[simp] theorem proper_transformation {t : Transformation} :
    Proper t ↔ Proper t.conclusion ∧ Proper t.vars ∧ Proper t.premises := by
  simp [proper_object, Transformation.formula, wellFormed_structural, Structure.arity]

@[simp] theorem proper_axiom {a : Axiom} : Proper a ↔ Proper a.statement := by
  simp [proper_object, Axiom.formula, wellFormed_structural, Structure.arity]

@[simp] theorem proper_rule {r : InferenceRule} : Proper r ↔ Proper r.transformation := by
  simp [proper_object, InferenceRule.formula, wellFormed_structural, Structure.arity]

@[simp] theorem proper_inference {i : Inference} :
    Proper i ↔ Proper i.rule ∧ Proper i.premises := by
  simp [proper_object, Inference.formula, wellFormed_structural, Structure.arity]

@[simp] theorem proper_theorem {t : Theorem} :
    Proper t ↔ Proper t.statement ∧ Proper t.inference := by
  simp [proper_object, Theorem.formula, wellFormed_structural, Structure.arity]

theorem proper_derivation {d : Derivation} : Proper d ↔ Proper d.formula := by
  rw [proper_object, Object.formula_derivation, proper_formula]

@[simp] theorem proper_theory {T : Theory} : Proper T ↔ Proper T.derivations := by
  rw [proper_list]
  simp only [proper_derivation]
  simp [proper_object, Theory.formula, wellFormed_structural, Structure.arity]

@[simp] theorem proper_axiomatization {A : Axiomatization} : Proper A ↔ Proper A.derivations := by
  rw [proper_list]
  simp only [proper_derivation]
  simp [proper_object, Axiomatization.formula, wellFormed_structural, Structure.arity]

/-! ## Formulas -/

namespace Formula

theorem WellFormed.subformula {φ ψ : Formula} (h : φ.WellFormed) (hψ : ψ ∈ φ.preorder) :
    ψ.WellFormed := by
  induction h with
  | @node c ts arity terms ih =>
    rw [preorder_node, List.mem_cons] at hψ
    rcases hψ with rfl | hψ
    · exact .node arity terms
    · obtain ⟨t, ht, hψ⟩ := mem_preorderList.mp hψ
      exact ih t ht hψ

/-- A formula is well formed exactly when the connective of each of its nodes takes the number of
terms that the node has. -/
theorem wellFormed_iff {φ : Formula} :
    φ.WellFormed ↔ ∀ ψ ∈ φ.subformulas, ψ.connective.arity.Admits ψ.terms.length := by
  rw [subformulas_eq_preorder]
  constructor
  · intro h ψ hψ
    obtain ⟨arity, -⟩ := h.subformula hψ
    exact arity
  · intro h
    induction φ with
    | node c ts ih =>
      refine .node (h _ (mem_preorder_self _)) fun t ht => ?_
      exact ih t ht fun ψ hψ => h ψ (mem_preorder_of_term ht hψ)

theorem terms_proper {φ : Formula} (h : Proper φ) : Proper φ.terms := by
  obtain ⟨-, hterms⟩ := proper_formula.mp h
  simpa using hterms

theorem subformulas_proper {φ : Formula} (h : Proper φ) : Proper φ.subformulas := by
  refine proper_list.mpr fun ψ hψ => proper_formula.mpr ?_
  rw [subformulas_eq_preorder] at hψ
  exact (proper_formula.mp h).subformula hψ

theorem leaves_proper {φ : Formula} (h : Proper φ) : Proper φ.leaves := by
  have hleaves : Proper (φ.subformulas.filter fun ψ => decide ψ.IsAtomic) :=
    (subformulas_proper h).subset (List.filter_subset_self _)
  exact proper_enumeration.mpr (appendNew_proper proper_nil hleaves)

end Formula

theorem Connective.apply_proper (c : Connective) {ts : List Formula} (h : Proper ts) :
    Proper (c.apply ts) := by
  unfold Connective.apply
  split
  next harity => simpa using .node harity (by simpa using h)
  next => simp [SyntaxError.formulas]

theorem Connective.nest_proper (c : Connective) (n : Nat) {φ : Formula} (h : Proper φ) :
    Proper (c.nest n φ) := by
  induction n generalizing φ with
  | zero => exact proper_ok.mpr h
  | succ n ih =>
    have happly : Proper (c.apply [φ]) := c.apply_proper (h.cons proper_nil)
    exact happly.bind fun ψ _ hψ => ih hψ

namespace Formula

/-- Each node of a formula with renamed connectives has been checked. -/
theorem rename_proper (ρ : Renaming) (φ : Formula) : Proper (φ.rename ρ) := by
  induction φ with
  | node c ts ih =>
    have hts : ∀ us ⊆ ts, Proper (renameList ρ us) := by
      intro us hus
      induction us with
      | nil => simp [renameList]
      | cons u us ihus =>
        rw [renameList]
        refine (ih u (hus (by simp))).bind fun φ _ hφ => ?_
        refine (ihus fun v hv => hus (by simp [hv])).bind fun rest _ hrest => ?_
        exact hφ.cons hrest
    rw [rename]
    exact (hts ts (List.Subset.refl ts)).bind fun us _ hus => (ρ c).apply_proper hus

end Formula

namespace Builder

mutual

/-- Each node of a builder that is frozen has been checked. -/
theorem freezeAt_proper (path : List Nat) : (b : Builder) → Proper (b.freezeAt path)
  | .node none _ => by simp [freezeAt, SyntaxError.formulas]
  | .node (some c) ts => by
    rw [freezeAt]
    exact (freezeList_proper path 0 ts).bind fun us _ hus => c.apply_proper hus

theorem freezeList_proper (path : List Nat) (index : Nat) :
    (ts : List Builder) → Proper (freezeList path index ts)
  | [] => by simp [freezeList]
  | t :: ts => by
    rw [freezeList]
    refine (freezeAt_proper (path ++ [index]) t).bind fun φ _ hφ => ?_
    refine (freezeList_proper path (index + 1) ts).bind fun rest _ hrest => ?_
    exact hφ.cons hrest

end

end Builder

/-! ## Collections -/

theorem mem_of_firstRepeat? {α : Type} [DecidableEq α] {seen xs : List α} {r : Repeat α}
    (h : firstRepeat? seen xs = some r) : r.element ∈ xs := by
  induction xs generalizing seen with
  | nil => simp [firstRepeat?] at h
  | cons x xs ih =>
    rw [firstRepeat?] at h
    split at h
    · obtain rfl := Option.some.inj h
      simp
    · exact List.mem_cons_of_mem x (ih h)

theorem Sequence.withElement_proper {s : Sequence} {φ : Formula} (hs : Proper s)
    (hφ : Proper φ) : Proper (s.withElement φ) := by
  simp only [withElement, proper_sequence, proper_list, List.mem_append,
    List.mem_singleton] at hs ⊢
  rintro ψ (hψ | rfl)
  · exact hs ψ hψ
  · exact hφ

namespace Enumeration

theorem ofList_proper {xs : List Formula} (h : Proper xs) : Proper (ofList xs) := by
  unfold ofList
  split
  next r hr => exact h.mem (mem_of_firstRepeat? hr)
  next => exact proper_enumeration.mpr h

theorem strip_proper {xs : List Formula} (h : Proper xs) : Proper (strip xs) :=
  proper_enumeration.mpr (appendNew_proper proper_nil h)

theorem withElement_proper {e : Enumeration} {φ : Formula} (he : Proper e) (hφ : Proper φ) :
    Proper (e.withElement φ) :=
  proper_enumeration.mpr (appendNew_proper (proper_enumeration.mp he) (by simpa using hφ))

theorem union_proper {a b : Enumeration} (ha : Proper a) (hb : Proper b) : Proper (a.union b) :=
  proper_enumeration.mpr (appendNew_proper (proper_enumeration.mp ha) (proper_enumeration.mp hb))

end Enumeration

namespace Map

variable {m : Map}

theorem empty_proper : Proper empty := by simp

theorem get?_proper (hm : Proper m) {key image : Formula} (h : m.get? key = some image) :
    Proper image :=
  (proper_prod.mp ((proper_map.mp hm).mem (get?_eq_some.mp h))).2

theorem filter_proper (hm : Proper m) (keep : Formula → Bool) : Proper (m.filter keep) := by
  rw [proper_map, pairs_filter]
  exact (proper_map.mp hm).subset (List.filter_subset_self _)

theorem without_proper (hm : Proper m) (key : Formula) : Proper (m.without key) :=
  filter_proper hm _

theorem restrict_proper (hm : Proper m) (keys : List Formula) : Proper (m.restrict keys) :=
  filter_proper hm _

theorem withPair_proper (hm : Proper m) {key image : Formula} (hkey : Proper key)
    (himage : Proper image) : Proper (m.withPair key image) := by
  refine proper_map.mpr (proper_list.mpr fun p hp => ?_)
  rcases mem_withPair.mp hp with ⟨hp, -⟩ | rfl
  · exact (proper_map.mp hm).mem hp
  · exact proper_prod.mpr ⟨hkey, himage⟩

theorem ofParts_proper {domain : Enumeration} {codomain : Sequence} (hdomain : Proper domain)
    (hcodomain : Proper codomain) : Proper (ofParts domain codomain) := by
  unfold ofParts
  split
  · exact proper_map_parts.mpr ⟨hdomain, hcodomain⟩
  · simp [SyntaxError.formulas]

theorem ofPairs_proper {pairs : List (Formula × Formula)} (h : Proper pairs) :
    Proper (ofPairs pairs) := by
  have hkeys : Proper (pairs.map Prod.fst) :=
    proper_list.mpr (List.forall_mem_map.mpr fun p hp => (proper_prod.mp (h.mem hp)).1)
  have himages : Proper (pairs.map Prod.snd) :=
    proper_list.mpr (List.forall_mem_map.mpr fun p hp => (proper_prod.mp (h.mem hp)).2)
  exact (Enumeration.ofList_proper hkeys).bind fun e _ he =>
    ofParts_proper he (proper_sequence.mpr himages)

theorem inverse_proper (hm : Proper m) : Proper m.inverse := by
  obtain ⟨hdomain, hcodomain⟩ := proper_map_parts.mp hm
  have himages : Proper (Enumeration.ofList m.images) :=
    Enumeration.ofList_proper (proper_sequence.mp hcodomain)
  unfold inverse
  split
  next domain h =>
    refine proper_map_parts.mpr ⟨himages.value h, ?_⟩
    exact proper_sequence.mpr (proper_enumeration.mp hdomain)
  next image _ _ h =>
    have himage : Proper image := himages.fault h
    exact hm.prod himage
  next h => exact himages.fault h

theorem image_proper (hm : Proper m) {key : Formula} (hkey : Proper key) :
    Proper (m.image key) := by
  unfold image
  split
  next h => exact get?_proper hm h
  next => exact hkey.prod hm

end Map

/-! ## Substitution and matching -/

namespace Formula

/-- Replacing subformulas keeps the number of terms of every node that is rebuilt. -/
theorem replace_wellFormed {image : Lookup} {φ : Formula} (h : φ.WellFormed)
    (himage : ∀ χ ∈ φ.preorder, ∀ ψ, image χ = some ψ → ψ.WellFormed) :
    (φ.replace image).WellFormed := by
  induction h with
  | @node c ts arity terms ih =>
    rw [replace_node]
    cases hroot : image (node c ts) with
    | some ψ => exact himage _ (mem_preorder_self _) ψ hroot
    | none =>
      refine .node (by simpa using arity) fun t ht => ?_
      obtain ⟨u, hu, rfl⟩ := List.mem_map.mp ht
      exact ih u hu fun χ hχ => himage χ (mem_preorder_of_term hu hχ)

theorem replace_firstOf_proper {φ : Formula} {pairs : List (Formula × Formula)} (hφ : Proper φ)
    (hpairs : Proper pairs) : Proper (φ.replace (.firstOf pairs)) := by
  refine proper_formula.mpr (replace_wellFormed (proper_formula.mp hφ) fun χ _ ψ hψ => ?_)
  obtain ⟨pair, hpair, rfl⟩ := Option.map_eq_some_iff.mp hψ
  exact proper_formula.mp (proper_prod.mp (hpairs.mem (List.mem_of_find?_eq_some hpair))).2

theorem replace_lastOf_proper {φ : Formula} {pairs : List (Formula × Formula)} (hφ : Proper φ)
    (hpairs : Proper pairs) : Proper (φ.replace (.lastOf pairs)) :=
  replace_firstOf_proper hφ (hpairs.subset fun _ => List.mem_reverse.mp)

theorem substitute_proper {φ : Formula} {m : Map} (hφ : Proper φ) (hm : Proper m) :
    Proper (φ.substitute m) := by
  rw [substitute, ← Lookup.firstOf_map]
  exact replace_firstOf_proper hφ (proper_map.mp hm)

variable {vars : List Formula}

/-- What a pass over patterns binds are parts of the targets. -/
theorem Binds.proper {patterns targets : List Formula} {b m : Map}
    (h : Binds vars patterns targets b m) (hatomic : ∀ v ∈ vars, v.IsAtomic)
    (hkeys : b.keys ⊆ vars) (hvars : Proper vars) (htargets : Proper targets) (hb : Proper b) :
    Proper m := by
  refine proper_map.mpr (proper_list.mpr fun p hp => ?_)
  have hsub : m.keys ⊆ vars := h.keys_subset hkeys
  have hkey : p.1 ∈ m.keys := Map.mem_keys_of_mem hp
  have hget : m.get? p.1 = some p.2 := Map.get?_eq_some.mpr hp
  refine proper_prod.mpr ⟨hvars.mem (hsub hkey), ?_⟩
  rw [h.keys, mem_appendNew, List.mem_filter] at hkey
  rcases hkey with hkey | ⟨hkey, -⟩
  · obtain ⟨image, himage⟩ := Option.isSome_iff_exists.mp (Map.get?_isSome.mpr hkey)
    obtain rfl : image = p.2 :=
      Option.some.inj ((Map.get?_mono h.pairs.subset himage).symm.trans hget)
    exact Map.get?_proper hb himage
  · obtain ⟨q, hq, hkey⟩ := mem_preorderList.mp hkey
    have htarget : q.substitute m ∈ targets := h.instantiates ▸ List.mem_map_of_mem hq
    have hpart : p.2 ∈ (q.substitute m).preorder :=
      preorder_image_subset (fun k hk => hatomic k (hsub hk)) hget hkey (mem_preorder_self _)
    exact proper_formula.mpr ((proper_formula.mp (htargets.mem htarget)).subformula hpart)

theorem variableError?_proper {target : Formula} {e : SyntaxError} (hvars : Proper vars)
    (htarget : Proper target) (h : variableError? vars target = some e) : Proper e := by
  obtain ⟨v, hv, hfound⟩ := List.exists_of_findSome?_eq_some h
  have hv := hvars.mem hv
  split at hfound
  · obtain rfl := Option.some.inj hfound
    exact hv
  · split at hfound
    · obtain rfl := Option.some.inj hfound
      exact hv.prod htarget
    · simp at hfound

theorem matchPattern_proper {target : Formula} (pattern : Formula) {bindings : Map}
    (htarget : Proper target) (hvars : Proper vars) (hbindings : Proper bindings) :
    Proper (target.matchPattern pattern vars bindings) := by
  cases hmatch : target.matchPattern pattern vars bindings with
  | error e =>
    rcases matchPattern_eq_error_iff.mp hmatch with herror | ⟨-, key, hkey, rfl⟩
    · exact variableError?_proper hvars htarget herror
    · have hdomain : Proper bindings.domain := (proper_map_parts.mp hbindings).1
      have hkey : Proper key := (proper_enumeration.mp hdomain).mem (List.mem_of_find?_eq_some hkey)
      exact hkey
  | ok m? =>
    obtain ⟨hpre, hkeys, hunify⟩ := matchPattern_eq_ok.mp hmatch
    cases m? with
    | none => simp
    | some m =>
      have hatomic : ∀ v ∈ vars, v.IsAtomic := fun v hv => (hpre v hv).1
      have hbinds := unify_binds hatomic hkeys hunify
      exact proper_some.mpr (hbinds.proper hatomic hkeys hvars (by simpa using htarget) hbindings)

theorem matchesPattern_proper {target : Formula} (pattern : Formula) (htarget : Proper target)
    (hvars : Proper vars) : Proper (target.matchesPattern pattern vars) :=
  (matchPattern_proper pattern htarget hvars Map.empty_proper).bind fun m? _ _ =>
    proper_bool m?.isSome

end Formula

end Deduction
