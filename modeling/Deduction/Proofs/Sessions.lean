import Deduction.Proofs.ObtainableValues
import Deduction.Proofs.Propositional

/-!
# Sessions

Whoever uses the library starts with nothing and applies one operation after the other, each to
values that earlier ones have led to.  `Session` says what is at hand after some of them: the shared
objects, formulas among them, and the next free address.

Every operation leads from sound values to sound values, so all that is at hand after a session is
sound in one store (`Session.exists_store`).  An address then stands for one node, however it was
obtained.  So comparing nodes and stopping early at shared ones is comparing formulas
(`Session.equivalent_decides`), and hashes find them (`Session.hashes_lawful`).  What an object
keeps beside its formula never differs from what its formula says: no derivation does
(`Session.derivations_faithful`), and the elements of enumerations and the domains and codomains of
maps are as they should be, whichever operation returned them (`Session.represents`).
-/

namespace Deduction

open HasFormulas (formulas)
open HasShares (shares)

/-! ## Sessions -/

/-- The shared objects at hand and the next free address after operations in order.  Substitution
may be given any function whose images are at hand.  A search with a strategy of one's own hands
over what the strategy led to and adds nothing. -/
inductive Session : List (Shared (Kept Formula)) → Nat → Prop
  /-- Nothing has been made. -/
  | start : Session [] 0
  /-- An operation is applied to what is at hand. -/
  | step {pool : List (Shared (Kept Formula))} {next : Nat} {A B : Type} [HasFormulas A]
      [HasShares A] [HasFormulas B] [HasShares B] {F : A → Supply B} {a : A}
      (session : Session pool next) (operation : Shared.Operation F)
      (arguments : shares a ⊆ pool) :
      Session (pool ++ shares ((F a).run next).1) ((F a).run next).2
  /-- Subformulas are replaced by what is at hand. -/
  | replace {pool : List (Shared (Kept Formula))} {next : Nat} {φ : Shared Formula}
      {image : Formula → Option (Shared Formula)} (session : Session pool next)
      (formula : shares φ ⊆ pool) (images : ∀ χ ∈ φ.value.preorder, shares (image χ) ⊆ pool) :
      Session (pool ++ shares ((φ.replace image).run next).1) ((φ.replace image).run next).2

namespace Session

variable {pool : List (Shared (Kept Formula))} {next : Nat}

/-- What is placed in a store is sound in a longer one, together with what was at hand. -/
theorem exists_longer_store {σ : Store} {B : Type} [HasShares B] {x : Supply B}
    (h : ∀ y ∈ pool, y.kept.Represents σ y.value) (hx : Supply.Places σ x Sound) :
    ∃ σ' : Store, σ'.length = (x.run σ.length).2 ∧
      ∀ y ∈ pool ++ shares (x.run σ.length).1, y.kept.Represents σ' y.value := by
  obtain ⟨σ', hprefix, hnext, hsound⟩ := hx
  refine ⟨σ', hnext.symm, fun y hy => ?_⟩
  rcases List.mem_append.mp hy with hy | hy
  · exact (h y hy).mono hprefix
  · exact hsound y hy

/-- All that is at hand after a session is sound in one store. -/
theorem exists_store (session : Session pool next) :
    ∃ σ : Store, σ.length = next ∧ ∀ x ∈ pool, x.kept.Represents σ x.value := by
  induction session with
  | start => exact ⟨[], rfl, by simp⟩
  | step _ operation arguments ih =>
    obtain ⟨σ, rfl, h⟩ := ih
    exact exists_longer_store h (operation.places fun x hx => h x (arguments hx))
  | replace _ formula images ih =>
    obtain ⟨σ, rfl, h⟩ := ih
    refine exists_longer_store h (Shared.replace_sound (fun x hx => h x (formula hx)) ?_)
    exact fun χ hχ x hx => h x (images χ hχ hx)

/-- The next operation leads to nothing but what can be obtained, also when it is refused. -/
theorem obtainable_next {A B : Type} [HasFormulas A] [HasShares A] [HasFormulas B] [HasShares B]
    {F : A → Supply B} {a : A} (h : ∀ x ∈ pool, Obtainable x.value.root)
    (operation : Shared.Operation F) (arguments : shares a ⊆ pool) (next : Nat) :
    ∀ φ ∈ formulas ((F a).run next).1, Obtainable φ := by
  intro φ hφ
  refine .result operation (fun ψ hψ => ?_) next hφ
  rw [operation.formulas_eq] at hψ
  obtain ⟨y, hy, rfl⟩ := List.mem_map.mp hψ
  exact h y (arguments hy)

/-- All that is at hand after a session can be obtained. -/
theorem obtainable (session : Session pool next) : ∀ x ∈ pool, Obtainable x.value.root := by
  induction session with
  | start => simp
  | step _ operation arguments ih =>
    intro x hx
    rcases List.mem_append.mp hx with hx | hx
    · exact ih x hx
    · exact obtainable_next ih operation arguments _ _ (operation.root_mem _ x hx)
  | @replace _ _ φ image _ formula images ih =>
    intro x hx
    rcases List.mem_append.mp hx with hx | hx
    · exact ih x hx
    · obtain rfl := List.mem_singleton.mp hx
      refine .replace (ih _ (formula (List.mem_singleton_self _))) fun χ hχ ψ hψ => ?_
      obtain ⟨y, hy, rfl⟩ := Option.map_eq_some_iff.mp hψ
      have himage := images χ hχ
      rw [hy] at himage
      exact ih (y.cast Object.outline) (himage (List.mem_singleton_self _))

end Session

/-! ## Formulas compared -/

namespace Shared

variable {α ε : Type} {σ : Store}

/-- Sound values are compared as their formulas are. -/
theorem equivalent_iff [Object α] {x y : Shared α} (hx : Sound σ x) (hy : Sound σ y) :
    x.equivalent y = true ↔ Object.formula x.value = Object.formula y.value :=
  hx.node.equivalent_iff hy.node

/-- Nodes do not change the result. -/
theorem value_follow (result : Except ε α) (kept : Supply (Kept Node)) (next : Nat) :
    ((follow result kept).run.run next).1.map (·.value) = result := by
  cases result <;> rfl

theorem values_eq_of_equivalent {ts us : List (Shared Formula)} (hts : Sound σ ts)
    (hus : Sound σ us) (h : List.Forall₂ (fun t u => t.equivalent u = true) ts us) :
    values ts = values us := by
  induction h with
  | nil => rfl
  | @cons t u ts us htu _ ih =>
    obtain ⟨ht, hts⟩ : Sound σ t ∧ Sound σ ts := by simpa using hts
    obtain ⟨hu, hus⟩ : Sound σ u ∧ Sound σ us := by simpa using hus
    have hvalue : t.value = u.value := (equivalent_iff ht hu).mp htu
    rw [values, values, List.map_cons, List.map_cons, hvalue]
    exact congrArg _ (ih hts hus)

/-- Applying a connective to formulas that are equivalent one by one gives the same error or
equivalent formulas. -/
theorem apply_congr (c : Connective) {ts us : List (Shared Formula)} (hts : Sound σ ts)
    (hus : Sound σ us) (h : List.Forall₂ (fun t u => t.equivalent u = true) ts us) :
    let first := (apply c ts).run.run σ.length
    let second := (apply c us).run.run first.2
    (∀ e, first.1 = .error e ↔ second.1 = .error e) ∧
      ∀ a b, first.1 = .ok a → second.1 = .ok b → a.equivalent b = true := by
  intro first second
  have hresults : first.1.map (·.value) = second.1.map (·.value) :=
    calc first.1.map (·.value)
      _ = c.apply (values ts) := value_follow ..
      _ = c.apply (values us) := by rw [values_eq_of_equivalent hts hus h]
      _ = second.1.map (·.value) := (value_follow ..).symm
  obtain ⟨σ₁, hσ₁, hnext, hfirst⟩ := apply_sound c hts
  obtain ⟨σ₂, hσ₂, -, hsecond⟩ := apply_sound c (hus.mono hσ₁)
  rw [← hnext] at hsecond
  constructor
  · intro e
    generalize first.1 = x at hresults
    generalize second.1 = y at hresults
    cases x <;> cases y <;> simp_all [Except.map]
  · intro a b ha hb
    rw [ha] at hfirst
    rw [hb] at hsecond
    refine (equivalent_iff ((sound_ok.mp hfirst).mono hσ₂) (sound_ok.mp hsecond)).mpr ?_
    rw [ha, hb] at hresults
    exact Except.ok.inj hresults

end Shared

/-- Comparing formulas is right in spite of its shortcut, for all formulas that operations in any
order lead to and for those that stand for objects: two of them are equivalent exactly when they
look alike, which is to say that their values are equal.  So this is an equivalence relation and a
congruence.  One and the same node is equivalent to itself, and equivalent formulas have the same
connective. -/
theorem Session.equivalent_decides {pool : List (Shared (Kept Formula))} {next : Nat}
    (session : Session pool next) :
    (∀ a ∈ pool, ∀ b ∈ pool,
      (a.equivalent b = true ↔ a.node.Alike b.node) ∧
      (a.equivalent b = true ↔ a.value.root = b.value.root) ∧
      (a.same b = true → a.equivalent b = true) ∧
      (a.equivalent b = true → a.node.connective = b.node.connective)) ∧
    Equivalence (fun a b : {x // x ∈ pool} => a.val.equivalent b.val = true) ∧
    ∀ (c : Connective) (ts us : List (Shared Formula)), shares ts ⊆ pool → shares us ⊆ pool →
      List.Forall₂ (fun t u => t.equivalent u = true) ts us →
      let first := (Shared.apply c ts).run.run next
      let second := (Shared.apply c us).run.run first.2
      (∀ e, first.1 = .error e ↔ second.1 = .error e) ∧
        ∀ a b, first.1 = .ok a → second.1 = .ok b → a.equivalent b = true := by
  obtain ⟨σ, rfl, h⟩ := session.exists_store
  have hnode : ∀ a ∈ pool, a.node.Represents σ a.value.root := fun a ha => (h a ha).node
  have hvalue : ∀ a ∈ pool, ∀ b ∈ pool, (a.equivalent b = true ↔ a.value.root = b.value.root) :=
    fun a ha b hb => (hnode a ha).equivalent_iff (hnode b hb)
  have hsound : ∀ ts : List (Shared Formula), shares ts ⊆ pool → Sound σ ts :=
    fun ts hts x hx => h x (hts hx)
  refine ⟨fun a ha b hb => ⟨?_, hvalue a ha b hb, ?_, ?_⟩, ⟨?_, ?_, ?_⟩, ?_⟩
  · rw [hvalue a ha b hb, Node.alike_iff, (hnode a ha).formula_eq, (hnode b hb).formula_eq]
  · intro hsame
    have haddress : a.node.address = b.node.address := by
      simpa [Shared.same, Node.same] using hsame
    have heq := (hnode a ha).stored.eq_of_address (hnode b hb).stored haddress
    rw [hvalue a ha b hb, ← (hnode a ha).formula_eq, ← (hnode b hb).formula_eq, heq]
  · intro hequivalent
    rw [(hnode a ha).connective, (hnode b hb).connective, (hvalue a ha b hb).mp hequivalent]
  · exact fun a => (hvalue _ a.2 _ a.2).mpr rfl
  · exact fun {a b} hab => (hvalue _ b.2 _ a.2).mpr ((hvalue _ a.2 _ b.2).mp hab).symm
  · exact fun {a b c} hab hbc => (hvalue _ a.2 _ c.2).mpr
      (((hvalue _ a.2 _ b.2).mp hab).trans ((hvalue _ b.2 _ c.2).mp hbc))
  · exact fun c ts us hts hus => Shared.apply_congr c (hsound ts hts) (hsound us hus)

open Propositional in
/-- Two implications share one node and have different nodes of the same atom beside it. -/
theorem Session.equivalent_decides_sharing :
    let a : Shared Formula := ⟨p, .bare (.mk 0 p.connective [])⟩
    let b : Shared Formula := ⟨p, .bare (.mk 1 p.connective [])⟩
    let c : Shared Formula := ⟨implies p p, .bare (.mk 2 (implies p p).connective [a.node, a.node])⟩
    let d : Shared Formula := ⟨implies p p, .bare (.mk 3 (implies p p).connective [a.node, b.node])⟩
    Session (shares [a, b, c, d]) 4 ∧ c.same d = false ∧ c.equivalent d = true ∧
      c.node.Alike d.node := by
  intro a b c d
  have atom : Session (shares [a]) 1 :=
    .step (a := []) .start (.apply p.connective) (by simp [shares])
  have atoms : Session (shares [a, b]) 2 :=
    .step (a := []) atom (.apply p.connective) (by simp [shares])
  have implication : Session (shares [a, b, c]) 3 :=
    .step (a := [a, a]) atoms (.apply (implies p p).connective) (by simp [shares])
  have session : Session (shares [a, b, c, d]) 4 :=
    .step (a := [a, b]) implication (.apply (implies p p).connective) (by simp [shares])
  obtain ⟨h, -, -⟩ := session.equivalent_decides
  obtain ⟨halike, hvalue, -, -⟩ :=
    h (c.cast Object.outline) (by simp [shares]) (d.cast Object.outline) (by simp [shares])
  have hequivalent : c.equivalent d = true := hvalue.mpr rfl
  exact ⟨session, rfl, hequivalent, halike.mp hequivalent⟩

/-! ## Formulas hashed -/

/-- Formulas that operations in any order lead to can be found by their hashes, whatever function
makes the hashes.  The leaves of a formula are what a hash set leaves of its atomic nodes; and what
a hash table of pairs has for a formula is what replacing by the last pairs puts in its place. -/
theorem Session.hashes_lawful {pool : List (Shared (Kept Formula))} {next : Nat}
    (session : Session pool next) (finish : List Nat → UInt64) :
    ∃ σ : Store,
      (∀ φ : Shared Formula, shares φ ⊆ pool → ∃ atoms : List (Node.Key σ finish),
        atoms.map (·.node) = φ.node.preorder.filter (·.terms.isEmpty) ∧
        (φ.leaves.run next).1.node.terms = (unrepeated ∅ atoms).map (·.node)) ∧
      ∀ pairs : List (Shared Formula × Shared Formula), shares pairs ⊆ pool →
        ∃ table : List (Node.Key σ finish × Node),
          table.map (fun p => (p.1.node, p.2)) = Shared.pairNodes pairs ∧
          ∀ k : Node.Key σ finish, (Std.HashMap.ofList table)[k]? =
            Node.image? (Shared.pairNodes pairs).reverse k.node.formula := by
  obtain ⟨σ, rfl, h⟩ := session.exists_store
  refine ⟨σ, fun φ hφ => ?_, fun pairs hpairs => ?_⟩
  · have hφ : Sound σ φ := fun x hx => h x (hφ hx)
    obtain ⟨hstored, -⟩ := Node.representAll_iff.mp (Node.Represents.preorder _ hφ.node)
    obtain ⟨atoms, hatoms⟩ := Node.exists_keys
      (fun n hn => hstored n (List.mem_of_mem_filter hn : n ∈ φ.node.preorder)) finish
    refine ⟨atoms, hatoms, ?_⟩
    rw [Node.unrepeated_keys, hatoms]
    rfl
  · have hpairs : Sound σ pairs := fun x hx => h x (hpairs hx)
    have hstored := (Node.representAll_iff.mp (Shared.representPairs_of_sound hpairs).keys).1
    obtain ⟨keys, hkeys⟩ := Node.exists_keys hstored finish
    let table := keys.zip ((Shared.pairNodes pairs).map Prod.snd)
    have htable : table.map (fun p => (p.1.node, p.2)) = Shared.pairNodes pairs :=
      calc table.map (fun p => (p.1.node, p.2))
        _ = (keys.map (·.node)).zip ((Shared.pairNodes pairs).map Prod.snd) :=
          (List.zip_map_left ..).symm
        _ = Shared.pairNodes pairs := by
          rw [hkeys]
          exact (List.zip_of_prod rfl rfl).symm
    refine ⟨table, htable, fun k => ?_⟩
    rw [Node.getElem?_ofList_keys, htable]

/-! ## Derivations compared -/

namespace Shared

variable {σ : Store}

theorem equalRules_iff {a b : Shared InferenceRule} (ha : Sound σ a) (hb : Sound σ b) :
    a.equalRules b = true ↔ a.equivalent b = true := by
  have hatransformation : Sound σ a.ruleTransformation := part_sound ha rfl
  have hbtransformation : Sound σ b.ruleTransformation := part_sound hb rfl
  rw [equalRules, Bool.and_eq_true]
  refine and_iff_left_of_imp fun h => ?_
  have hformula : a.value.formula = b.value.formula := (equivalent_iff ha hb).mp h
  have htransformation : a.value.transformation.formula = b.value.transformation.formula := by
    simpa [InferenceRule.formula, Formula.structural] using hformula
  exact (equivalent_iff hatransformation hbtransformation).mpr htransformation

theorem equalInferences_iff {a b : Shared Inference} (ha : Sound σ a) (hb : Sound σ b) :
    a.equalInferences b = true ↔ a.equivalent b = true := by
  have harule : Sound σ a.inferenceRule := part_sound ha rfl
  have hbrule : Sound σ b.inferenceRule := part_sound hb rfl
  have hapremises : Sound σ a.inferencePremises := part_sound ha rfl
  have hbpremises : Sound σ b.inferencePremises := part_sound hb rfl
  rw [equalInferences, Bool.and_eq_true, Bool.and_eq_true, and_assoc, equalRules_iff harule hbrule]
  refine and_iff_left_of_imp fun h => ?_
  have hformula : a.value.formula = b.value.formula := (equivalent_iff ha hb).mp h
  obtain ⟨hrule, hpremises⟩ : a.value.rule.formula = b.value.rule.formula ∧
      a.value.premises.formula = b.value.premises.formula := by
    simpa [Inference.formula, Formula.structural] using hformula
  exact ⟨(equivalent_iff harule hbrule).mpr hrule,
    (equivalent_iff hapremises hbpremises).mpr hpremises⟩

theorem equalTheorems_iff {a b : Shared Theorem} (ha : Sound σ a) (hb : Sound σ b) :
    a.equalTheorems b = true ↔ a.equivalent b = true := by
  have hainference : Sound σ a.theoremInference := part_sound ha rfl
  have hbinference : Sound σ b.theoremInference := part_sound hb rfl
  rw [equalTheorems, Bool.and_eq_true, equalInferences_iff hainference hbinference]
  refine and_iff_left_of_imp fun h => ?_
  have hformula : a.value.formula = b.value.formula := (equivalent_iff ha hb).mp h
  obtain ⟨-, hinference⟩ : a.value.statement = b.value.statement ∧
      a.value.inference.formula = b.value.inference.formula := by
    simpa [Theorem.formula, Formula.structural] using hformula
  exact (equivalent_iff hainference hbinference).mpr hinference

theorem equivalent_iff_value_eq {d e : Shared Derivation} (hd : Sound σ d) (he : Sound σ e) :
    d.equivalent e = true ↔ d.value = e.value := by
  rw [equivalent_iff hd he, Object.formula_derivation, Object.formula_derivation,
    Derivation.formula_inj]

/-- Comparing derivations with all that they keep is comparing their formulas. -/
theorem equalDerivations_iff {d e : Shared Derivation} (hd : Sound σ d) (he : Sound σ e) :
    d.equalDerivations e = true ↔ d.equivalent e = true := by
  have hvalue := equivalent_iff_value_eq hd he
  obtain ⟨d, m⟩ := d
  obtain ⟨e, n⟩ := e
  -- Derivations of different kinds are never compared part by part, but their formulas differ too.
  cases d with
  | stated a =>
    cases e with
    | stated b => rfl
    | rule s => simpa [equalDerivations] using hvalue
    | proved u => simpa [equalDerivations] using hvalue
  | rule r =>
    cases e with
    | stated b => simpa [equalDerivations] using hvalue
    | rule s => exact equalRules_iff hd he
    | proved u => simpa [equalDerivations] using hvalue
  | proved t =>
    cases e with
    | stated b => simpa [equalDerivations] using hvalue
    | rule s => simpa [equalDerivations] using hvalue
    | proved u => exact equalTheorems_iff hd he

/-- The statement of a theorem is the first term and its inference is the second. -/
theorem theorem_terms {t : Shared Theorem} (h : Sound σ t) :
    t.node.terms = [t.theoremStatement.node, t.theoremInference.node] := by
  have hterms : t.node.terms = t.node.terms.take 1 ++ [t.theoremInference.node] :=
    (sound_shared.mp h).terms_eq
  have hlength : t.node.terms.length = 2 := h.node.terms.length_eq
  have hstatement : t.node.terms[0]? = some t.theoremStatement.node :=
    Node.getElem?_term (by omega)
  rw [List.take_one, List.head?_eq_getElem?, hstatement] at hterms
  exact hterms

end Shared

/-- Derivations that operations in any order lead to are equal exactly when their formulas are, and
then they agree in everything that they keep.  What rules, inferences and theorems keep beside their
formulas is what their formulas encode: the parts have the nodes of the terms, and they are what is
read from them. -/
theorem Session.derivations_faithful {pool : List (Shared (Kept Formula))} {next : Nat}
    (session : Session pool next) :
    (∀ d e : Shared Derivation, shares d ⊆ pool → shares e ⊆ pool →
      (d.equalDerivations e = true ↔ d.equivalent e = true) ∧
      (d.equivalent e = true ↔ d.value = e.value)) ∧
    (∀ r : Shared InferenceRule, shares r ⊆ pool →
      r.node.connective = .structural .inferenceRule ∧
      r.node.terms = [r.ruleTransformation.node] ∧
      Transformation.ofFormula r.ruleTransformation.node.formula = .ok r.value.transformation) ∧
    (∀ i : Shared Inference, shares i ⊆ pool →
      i.node.connective = .structural .inference ∧
      i.node.terms = [i.inferenceRule.node, i.inferencePremises.node] ∧
      InferenceRule.ofFormula i.inferenceRule.node.formula = .ok i.value.rule ∧
      Sequence.ofFormula i.inferencePremises.node.formula = .ok i.value.premises) ∧
    ∀ t : Shared Theorem, shares t ⊆ pool →
      t.node.connective = .structural .provedTheorem ∧
      t.node.terms = [t.theoremStatement.node, t.theoremInference.node] ∧
      t.theoremStatement.node.formula = t.value.statement ∧
      Inference.ofFormula t.theoremInference.node.formula = .ok t.value.inference := by
  obtain ⟨σ, rfl, h⟩ := session.exists_store
  refine ⟨fun d e hd he => ?_, fun r hr => ?_, fun i hi => ?_, fun t ht => ?_⟩
  · have hd : Sound σ d := fun x hx => h x (hd hx)
    have he : Sound σ e := fun x hx => h x (he hx)
    exact ⟨Shared.equalDerivations_iff hd he, Shared.equivalent_iff_value_eq hd he⟩
  · have hr : Sound σ r := fun x hx => h x (hr hx)
    have htransformation : Sound σ r.ruleTransformation := Shared.part_sound hr rfl
    refine ⟨hr.node.connective, (sound_shared.mp hr).terms_eq, ?_⟩
    rw [htransformation.node.formula_eq]
    exact Transformation.ofFormula_formula _
  · have hi : Sound σ i := fun x hx => h x (hi hx)
    have hrule : Sound σ i.inferenceRule := Shared.part_sound hi rfl
    have hpremises : Sound σ i.inferencePremises := Shared.part_sound hi rfl
    refine ⟨hi.node.connective, (sound_shared.mp hi).terms_eq, ?_, ?_⟩
    · rw [hrule.node.formula_eq]
      exact InferenceRule.ofFormula_formula _
    · rw [hpremises.node.formula_eq]
      exact Sequence.ofFormula_formula _
  · have ht : Sound σ t := fun x hx => h x (ht hx)
    have hinference : Sound σ t.theoremInference := Shared.part_sound ht rfl
    refine ⟨ht.node.connective, Shared.theorem_terms ht, ?_, ?_⟩
    · exact (Shared.theoremStatement_sound ht).node.formula_eq
    · rw [hinference.node.formula_eq]
      exact Inference.ofFormula_formula _

open Propositional in
/-- A theorem is read twice from one formula, which gives it two nodes. -/
theorem Session.derivations_faithful_reread :
    let written := (Node.ofFormula joined.formula).run 0
    let first := written.1.toTheorem.run written.2
    let second := written.1.toTheorem.run first.2
    let φ : Shared Formula := ⟨joined.formula, .bare written.1⟩
    let d : Shared Derivation := ⟨.proved joined, first.1⟩
    let e : Shared Derivation := ⟨.proved joined, second.1⟩
    Session (shares φ ++ shares d ++ shares e) second.2 ∧ d.same e = false ∧
      d.equalDerivations e = true := by
  intro written first second φ d e
  have frozen : Session (shares φ) written.2 :=
    .step (a := ()) .start (.freeze (.ofFormula joined.formula)) (by simp [shares])
  have once : Session (shares φ ++ shares d) first.2 :=
    .step (a := φ) frozen .readTheorem (by simp)
  have session : Session (shares φ ++ shares d ++ shares e) second.2 :=
    .step (a := φ) once .readTheorem (by simp)
  obtain ⟨h, -⟩ := session.derivations_faithful
  obtain ⟨hequal, hvalue⟩ := h d e (by simp) (by simp)
  exact ⟨session, rfl, hequal.mpr (hvalue.mpr rfl)⟩

/-! ## Objects and their formulas -/

namespace Shared

variable {σ : Store}

theorem axiom_terms {a : Shared Axiom} (h : Sound σ a) :
    a.node.terms = [a.axiomStatement.node] := by
  have hlength : a.node.terms.length = 1 := h.node.terms.length_eq
  have hstatement : a.node.terms[0]? = some a.axiomStatement.node := Node.getElem?_term (by omega)
  obtain ⟨n, hn⟩ := List.length_eq_one_iff.mp hlength
  rw [hn] at hstatement ⊢
  exact congrArg (fun m => [m]) (Option.some.inj hstatement)

/-- The elements of an enumeration are the terms of its formula, and they are compared as different
by their nodes. -/
theorem enumeration_terms {e : Shared Enumeration} (h : Sound σ e) :
    e.node.terms.map Node.formula = e.value.elements ∧
      e.node.terms.Pairwise fun m n => m.equivalent n = false := by
  obtain ⟨hstored, helements⟩ := Node.representAll_iff.mp h.node.terms
  refine ⟨helements, ?_⟩
  have hdistinct : (e.node.terms.map Node.formula).Pairwise (· ≠ ·) := helements ▸ e.value.nodup
  refine (List.pairwise_map.mp hdistinct).imp_of_mem fun hm hn hne => ?_
  rw [← Bool.not_eq_true, (hstored _ hm).equivalent_iff (hstored _ hn)]
  exact hne

theorem map_terms {m : Shared Map} (h : Sound σ m) :
    m.node.terms = [m.mapDomain.node, m.mapCodomain.node] := by
  have hterms := (sound_shared.mp h).terms_eq
  rw [Map.outline_eq] at hterms
  exact hterms

end Shared

/-- Whatever operations in any order lead to represents what it should.

Each node, of a formula or of an object, has a number of terms that its connective takes, and so has
each node of a formula that the next operation leads to or that its error names.  So the statements
of axioms and theorems are there.  The elements of an enumeration are the terms of its formula, no
two of them equivalent.  The formula of a map has two terms, which are the formulas of the domain
and the codomain that the map keeps, and these have equally many elements. -/
theorem Session.represents {pool : List (Shared (Kept Formula))} {next : Nat}
    (session : Session pool next) :
    (∀ x ∈ pool, x.node.formula = x.value.root ∧
      ∀ n ∈ x.node.preorder, n.connective.arity.Admits n.terms.length) ∧
    (∀ {A B : Type} [HasFormulas A] [HasShares A] [HasFormulas B] [HasShares B]
      {F : A → Supply B} {a : A}, Shared.Operation F → shares a ⊆ pool →
      ∀ φ ∈ formulas ((F a).run next).1, ∀ ψ ∈ φ.subformulas,
        ψ.connective.arity.Admits ψ.terms.length) ∧
    (∀ a : Shared Axiom, shares a ⊆ pool →
      a.node.terms = [a.axiomStatement.node] ∧ a.axiomStatement.node.formula = a.value.statement) ∧
    (∀ t : Shared Theorem, shares t ⊆ pool →
      t.node.terms[0]? = some t.theoremStatement.node ∧
      t.theoremStatement.node.formula = t.value.statement) ∧
    (∀ e : Shared Enumeration, shares e ⊆ pool →
      e.node.terms.map Node.formula = e.value.elements ∧
      e.node.terms.Pairwise fun m n => m.equivalent n = false) ∧
    ∀ m : Shared Map, shares m ⊆ pool →
      m.node.terms = [m.mapDomain.node, m.mapCodomain.node] ∧
      m.mapDomain.node.formula = m.value.domain.formula ∧
      m.mapCodomain.node.formula = m.value.codomain.formula ∧
      m.mapDomain.node.terms.length = m.mapCodomain.node.terms.length := by
  have hobtainable := session.obtainable
  obtain ⟨σ, rfl, h⟩ := session.exists_store
  refine ⟨fun x hx => ⟨(h x hx).node.formula_eq, fun n hn => ?_⟩, ?_, fun a ha => ?_,
    fun t ht => ?_, fun e he => ?_, fun m hm => ?_⟩
  · have hformula : n.formula ∈ x.value.root.preorder := by
      rw [← (Node.representAll_iff.mp (Node.Represents.preorder _ (h x hx).node)).2]
      exact List.mem_map_of_mem hn
    have harity := Formula.wellFormed_iff.mp (obtainable_iff.mp (hobtainable x hx)) n.formula
      (Formula.subformulas_eq_preorder _ ▸ hformula)
    simpa using harity
  · intro A B _ _ _ _ F a operation arguments φ hφ
    have hresult : Obtainable φ := obtainable_next hobtainable operation arguments _ φ hφ
    exact Formula.wellFormed_iff.mp (obtainable_iff.mp hresult)
  · have ha : Sound σ a := fun x hx => h x (ha hx)
    exact ⟨Shared.axiom_terms ha, (Shared.axiomStatement_sound ha).node.formula_eq⟩
  · have ht : Sound σ t := fun x hx => h x (ht hx)
    refine ⟨?_, (Shared.theoremStatement_sound ht).node.formula_eq⟩
    rw [Shared.theorem_terms ht]
    rfl
  · exact Shared.enumeration_terms fun x hx => h x (he hx)
  · have hm : Sound σ m := fun x hx => h x (hm hx)
    have hdomain : Sound σ m.mapDomain := Shared.part_sound hm rfl
    have hcodomain : Sound σ m.mapCodomain := Shared.part_sound hm rfl
    refine ⟨Shared.map_terms hm, hdomain.node.formula_eq, hcodomain.node.formula_eq, ?_⟩
    calc m.mapDomain.node.terms.length
      _ = m.value.domain.elements.length := hdomain.node.terms.length_eq
      _ = m.value.codomain.elements.length := m.value.aligned
      _ = m.mapCodomain.node.terms.length := hcodomain.node.terms.length_eq.symm

open Propositional in
/-- A map on the union of two enumerations, to which a pair with one of its keys is added. -/
theorem Session.represents_union :
    let a : Shared Formula := ⟨p, .bare (.mk 0 p.connective [])⟩
    let b : Shared Formula := ⟨q, .bare (.mk 1 q.connective [])⟩
    let e := ((Shared.strip [a, b, a]).run 2).1
    let f := ((Shared.strip [b]).run 3).1
    let u := ((Shared.union f e).run 4).1
    let s := ((Shared.sequence [a, b]).run 5).1
    let m : Shared Map := ⟨.assemble u.value s.value rfl,
      .mk (.mk 6 (.structural .map) [u.node, s.node]) [u.kept, s.kept]⟩
    let n := ((Shared.withPair m a a).run 7).1
    Session (shares [a, b] ++ shares e ++ shares f ++ shares u ++ shares s ++ shares m ++ shares n)
        10 ∧
      u.node.terms = [b.node, a.node] ∧ b.node.equivalent a.node = false ∧
      n.node.terms = [n.mapDomain.node, n.mapCodomain.node] ∧
      n.mapDomain.node.formula = u.node.formula ∧
      n.mapDomain.node.terms.length = n.mapCodomain.node.terms.length := by
  intro a b e f u s m n
  have atom : Session (shares [a]) 1 :=
    .step (a := []) .start (.apply p.connective) (by simp [shares])
  have atoms : Session (shares [a, b]) 2 :=
    .step (a := []) atom (.apply q.connective) (by simp [shares])
  have first : Session (shares [a, b] ++ shares e) 3 :=
    .step (a := [a, b, a]) atoms .strip (by simp [shares])
  have second : Session (shares [a, b] ++ shares e ++ shares f) 4 :=
    .step (a := [b]) first .strip (by simp [shares])
  have both : Session (shares [a, b] ++ shares e ++ shares f ++ shares u) 5 :=
    .step (a := (f, e)) second .union (by simp [shares])
  have images : Session (shares [a, b] ++ shares e ++ shares f ++ shares u ++ shares s) 6 :=
    .step (a := [a, b]) both .sequence (by simp [shares])
  have map :
      Session (shares [a, b] ++ shares e ++ shares f ++ shares u ++ shares s ++ shares m) 7 :=
    .step (a := (u, s)) images .mapOfParts (by simp [shares])
  have session : Session
      (shares [a, b] ++ shares e ++ shares f ++ shares u ++ shares s ++ shares m ++ shares n) 10 :=
    .step (a := (m, a, a)) map .withPair (by simp [shares])
  obtain ⟨-, -, -, -, henumeration, hmap⟩ := session.represents
  obtain ⟨-, hdistinct⟩ := henumeration u (by simp [shares])
  obtain ⟨hterms, hdomain, -, hlength⟩ := hmap n (by simp [shares])
  have hu : u.node.terms = [b.node, a.node] := rfl
  rw [hu, List.pairwise_pair] at hdistinct
  exact ⟨session, hu, hdistinct, hterms, hdomain.trans (by decide), hlength⟩

end Deduction
