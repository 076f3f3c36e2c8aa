import Deduction.Proofs.PlacedSearches
import Deduction.Proofs.WellFormedTheories

/-!
# Operations

`Shared.Operation` lists the operations of the library, as functions of the shared values that they
are applied to.  It is the one list that everything said about all of them goes through, and two
things are said of each.  It leads from sound values to sound values, so no operation breaks the
link between a value and its nodes (`Shared.Operation.places`).  And it leads from proper values to
proper values, its errors included, so no operation makes a node with a number of terms that its
connective does not take (`Shared.Operation.proper`).

The first is about nodes and the second about values, which the nodes do not influence.
-/

namespace Deduction

open HasFormulas (formulas)
open HasShares (shares)

/-! ## The formulas of shared values -/

section Values

variable {α β ε : Type}

instance [HasFormulas α] : HasFormulas (Shared α) := ⟨fun x => formulas x.value⟩
instance : HasFormulas (Template (Shared Formula)) := ⟨fun t => formulas t.formulas⟩
instance : HasFormulas Shared.Plan := ⟨fun plan => formulas plan.sources⟩
instance : HasShares Bool := ⟨fun _ => []⟩

/-- The formulas of such a value are those of the objects in it. -/
class Whole (α : Type) [HasFormulas α] [HasShares α] : Prop where
  formulas_eq : ∀ a : α, formulas a = (shares a).map (·.value.root)

/-- The objects in such a value have their formulas among those of the value. -/
class Accounted (α : Type) [HasFormulas α] [HasShares α] : Prop where
  root_mem : ∀ a : α, ∀ x ∈ shares a, x.value.root ∈ formulas a

instance : Whole Unit := ⟨fun _ => rfl⟩
instance : Whole Bool := ⟨fun _ => rfl⟩
instance [Object α] : Whole (Shared α) := ⟨fun _ => rfl⟩

section Instances

variable [HasFormulas α] [HasShares α] [Whole α] [HasFormulas β] [HasShares β] [Whole β]

theorem flatMap_formulas (as : List α) :
    as.flatMap formulas = (as.flatMap shares).map (·.value.root) := by
  rw [List.map_flatMap]
  exact congrArg as.flatMap (funext Whole.formulas_eq)

instance : Whole (List α) := ⟨flatMap_formulas⟩
instance : Whole (Option α) := ⟨fun a? => flatMap_formulas a?.toList⟩

instance : Whole (α × β) where
  formulas_eq p := by simp [formulas, shares, Whole.formulas_eq]

instance : Accounted α where
  root_mem a x hx := by
    rw [Whole.formulas_eq]
    exact List.mem_map_of_mem hx

end Instances

instance : Whole (Template (Shared Formula)) := ⟨fun t => Whole.formulas_eq t.formulas⟩
instance : Whole Shared.Plan := ⟨fun plan => Whole.formulas_eq plan.sources⟩

instance [HasFormulas ε] [HasFormulas α] [HasShares α] [Accounted α] :
    Accounted (Except ε α) where
  root_mem x y hy := by
    cases x with
    | error e => simp [shares, Except.toOption] at hy
    | ok a => exact Accounted.root_mem a y (by simpa [shares, Except.toOption] using hy)

end Values

namespace Shared

variable {α β ε : Type}

/-! ## The list -/

/-- What a run leads to, with its nodes, or its error. -/
def placed (result : Except ε (Supply α)) : Placing ε α := do
  match result with
  | .ok value => value
  | .error e => throw e

/-- The operations of the library, as functions of the values that they are applied to.  What is
neither a formula nor an object, such as a connective or a builder, is a parameter. -/
inductive Operation : {A B : Type} → [HasFormulas A] → [HasShares A] → [HasFormulas B] →
    [HasShares B] → (A → Supply B) → Prop
  -- Formulas.
  | apply (c : Connective) : Operation fun ts => (apply c ts).run
  | nest (c : Connective) (n : Nat) : Operation fun φ => (nest c n φ).run
  | build : Operation fun t => (build t).run
  | freeze (b : Builder) : Operation fun _ : Unit => (freeze b).run
  | rename (ρ : Renaming) : Operation fun φ => (rename ρ φ).run
  | formula {α : Type} [Object α] : Operation fun x : Shared α => pure (formula x)
  | term (index : Nat) : Operation fun φ => pure (term? φ index)
  | subformulas : Operation fun φ => pure (subformulas φ)
  | leaves : Operation leaves
  -- Collections.
  | sequence : Operation sequence
  | copy : Operation copy
  | enumeration : Operation fun φs => (enumeration φs).run
  | strip : Operation strip
  | appendTo : Operation (Function.uncurry appendTo)
  | addTo : Operation (Function.uncurry addTo)
  | toSequence : Operation toSequence
  | union : Operation (Function.uncurry union)
  | mapOfParts : Operation fun x : _ × _ => (mapOfParts x.1 x.2).run
  | mapOfPairs : Operation fun pairs => (mapOfPairs pairs).run
  | mapDomain : Operation fun m => pure (mapDomain m)
  | mapCodomain : Operation fun m => pure (mapCodomain m)
  | image : Operation fun x : _ × _ => (image x.1 x.2).run
  | withPair : Operation fun x : _ × _ × _ => withPair x.1 x.2.1 x.2.2
  | without : Operation (Function.uncurry without)
  | restrict : Operation (Function.uncurry restrict)
  | inverse : Operation fun m => (inverse m).run
  -- Matching and substitution.
  | matchPattern : Operation fun x : _ × _ × _ × _ =>
      (matchPattern x.1 x.2.1 x.2.2.1 x.2.2.2).run
  | matchesPattern : Operation fun x : Shared Formula × Shared Formula × List (Shared Formula) =>
      pure (x.1.value.matchesPattern x.2.1.value (values x.2.2))
  | substitute : Operation (Function.uncurry substitute)
  | replaceByFirst : Operation (Function.uncurry replaceByFirst)
  | replaceByLast : Operation (Function.uncurry replaceByLast)
  -- Transformations and derivations.
  | transformation : Operation fun x : _ × _ × _ => (transformation x.1 x.2.1 x.2.2).run
  | transformationConclusion : Operation fun t => pure (transformationConclusion t)
  | transformationVars : Operation fun t => pure (transformationVars t)
  | transformationPremises : Operation fun t => pure (transformationPremises t)
  | conclude : Operation fun x : _ × _ => (conclude x.1 x.2).run
  | matchConclusion : Operation fun x : _ × _ => (matchConclusion x.1 x.2).run
  | freeVariables : Operation fun x : _ × _ => pure (freeVariables x.1 x.2)
  | premisesUnder : Operation (Function.uncurry premisesUnder)
  | stated : Operation stated
  | axiomStatement : Operation fun a => pure (axiomStatement a)
  | rule : Operation rule
  | ruleTransformation : Operation fun r => pure (ruleTransformation r)
  | inference : Operation (Function.uncurry inference)
  | inferenceRule : Operation fun i => pure (inferenceRule i)
  | inferencePremises : Operation fun i => pure (inferencePremises i)
  | infer : Operation fun i => (infer i).run
  | proved : Operation fun x : _ × _ => (proved x.1 x.2).run
  | theoremStatement : Operation fun t => pure (theoremStatement t)
  | theoremInference : Operation fun t => pure (theoremInference t)
  | statedDerivation : Operation fun a : Shared Axiom => pure (a.cast Derivation.stated)
  | ruleDerivation : Operation fun r : Shared InferenceRule => pure (r.cast Derivation.rule)
  | provedDerivation : Operation fun t : Shared Theorem => pure (t.cast Derivation.proved)
  -- Objects that are read from formulas.
  | readSequence : Operation fun φ => (read .sequence Sequence.ofFormula φ).run
  | readEnumeration : Operation fun φ => (read .enumeration Enumeration.ofFormula φ).run
  | readMap : Operation fun φ => (read .map Map.ofFormula φ).run
  | readTransformation : Operation fun φ => (read .transformation Transformation.ofFormula φ).run
  | readAxiom : Operation fun φ => (read .statedAxiom Axiom.ofFormula φ).run
  | readRule : Operation fun φ => (read .inferenceRule InferenceRule.ofFormula φ).run
  | readInference : Operation fun φ => (read .inference Inference.ofFormula φ).run
  | readTheorem : Operation fun φ => (read .provedTheorem Theorem.ofFormula φ).run
  | readTheory : Operation fun φ => (read .theory Theory.ofFormula φ).run
  | readDerivation : Operation fun φ => (readDerivation φ).run
  | readAxiomatization : Operation fun φ => (readAxiomatization φ).run
  -- Theories and searches.
  | theory : Operation fun ds => (theory ds).run
  | derivations : Operation fun T => pure (derivations T)
  | extend : Operation fun x : _ × _ => (placed (extend x.1 x.2).result).run
  | unite : Operation fun x : _ × _ => (placed (unite x.1 x.2).result).run
  | derive : Operation fun x : _ × _ × _ × _ =>
      (placed ((derive x.1 x.2.1 x.2.2.1 x.2.2.2).result.map Prod.snd)).run
  | axiomatization : Operation fun ds => (axiomatization ds).run
  | extendAxioms : Operation fun x : _ × _ => (extendAxioms x.1 x.2).run
  | search : Operation fun x : _ × _ × _ =>
      (placed ((search x.1 x.2.1 x.2.2).result.map Prod.snd)).run
  | searchSequence : Operation fun x : _ × _ × _ =>
      (placed ((searchSequence x.1 x.2.1 x.2.2).result.map Prod.snd)).run

namespace Operation

variable {A B : Type} [HasFormulas A] [HasShares A] [HasFormulas B] [HasShares B]
  {F : A → Supply B}

/-- Operations are applied to values whose formulas are all shared. -/
theorem formulas_eq (operation : Operation F) (a : A) :
    formulas a = (shares a).map (·.value.root) := by
  cases operation <;> exact Whole.formulas_eq a

/-- What operations lead to has no formulas but its own. -/
theorem root_mem (operation : Operation F) (b : B) : ∀ x ∈ shares b, x.value.root ∈ formulas b := by
  cases operation <;> exact Accounted.root_mem b

end Operation

/-! ## Nodes -/

theorem placed_sound [HasShares α] {σ : Store} {result : Except ε (Supply α)}
    (h : ∀ value, result = .ok value → Supply.Places σ value Sound) :
    Supply.Places σ (placed result).run Sound := by
  cases result with
  | error e => exact .pure sound_error
  | ok value => exact (h value rfl).bind fun _ _ _ hx => .pure (sound_ok.mpr hx)

/-- Every operation leads from sound values to sound values. -/
theorem Operation.places {A B : Type} [HasFormulas A] [HasShares A] [HasFormulas B] [HasShares B]
    {F : A → Supply B} {σ : Store} {a : A} (operation : Operation F) (h : Sound σ a) :
    Supply.Places σ (F a) Sound := by
  cases operation with
  | apply c => exact apply_sound c h
  | nest c n => exact nest_sound c n h
  | build => exact build_sound h
  | freeze b => exact fresh_sound σ b.freeze
  | rename ρ => exact fresh_sound σ (a.value.rename ρ)
  | formula => exact .pure (formula_sound h)
  | term index => exact .pure (term?_sound h index)
  | subformulas => exact .pure (subformulas_sound h)
  | leaves => exact leaves_sound h
  | sequence => exact sequence_sound h
  | copy => exact copy_sound h
  | enumeration => exact enumeration_sound h
  | strip => exact strip_sound h
  | appendTo => exact appendTo_sound (sound_prod.mp h).1 (sound_prod.mp h).2
  | addTo => exact addTo_sound (sound_prod.mp h).1 (sound_prod.mp h).2
  | toSequence => exact toSequence_sound h
  | union => exact union_sound (sound_prod.mp h).1 (sound_prod.mp h).2
  | mapOfParts => exact mapOfParts_sound (sound_prod.mp h).1 (sound_prod.mp h).2
  | mapOfPairs => exact mapOfPairs_sound h
  | mapDomain => exact .pure (part_sound h rfl)
  | mapCodomain => exact .pure (part_sound h rfl)
  | image => exact image_sound (sound_prod.mp h).1 a.2
  | withPair =>
    obtain ⟨hm, hkey, himage⟩ : _ ∧ _ ∧ _ := by simpa only [sound_prod] using h
    exact withPair_sound hm hkey himage
  | without => exact without_sound (sound_prod.mp h).1 a.2
  | restrict => exact restrict_sound (sound_prod.mp h).1 a.2
  | inverse => exact inverse_sound h
  | matchPattern =>
    obtain ⟨htarget, hpattern, -, hbindings⟩ : _ ∧ _ ∧ _ ∧ _ := by
      simpa only [sound_prod] using h
    exact matchPattern_sound _ htarget hpattern hbindings
  | matchesPattern => exact .pure (by simp [Sound, shares])
  | substitute => exact substitute_sound (sound_prod.mp h).1 (sound_prod.mp h).2
  | replaceByFirst => exact replaceByFirst_sound (sound_prod.mp h).1 (sound_prod.mp h).2
  | replaceByLast => exact replaceByLast_sound (sound_prod.mp h).1 (sound_prod.mp h).2
  | transformation =>
    obtain ⟨hpremises, hconclusion, hvars⟩ : _ ∧ _ ∧ _ := by simpa only [sound_prod] using h
    exact transformation_sound hpremises hconclusion hvars
  | transformationConclusion => exact .pure (part_sound h rfl)
  | transformationVars => exact .pure (part_sound h rfl)
  | transformationPremises => exact .pure (part_sound h rfl)
  | conclude => exact conclude_sound (sound_prod.mp h).1 (sound_prod.mp h).2
  | matchConclusion => exact matchConclusion_sound (sound_prod.mp h).1 (sound_prod.mp h).2
  | freeVariables => exact .pure (freeVariables_sound (sound_prod.mp h).1 a.2)
  | premisesUnder => exact premisesUnder_sound (sound_prod.mp h).1 (sound_prod.mp h).2
  | stated => exact stated_sound h
  | axiomStatement => exact .pure (axiomStatement_sound h)
  | rule => exact rule_sound h
  | ruleTransformation => exact .pure (part_sound h rfl)
  | inference =>
    exact (inference_places (sound_prod.mp h).1 (sound_prod.mp h).2).imp fun _ _ _ hi => hi.2
  | inferenceRule => exact .pure (part_sound h rfl)
  | inferencePremises => exact .pure (part_sound h rfl)
  | infer => exact infer_sound h
  | proved => exact proved_sound (sound_prod.mp h).1 (sound_prod.mp h).2
  | theoremStatement => exact .pure (theoremStatement_sound h)
  | theoremInference => exact .pure (part_sound h rfl)
  | statedDerivation => exact .pure (sound_shared.mpr (sound_shared.mp h))
  | ruleDerivation => exact .pure (sound_shared.mpr (sound_shared.mp h))
  | provedDerivation => exact .pure (sound_shared.mpr (sound_shared.mp h))
  | readSequence =>
    exact read_sound (fun _ _ _ hn hs => Kept.bare_places (Node.toSequence_places hn hs)) h
  | readEnumeration =>
    exact read_sound (fun _ _ _ hn he => Kept.bare_places (Node.toEnumeration_places hn he)) h
  | readMap => exact read_sound (fun _ _ _ => Node.toMap_places) h
  | readTransformation => exact read_sound (fun _ _ _ => Node.toTransformation_places) h
  | readAxiom =>
    refine read_sound (fun n φ ax hn hφ => ?_) h
    obtain rfl : φ = ax.formula := Axiom.ofFormula_eq_ok.mp hφ
    exact .pure (.bare hn)
  | readRule => exact read_sound (fun _ _ _ => Node.toRule_places) h
  | readInference => exact read_sound (fun _ _ _ => Node.toInference_places) h
  | readTheorem => exact read_sound (fun _ _ _ => Node.toTheorem_places) h
  | readTheory => exact readTheory_sound h
  | readDerivation => exact readDerivation_sound h
  | readAxiomatization => exact readAxiomatization_sound h
  | theory => exact theory_sound h
  | derivations => exact .pure (derivations_sound h)
  | extend =>
    obtain ⟨hT, hds⟩ := sound_prod.mp h
    exact placed_sound fun _ => extend_sound hT hds
  | unite =>
    obtain ⟨hS, hT⟩ := sound_prod.mp h
    exact placed_sound fun _ => extend_sound hS (derivations_sound hT)
  | derive =>
    obtain ⟨hT, hconjecture, hpremises, hrule⟩ : _ ∧ _ ∧ _ ∧ _ := by
      simpa only [sound_prod] using h
    refine placed_sound fun value hvalue => ?_
    obtain ⟨⟨t, placed⟩, hrun, rfl⟩ := except_map_eq_ok.mp hvalue
    exact derive_sound hT hconjecture hpremises hrule hrun
  | axiomatization => exact axiomatization_sound h
  | extendAxioms => exact extendAxioms_sound (sound_prod.mp h).1 (sound_prod.mp h).2
  | search =>
    obtain ⟨hT, hplan, htarget⟩ : _ ∧ _ ∧ _ := by simpa only [sound_prod] using h
    refine placed_sound fun value hvalue => ?_
    obtain ⟨⟨o, placed⟩, hrun, rfl⟩ := except_map_eq_ok.mp hvalue
    exact search_sound hT hplan htarget hrun
  | searchSequence =>
    obtain ⟨hT, hplan, htargets⟩ : _ ∧ _ ∧ _ := by simpa only [sound_prod] using h
    refine placed_sound fun value hvalue => ?_
    obtain ⟨⟨o, placed⟩, hrun, rfl⟩ := except_map_eq_ok.mp hvalue
    exact searchSequence_sound hT hplan htargets hrun

/-! ## Values -/

section Values

variable [HasFormulas α] [HasFormulas ε] {next : Nat}

theorem proper_values {xs : List (Shared α)} : Proper (values xs) ↔ Proper xs := by
  simp only [proper_list, values, List.forall_mem_map]
  rfl

theorem proper_pairValues {pairs : List (Shared Formula × Shared Formula)} :
    Proper (pairValues pairs) ↔ Proper pairs := by
  simp only [proper_list, pairValues, List.forall_mem_map, proper_prod]
  rfl

theorem follow_proper {result : Except ε α} (h : Proper result) (x : Supply (Kept Node)) :
    Proper ((follow result x).run.run next).1 := by
  cases result <;> exact h

theorem followSome_proper {result : Except ε (Option α)} (h : Proper result)
    (x : Supply (Kept Node)) : Proper ((followSome result x).run.run next).1 := by
  cases result with
  | error e => exact h
  | ok a? => cases a? <;> exact h

theorem fresh_proper {result : Except ε Formula} (h : Proper result) :
    Proper ((fresh result).run.run next).1 := by
  cases result <;> exact h

theorem axiomatizationOn_proper {result : Except Error Axiomatization} (h : Proper result)
    (parts : List (Kept Node)) : Proper ((axiomatizationOn result parts).run.run next).1 := by
  cases result with
  | error e => exact h
  | ok A =>
    have hA : Proper A := h
    exact proper_prod.mpr ⟨hA, Axiomatization.theory_proper hA⟩

/-- Values that are given nodes remain proper. -/
theorem zipWith_proper {κ : Type} {f : α → κ → Shared α} (hf : ∀ a k, (f a k).value = a)
    {as : List α} (h : Proper as) (ks : List κ) : Proper (List.zipWith f as ks) := by
  induction as generalizing ks with
  | nil => exact proper_nil
  | cons a as ih =>
    obtain ⟨ha, has⟩ := List.forall_mem_cons.mp (proper_list.mp h)
    cases ks with
    | nil => exact proper_nil
    | cons k ks =>
      have hvalue : Proper (f a k).value := (hf a k).symm ▸ ha
      exact Proper.cons hvalue (ih (proper_list.mpr has) ks)

theorem together_proper {φs : List Formula} (h : Proper φs) (ns : List Node) :
    Proper (together φs ns) :=
  zipWith_proper (fun _ _ => rfl) h ns

theorem derivations_proper {T : Shared Theory} (h : Proper T) : Proper T.derivations :=
  zipWith_proper (fun _ _ => rfl) (proper_theory.mp h) T.kept.parts

theorem term?_proper {φ : Shared Formula} (h : Proper φ) (index : Nat) :
    Proper (φ.term? index) := by
  have hterms : Proper φ.value.terms := Formula.terms_proper h
  rw [term?]
  cases ht : φ.value.terms[index]? with
  | none => exact proper_none
  | some t =>
    cases φ.node.terms[index]? with
    | none => exact proper_none
    | some n => exact proper_some.mpr (hterms.mem (List.mem_of_getElem? ht))

theorem freeVariables_proper {t : Shared Transformation} (h : Proper t) (bindings : Shared Map) :
    Proper (t.freeVariables bindings) := by
  obtain ⟨-, hvars, -⟩ := proper_transformation.mp h
  exact (together_proper (proper_enumeration.mp hvars) _).subset (List.filter_subset_self _)

theorem readAxiomatization_proper {φ : Shared Formula} (h : Proper φ) :
    Proper ((readAxiomatization φ).run.run next).1 := by
  have hread : Proper (Axiomatization.ofFormula φ.value) := Axiomatization.ofFormula_proper h
  unfold readAxiomatization
  cases hA : Axiomatization.ofFormula φ.value with
  | error e =>
    have he : Proper e := hread.fault hA
    exact he
  | ok A =>
    have hA : Proper (.ok A : Except Error Axiomatization) := hread.value hA
    change Proper ((axiomatizationOn (.ok A)
      ((φ.node.toDerivations .theory).run next).1.parts).run.run _).1
    exact axiomatizationOn_proper hA _

/-- What a run leads to is as proper as the value that it is made from. -/
theorem placed_proper {γ δ : Type} [HasFormulas γ] {r : Run γ} {f : γ → δ × Supply α}
    (hr : Proper r) (hf : ∀ c, Proper c → Proper ((f c).2.run next).1) :
    Proper ((placed ((f <$> r).result.map Prod.snd)).run.run next).1 := by
  rw [map_eq_pure_bind, Run.result_bind]
  cases hresult : r.result with
  | error e =>
    have he : Proper e := Proper.fault hr hresult
    exact he
  | ok c => exact hf c (Proper.value hr hresult)

theorem extend_proper {T : Shared Theory} {ds : List (Shared Derivation)} (hT : Proper T)
    (hds : Proper ds) : Proper ((placed (T.extend ds).result).run.run next).1 := by
  have hextend : Proper (T.value.extend (values ds)) :=
    Theory.extend_proper hT (proper_values.mpr hds)
  have hresult : (T.extend ds).result = (T.value.extend (values ds)).map (T.extensionOf ds) := by
    rw [extend, Run.result_bind]
    rfl
  rw [hresult]
  cases hT' : T.value.extend (values ds) with
  | error e =>
    have he : Proper e := hextend.fault hT'
    exact he
  | ok T' =>
    have hT' : Proper T' := hextend.value hT'
    exact hT'

mutual

theorem build_proper : (t : Template (Shared Formula)) → Proper t →
    Proper (t.map (·.value)).build
  | .formula φ, h => proper_list.mp h φ (List.mem_singleton_self φ)
  | .apply c ts, h => (buildList_proper ts h).bind fun _ _ hφs => c.apply_proper hφs

theorem buildList_proper : (ts : List (Template (Shared Formula))) →
    Proper (Template.formulasList ts) → Proper (Template.buildList (Template.mapList (·.value) ts))
  | [], _ => proper_nil
  | t :: ts, h => by
    obtain ⟨hhead, htail⟩ := List.forall_mem_append.mp (proper_list.mp h)
    refine (build_proper t (proper_list.mpr hhead)).bind fun φ _ hφ => ?_
    exact (buildList_proper ts (proper_list.mpr htail)).bind fun _ _ hφs => hφ.cons hφs

end

end Values

/-- Every operation leads from proper values to proper values, its errors included. -/
theorem Operation.proper {A B : Type} [HasFormulas A] [HasShares A] [HasFormulas B] [HasShares B]
    {F : A → Supply B} {a : A} (operation : Operation F) (h : Proper a) (next : Nat) :
    Proper ((F a).run next).1 := by
  cases operation with
  | apply c => exact follow_proper (c.apply_proper (proper_values.mpr h)) _
  | nest c n => exact follow_proper (c.nest_proper n h) _
  | build => exact follow_proper (build_proper a h) _
  | freeze b => exact fresh_proper (b.freezeAt_proper [])
  | rename ρ => exact fresh_proper (Formula.rename_proper ρ a.value)
  | formula => exact h
  | term index => exact term?_proper h index
  | subformulas => exact together_proper (Formula.subformulas_proper h) _
  | leaves => exact Formula.leaves_proper h
  | sequence => exact proper_sequence.mpr (proper_values.mpr h)
  | copy => exact h
  | enumeration => exact follow_proper (Enumeration.ofList_proper (proper_values.mpr h)) _
  | strip => exact Enumeration.strip_proper (proper_values.mpr h)
  | appendTo => exact Sequence.withElement_proper (proper_prod.mp h).1 (proper_prod.mp h).2
  | addTo => exact Enumeration.withElement_proper (proper_prod.mp h).1 (proper_prod.mp h).2
  | toSequence => exact proper_sequence.mpr (proper_enumeration.mp h)
  | union => exact Enumeration.union_proper (proper_prod.mp h).1 (proper_prod.mp h).2
  | mapOfParts =>
    exact follow_proper (Map.ofParts_proper (proper_prod.mp h).1 (proper_prod.mp h).2) _
  | mapOfPairs => exact follow_proper (Map.ofPairs_proper (proper_pairValues.mpr h)) _
  | mapDomain => exact (proper_map_parts.mp h).1
  | mapCodomain => exact (proper_map_parts.mp h).2
  | image => exact follow_proper (Map.image_proper (proper_prod.mp h).1 (proper_prod.mp h).2) _
  | withPair =>
    obtain ⟨hm, hkey, himage⟩ : _ ∧ _ ∧ _ := by simpa only [proper_prod] using h
    exact Map.withPair_proper hm hkey himage
  | without => exact Map.without_proper (proper_prod.mp h).1 _
  | restrict => exact Map.restrict_proper (proper_prod.mp h).1 _
  | inverse => exact follow_proper (Map.inverse_proper h) _
  | matchPattern =>
    obtain ⟨htarget, -, hvars, hbindings⟩ : _ ∧ _ ∧ _ ∧ _ := by
      simpa only [proper_prod] using h
    exact followSome_proper
      (Formula.matchPattern_proper _ htarget (proper_values.mpr hvars) hbindings) _
  | matchesPattern =>
    obtain ⟨htarget, -, hvars⟩ : _ ∧ _ ∧ _ := by simpa only [proper_prod] using h
    exact Formula.matchesPattern_proper _ htarget (proper_values.mpr hvars)
  | substitute => exact Formula.substitute_proper (proper_prod.mp h).1 (proper_prod.mp h).2
  | replaceByFirst =>
    obtain ⟨hφ, hpairs⟩ := proper_prod.mp h
    exact Formula.replace_firstOf_proper hφ (proper_pairValues.mpr hpairs)
  | replaceByLast =>
    obtain ⟨hφ, hpairs⟩ := proper_prod.mp h
    exact Formula.replace_lastOf_proper hφ (proper_pairValues.mpr hpairs)
  | transformation =>
    obtain ⟨hpremises, hconclusion, hvars⟩ : _ ∧ _ ∧ _ := by simpa only [proper_prod] using h
    exact follow_proper (Transformation.ofParts_proper hpremises hconclusion hvars) _
  | transformationConclusion => exact (proper_transformation.mp h).1
  | transformationVars => exact (proper_transformation.mp h).2.1
  | transformationPremises => exact (proper_transformation.mp h).2.2
  | conclude =>
    obtain ⟨ht, harguments⟩ := proper_prod.mp h
    exact follow_proper (Transformation.apply_proper ht (proper_values.mpr harguments)) _
  | matchConclusion =>
    obtain ⟨ht, htarget⟩ := proper_prod.mp h
    exact followSome_proper (Transformation.matchConclusion_proper ht htarget) _
  | freeVariables => exact freeVariables_proper (proper_prod.mp h).1 a.2
  | premisesUnder =>
    exact Transformation.necessaryPremises_proper (proper_prod.mp h).1 (proper_prod.mp h).2
  | stated => exact proper_axiom.mpr h
  | axiomStatement => exact proper_axiom.mp h
  | rule => exact proper_rule.mpr h
  | ruleTransformation => exact proper_rule.mp h
  | inference => exact proper_inference.mpr (proper_prod.mp h)
  | inferenceRule => exact (proper_inference.mp h).1
  | inferencePremises => exact (proper_inference.mp h).2
  | infer =>
    obtain ⟨hrule, hpremises⟩ := proper_inference.mp h
    exact follow_proper
      (Transformation.apply_proper (proper_rule.mp hrule) (proper_sequence.mp hpremises)) _
  | proved =>
    exact follow_proper (Theorem.ofInference_proper (proper_prod.mp h).1 (proper_prod.mp h).2) _
  | theoremStatement => exact (proper_theorem.mp h).1
  | theoremInference => exact (proper_theorem.mp h).2
  | statedDerivation => exact h
  | ruleDerivation => exact h
  | provedDerivation => exact h
  | readSequence => exact follow_proper (Sequence.ofFormula_proper h) _
  | readEnumeration => exact follow_proper (Enumeration.ofFormula_proper h) _
  | readMap => exact follow_proper (Map.ofFormula_proper h) _
  | readTransformation => exact follow_proper (Transformation.ofFormula_proper h) _
  | readAxiom => exact follow_proper (Axiom.ofFormula_proper h) _
  | readRule => exact follow_proper (InferenceRule.ofFormula_proper h) _
  | readInference => exact follow_proper (Inference.ofFormula_proper h) _
  | readTheorem => exact follow_proper (Theorem.ofFormula_proper h) _
  | readTheory => exact follow_proper (Theory.ofFormula_proper h) _
  | readDerivation => exact follow_proper (Derivation.ofFormula_proper h) _
  | readAxiomatization => exact readAxiomatization_proper h
  | theory => exact follow_proper (Theory.ofList_proper (proper_values.mpr h)) _
  | derivations => exact derivations_proper h
  | extend => exact extend_proper (proper_prod.mp h).1 (proper_prod.mp h).2
  | unite => exact extend_proper (proper_prod.mp h).1 (derivations_proper (proper_prod.mp h).2)
  | derive =>
    obtain ⟨hT, hconjecture, hpremises, hrule⟩ : _ ∧ _ ∧ _ ∧ _ := by
      simpa only [proper_prod] using h
    exact placed_proper (Theory.derive_proper hT hconjecture hpremises hrule) fun x hx =>
      (proper_prod.mp hx).1
  | axiomatization =>
    exact axiomatizationOn_proper (Axiomatization.ofList_proper (proper_values.mpr h)) _
  | extendAxioms =>
    obtain ⟨hA, hds⟩ := proper_prod.mp h
    exact axiomatizationOn_proper (Axiomatization.extend_proper hA (proper_values.mpr hds)) _
  | search =>
    obtain ⟨hT, -, htarget⟩ : _ ∧ _ ∧ _ := by simpa only [proper_prod] using h
    exact placed_proper (a.2.1.strategy.search_proper hT htarget) fun o ho => (proper_prod.mp ho).1
  | searchSequence =>
    obtain ⟨hT, -, htargets⟩ : _ ∧ _ ∧ _ := by simpa only [proper_prod] using h
    have hrun := Search.sequence_proper
      (fun S target hS htarget => a.2.1.strategy.search_proper hS htarget) hT
      (proper_values.mpr htargets)
    exact placed_proper hrun fun o ho => (proper_prod.mp ho).1

end Shared

end Deduction
