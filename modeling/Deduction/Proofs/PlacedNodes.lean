import Deduction.Proofs.CanonicalFormulas
import Deduction.Proofs.KeptParts
import Deduction.Proofs.RuleApplication
import Deduction.Sharing.Bindings
import Deduction.Sharing.Reading

/-!
# Nodes of what is made, read, matched and substituted

The functions on nodes follow operations on formulas that succeed.  Each of them, started from nodes
of the formulas that the operation is applied to, places a node of the formula that the operation
leads to.  The statements are all of this form: a representation before, the success of the
operation, a representation after.  Where the operation leads to an object, it is what the object
keeps that is represented (`Kept.Represents`).

For matching, the pairs of nodes that `Node.bind` collects are nodes of the pairs of the map that
`Formula.unify` extends.  For substitution, it is enough that the images agree on the subformulas.
-/

namespace Deduction

namespace Node

open Object (outline)

variable {σ : Store} {n : Node} {φ : Formula}

/-! ## Made -/

/-- If nesting succeeds, it is nesting of nodes. -/
theorem nest_places {c : Connective} {k : Nat} {ψ : Formula} (h : n.Represents σ φ)
    (hψ : c.nest k φ = .ok ψ) : Supply.Places σ (nest c k n) fun σ' m => m.Represents σ' ψ := by
  induction k generalizing σ n φ with
  | zero =>
    obtain rfl : φ = ψ := Except.ok.inj hψ
    exact .pure h
  | succ k ih =>
    obtain ⟨χ, hχ, hψ⟩ := except_bind_eq_ok.mp hψ
    obtain ⟨-, rfl⟩ := Connective.apply_eq_ok.mp hχ
    exact (make_places c (.cons h .nil)).bind fun σ' m _ hm => ih hm hψ

/-! ## Read -/

theorem toSequence_places {s : Sequence} (h : n.Represents σ φ)
    (hs : Sequence.ofFormula φ = .ok s) :
    Supply.Places σ n.toSequence fun σ' m => m.Represents σ' s.formula := by
  unfold Sequence.ofFormula at hs
  split at hs
  next ts =>
    obtain rfl := Except.ok.inj hs
    have hkind : n.connective = .structural .sequence := h.connective
    rw [toSequence, if_pos hkind]
    exact .pure h
  next ts =>
    obtain rfl := Except.ok.inj hs
    rw [toSequence, if_neg (by simp [h.connective])]
    exact structural_places .sequence h.terms
  next => simp at hs

theorem toEnumeration_places {e : Enumeration} (h : n.Represents σ φ)
    (he : Enumeration.ofFormula φ = .ok e) :
    Supply.Places σ n.toEnumeration fun σ' m => m.Represents σ' e.formula := by
  unfold Enumeration.ofFormula at he
  split at he
  next ts =>
    obtain rfl := Enumeration.ofList_eq_ok.mp he
    exact structural_places .enumeration h.terms
  next ts =>
    obtain rfl := Enumeration.ofList_eq_ok.mp he
    exact structural_places .enumeration h.terms
  next => simp at he

theorem toMap_places {m : Map} (h : n.Represents σ φ) (hm : Map.ofFormula φ = .ok m) :
    Supply.Places σ n.toMap fun σ' k => k.Represents σ' (outline m) := by
  unfold Map.ofFormula at hm
  split at hm
  next domain codomain =>
    obtain ⟨e, he, hm⟩ := except_bind_eq_ok.mp hm
    obtain ⟨s, hs, hm⟩ := except_bind_eq_ok.mp hm
    obtain ⟨rfl, rfl⟩ := Map.ofParts_eq_ok.mp hm
    obtain ⟨a, c, ts⟩ := n
    have hterms : RepresentAll σ ts [domain, codomain] := h.terms
    obtain _ | ⟨hdomain, _ | ⟨hcodomain, _ | _⟩⟩ := hterms
    refine (toEnumeration_places hdomain he).bind fun σ₁ d hσ₁ hd => ?_
    refine (toSequence_places (hcodomain.mono hσ₁) hs).bind fun σ₂ c hσ₂ hc => ?_
    rw [m.outline_eq]
    exact Kept.structural_places .map (.cons (.bare (hd.mono hσ₂)) (.cons (.bare hc) .nil))
  next => simp at hm

theorem toTransformation_places {t : Transformation} (h : n.Represents σ φ)
    (ht : Transformation.ofFormula φ = .ok t) :
    Supply.Places σ n.toTransformation fun σ' k => k.Represents σ' (outline t) := by
  unfold Transformation.ofFormula at ht
  split at ht
  next conclusion vars premises =>
    obtain ⟨s, hs, ht⟩ := except_bind_eq_ok.mp ht
    obtain ⟨e, he, ht⟩ := except_bind_eq_ok.mp ht
    obtain ⟨rfl, rfl, rfl⟩ := Transformation.ofParts_eq_ok.mp ht
    obtain ⟨a, c, ts⟩ := n
    have hterms : RepresentAll σ ts [t.conclusion, vars, premises] := h.terms
    obtain _ | ⟨hconclusion, _ | ⟨hvars, _ | ⟨hpremises, _ | _⟩⟩⟩ := hterms
    refine (toSequence_places hpremises hs).bind fun σ₁ p hσ₁ hp => ?_
    refine (toEnumeration_places (hvars.mono hσ₁) he).bind fun σ₂ v hσ₂ hv => ?_
    have hc := (hconclusion.mono hσ₁).mono hσ₂
    exact Kept.structural_places .transformation
      (.cons (.bare hc) (.cons (.bare hv) (.cons (.bare (hp.mono hσ₂)) .nil)))
  next => simp at ht

theorem toRule_places {r : InferenceRule} (h : n.Represents σ φ)
    (hr : InferenceRule.ofFormula φ = .ok r) :
    Supply.Places σ n.toRule fun σ' k => k.Represents σ' (outline r) := by
  unfold InferenceRule.ofFormula at hr
  split at hr
  next transformation =>
    obtain ⟨t, ht, rfl⟩ := except_map_eq_ok.mp hr
    obtain ⟨a, c, ts⟩ := n
    have hterms : RepresentAll σ ts [transformation] := h.terms
    obtain _ | ⟨htransformation, _ | _⟩ := hterms
    refine (toTransformation_places htransformation (lift_eq_ok.mp ht)).bind fun σ₁ k _ hk => ?_
    exact Kept.structural_places .inferenceRule (.cons hk .nil)
  next => simp at hr

theorem toInference_places {i : Inference} (h : n.Represents σ φ)
    (hi : Inference.ofFormula φ = .ok i) :
    Supply.Places σ n.toInference fun σ' k => k.Represents σ' (outline i) := by
  unfold Inference.ofFormula at hi
  split at hi
  next rule premises =>
    obtain ⟨r, hr, hi⟩ := except_bind_eq_ok.mp hi
    obtain ⟨s, hs, rfl⟩ := except_map_eq_ok.mp hi
    obtain ⟨a, c, ts⟩ := n
    have hterms : RepresentAll σ ts [rule, premises] := h.terms
    obtain _ | ⟨hrule, _ | ⟨hpremises, _ | _⟩⟩ := hterms
    refine (toRule_places hrule hr).bind fun σ₁ r hσ₁ hr => ?_
    refine (toSequence_places (hpremises.mono hσ₁) (lift_eq_ok.mp hs)).bind fun σ₂ p hσ₂ hp => ?_
    exact Kept.structural_places .inference (.cons (hr.mono hσ₂) (.cons (.bare hp) .nil))
  next => simp at hi

theorem toTheorem_places {t : Theorem} (h : n.Represents σ φ) (ht : Theorem.ofFormula φ = .ok t) :
    Supply.Places σ n.toTheorem fun σ' k => k.Represents σ' (outline t) := by
  unfold Theorem.ofFormula at ht
  split at ht
  next statement inference =>
    obtain ⟨i, hi, ht⟩ := except_bind_eq_ok.mp ht
    obtain ⟨rfl, rfl⟩ := Theorem.ofInference_eq_ok.mp ht
    obtain ⟨a, c, ts⟩ := n
    have hterms : RepresentAll σ ts [t.statement, inference] := h.terms
    obtain _ | ⟨hstatement, _ | ⟨hinference, _ | _⟩⟩ := hterms
    refine (toInference_places hinference hi).bind fun σ₁ i hσ₁ hi => ?_
    exact Kept.provedTheorem_places (hstatement.mono hσ₁) hi
  next => simp at ht

theorem toDerivation_places {d : Derivation} (h : n.Represents σ φ)
    (hd : Derivation.ofFormula φ = .ok d) :
    Supply.Places σ n.toDerivation fun σ' k => k.Represents σ' (outline d) := by
  have hconnective := h.connective
  unfold Derivation.ofFormula at hd
  split at hd
  next hkind =>
    obtain ⟨a, ha, rfl⟩ := except_map_eq_ok.mp hd
    obtain rfl : φ = a.formula := Axiom.ofFormula_eq_ok.mp ha
    rw [toDerivation, hconnective, hkind]
    exact .pure (.bare h)
  next hkind =>
    obtain ⟨r, hr, rfl⟩ := except_map_eq_ok.mp hd
    rw [toDerivation, hconnective, hkind]
    exact toRule_places h hr
  next hkind =>
    obtain ⟨t, ht, rfl⟩ := except_map_eq_ok.mp hd
    rw [toDerivation, hconnective, hkind]
    exact toTheorem_places h ht
  next => simp at hd

/-- Derivations are read one after the other. -/
theorem mapM_toDerivation_places {ns : List Node} {φs : List Formula} {ds : List Derivation}
    (h : RepresentAll σ ns φs) (hds : Derivation.ofFormulas φs = .ok ds) :
    Supply.Places σ (ns.mapM toDerivation) fun σ' ks =>
      List.Forall₂ (Kept.Represents σ') ks (ds.map outline) := by
  induction ns generalizing σ φs ds with
  | nil =>
    obtain _ | _ := h
    obtain rfl := Except.ok.inj hds
    rw [List.mapM_nil]
    exact .pure .nil
  | cons n ns ih =>
    obtain _ | ⟨hn, hns⟩ := h
    obtain ⟨d, hd, hds⟩ := except_bind_eq_ok.mp hds
    obtain ⟨rest, hrest, rfl⟩ := except_map_eq_ok.mp hds
    rw [List.mapM_cons]
    refine (toDerivation_places hn hd).bind fun σ₁ k hσ₁ hk => ?_
    refine (ih (RepresentAll.mono hns hσ₁) hrest).bind fun σ₂ ks hσ₂ hks => ?_
    exact .pure (.cons (hk.mono hσ₂) hks)

theorem toDerivations_places (kind : Structure) {ds : List Derivation} (h : n.Represents σ φ)
    (hds : Derivation.ofFormulas φ.terms = .ok ds) :
    Supply.Places σ (n.toDerivations kind) fun σ' k =>
      k.Represents σ' (.mk (.structural kind (ds.map (·.formula))) (ds.map outline)) := by
  rw [← Derivation.map_root_outline]
  exact (mapM_toDerivation_places h.terms hds).bind fun _ _ _ hks =>
    Kept.structural_places kind hks

/-! ## Matched -/

/-- The pairs of nodes are nodes of the pairs of formulas, one by one. -/
abbrev RepresentPairs (σ : Store) : List (Node × Node) → List (Formula × Formula) → Prop :=
  List.Forall₂ fun p q => p.1.Represents σ q.1 ∧ p.2.Represents σ q.2

variable {σ' : Store} {ps : List (Node × Node)} {qs : List (Formula × Formula)}

theorem RepresentPairs.mono (h : RepresentPairs σ ps qs) (hσ : σ <+: σ') :
    RepresentPairs σ' ps qs :=
  h.imp fun _ _ hp => ⟨hp.1.mono hσ, hp.2.mono hσ⟩

theorem RepresentPairs.keys (h : RepresentPairs σ ps qs) :
    RepresentAll σ (ps.map Prod.fst) (qs.map Prod.fst) :=
  List.forall₂_map_left_iff.mpr (List.forall₂_map_right_iff.mpr (h.imp fun _ _ hp => hp.1))

theorem RepresentPairs.images (h : RepresentPairs σ ps qs) :
    RepresentAll σ (ps.map Prod.snd) (qs.map Prod.snd) :=
  List.forall₂_map_left_iff.mpr (List.forall₂_map_right_iff.mpr (h.imp fun _ _ hp => hp.2))

theorem RepresentPairs.swap (h : RepresentPairs σ ps qs) :
    RepresentPairs σ (ps.map Prod.swap) (qs.map Prod.swap) :=
  List.forall₂_map_left_iff.mpr (List.forall₂_map_right_iff.mpr (h.imp fun _ _ hp => hp.symm))

theorem RepresentPairs.filter (h : RepresentPairs σ ps qs) (keep : Formula → Bool) :
    RepresentPairs σ (ps.filter (keep ·.1.formula)) (qs.filter (keep ·.1)) :=
  List.rel_filter (fun p q hp => by simp [hp.1.formula_eq]) h

theorem representPairs_zip {ds cs : List Node} (hds : RepresentAll σ ds (qs.map Prod.fst))
    (hcs : RepresentAll σ cs (qs.map Prod.snd)) : RepresentPairs σ (ds.zip cs) qs := by
  induction qs generalizing ds cs with
  | nil =>
    obtain _ | _ := hds
    exact .nil
  | cons q qs ih =>
    obtain _ | ⟨hd, hds⟩ := hds
    obtain _ | ⟨hc, hcs⟩ := hcs
    exact .cons ⟨hd, hc⟩ (ih hds hcs)

/-- The pairs of what a map keeps are nodes of the pairs of the map. -/
theorem representPairs_map {m : Map} {k : Kept Node} (h : k.Represents σ (outline m)) :
    RepresentPairs σ k.pairs m.pairs := by
  have hdomain := (h.part 0 rfl).node
  have hcodomain := (h.part 1 rfl).node
  exact representPairs_zip (m.map_fst_pairs ▸ hdomain.terms) (m.map_snd_pairs ▸ hcodomain.terms)

theorem ofPairs_places {m : Map} (h : RepresentPairs σ ps m.pairs) :
    Supply.Places σ (Kept.ofPairs ps) fun σ' k => k.Represents σ' (outline m) := by
  refine (structural_places .enumeration h.keys).bind fun σ₁ d hσ₁ hd => ?_
  refine (structural_places .sequence (h.mono hσ₁).images).bind fun σ₂ c hσ₂ hc => ?_
  rw [m.map_fst_pairs] at hd
  rw [m.map_snd_pairs] at hc
  rw [m.outline_eq]
  exact Kept.structural_places .map (.cons (.bare (hd.mono hσ₂)) (.cons (.bare hc) .nil))

/-- There is a node of the image, or neither of them is there. -/
abbrev RepresentsSome (σ : Store) : Option Node → Option Formula → Prop :=
  Option.Rel (Represents σ)

theorem RepresentsSome.mono {n? : Option Node} {φ? : Option Formula}
    (h : RepresentsSome σ n? φ?) (hσ : σ <+: σ') : RepresentsSome σ' n? φ? := by
  cases h with
  | some h => exact .some (h.mono hσ)
  | none => exact .none

/-- The first pair of nodes for a key is one of the first pair of formulas for it. -/
theorem RepresentPairs.find? (h : RepresentPairs σ ps qs) (χ : Formula) :
    Option.Rel (fun p q => p.1.Represents σ q.1 ∧ p.2.Represents σ q.2)
      (ps.find? (·.1.formula = χ)) (qs.find? (·.1 = χ)) := by
  induction h with
  | nil => exact .none
  | @cons p q ps qs hp _ ih =>
    rw [List.find?_cons, List.find?_cons, hp.1.formula_eq]
    cases decide (q.1 = χ) with
    | true => exact .some hp
    | false => exact ih

/-- Looking up in pairs of nodes finds a node of what looking up in the pairs of formulas finds. -/
theorem RepresentPairs.image? (h : RepresentPairs σ ps qs) (χ : Formula) :
    RepresentsSome σ (image? ps χ) (Lookup.firstOf qs χ) := by
  have hfound := h.find? χ
  rw [Node.image?, Lookup.firstOf]
  generalize ps.find? (·.1.formula = χ) = p? at hfound ⊢
  generalize qs.find? (·.1 = χ) = q? at hfound ⊢
  cases hfound with
  | some hp => exact .some hp.2
  | none => exact .none

mutual

/-- A match of formulas that succeeds is followed by the match of their nodes. -/
theorem bind_represents (vars : List Formula) : (pattern : Node) → {target : Node} →
    {p t : Formula} → {pairs : List (Node × Node)} → {qs qs' : List (Formula × Formula)} →
    pattern.Represents σ p → target.Represents σ t → RepresentPairs σ pairs qs →
    Formula.unify vars p t qs = some qs' → RepresentPairs σ (bind vars pattern target pairs) qs'
  | .mk a c ps, target, p, t, pairs, qs, qs', hpattern, htarget, hpairs, hm => by
    obtain rfl : p = .node c (ps.map formula) := by rw [← hpattern.formula_eq, formula_mk]
    have himage := hpairs.image? (.node c (ps.map formula))
    rw [Formula.unify] at hm
    rw [bind, formula_mk]
    by_cases hvar : Formula.node c (ps.map formula) ∈ vars
    · -- The first occurrence of a variable binds it; for nodes and formulas it is the same one.
      rw [if_pos hvar] at hm ⊢
      generalize image? pairs (.node c (ps.map formula)) = image? at himage ⊢
      generalize Lookup.firstOf qs (.node c (ps.map formula)) = bound? at himage hm
      cases himage with
      | some _ =>
        obtain rfl : qs = qs' := by simpa using (Option.ite_none_right_eq_some.mp hm).2
        exact hpairs
      | none =>
        obtain rfl := Option.some.inj hm
        exact List.rel_append hpairs (.cons ⟨hpattern, htarget⟩ .nil)
    · rw [if_neg hvar] at hm ⊢
      obtain ⟨-, hterms⟩ := Option.ite_none_right_eq_some.mp hm
      exact bindList_represents vars ps hpattern.terms htarget.terms hpairs hterms

/-- Matches of formulas in order are followed by the matches of their nodes. -/
theorem bindList_represents (vars : List Formula) : (patterns : List Node) →
    {targets : List Node} → {ps ts : List Formula} → {pairs : List (Node × Node)} →
    {qs qs' : List (Formula × Formula)} → RepresentAll σ patterns ps →
    RepresentAll σ targets ts → RepresentPairs σ pairs qs →
    Formula.unifyList vars ps ts qs = some qs' →
    RepresentPairs σ (bindList vars patterns targets pairs) qs'
  | [], _, _, _, _, _, _, .nil, .nil, hpairs, hm => by
    obtain rfl := Option.some.inj hm
    exact hpairs
  | [], _, _, _, _, _, _, .nil, .cons .., hpairs, hm => by
    simp [Formula.unifyList] at hm
  | _ :: _, _, _, _, _, _, _, .cons .., .nil, hpairs, hm => by
    simp [Formula.unifyList] at hm
  | pattern :: patterns, _, _, _, _, _, _, .cons hpattern hpatterns, .cons htarget htargets, hpairs,
      hm => by
    rw [Formula.unifyList] at hm
    split at hm
    next hhead =>
      rw [bindList]
      have hhead := bind_represents vars pattern hpattern htarget hpairs hhead
      exact bindList_represents vars patterns hpatterns htargets hhead hm
    next => simp at hm

end

/-- The matches of the arguments of a transformation are followed by the matches of their nodes. -/
theorem bindList_represents_solve {vars : List Formula} {premises arguments : List Node}
    {ps as : List Formula} {pairs : List (Node × Node)} {b m : Map}
    (hpremises : RepresentAll σ premises ps) (harguments : RepresentAll σ arguments as)
    (hpairs : RepresentPairs σ pairs b.pairs)
    (hm : Transformation.solve vars ps as b = .ok (some m)) :
    RepresentPairs σ (bindList vars premises arguments pairs) m.pairs := by
  induction hpremises generalizing arguments as pairs b with
  | nil =>
    obtain rfl : b = m := by simpa [Transformation.solve, pure, Except.pure] using hm
    rw [bindList]
    · exact hpairs
    · simp
  | @cons p _ premises _ hp _ ih =>
    cases harguments with
    | nil =>
      obtain rfl : b = m := by simpa [Transformation.solve, pure, Except.pure] using hm
      exact hpairs
    | cons ha harguments =>
      obtain ⟨b', hb', hm⟩ := Transformation.solve_cons_eq_some.mp hm
      obtain ⟨-, -, hunify⟩ := Formula.matchPattern_eq_ok.mp hb'
      rw [bindList]
      exact ih harguments (bind_represents vars p hp ha hpairs hunify) hm

/-! ## Substituted -/

mutual

/-- Substitution places a node of the formula with its subformulas replaced, if the images agree on
the subformulas. -/
theorem substitute_places {image : Formula → Option Node} {f : Lookup} : (n : Node) →
    {σ : Store} → {φ : Formula} → n.Represents σ φ →
    (∀ χ ∈ φ.preorder, RepresentsSome σ (image χ) (f χ)) →
    Supply.Places σ (n.substitute image) fun σ' m => m.Represents σ' (φ.replace f)
  | .mk a c ts, σ, φ, h, himage => by
    obtain rfl : φ = .node c (ts.map formula) := by rw [← h.formula_eq, formula_mk]
    have hroot := himage _ (Formula.mem_preorder_self _)
    rw [substitute, formula_mk, Formula.replace_node]
    generalize image (.node c (ts.map formula)) = image? at hroot ⊢
    generalize f (.node c (ts.map formula)) = f? at hroot ⊢
    cases hroot with
    | some hroot => exact .pure hroot
    | none =>
      cases ts with
      | nil => exact .pure h
      | cons t ts =>
        have hterms : ∀ χ ∈ Formula.preorderList ((t :: ts).map formula),
            RepresentsSome σ (image χ) (f χ) := fun χ hχ => himage χ <| by
          rw [Formula.preorder_node]
          exact List.mem_cons_of_mem _ hχ
        refine (substituteList_places (t :: ts) h.terms hterms).bind fun σ' ns _ hns => ?_
        exact make_places c hns

/-- Substitution in a list of nodes goes from left to right. -/
theorem substituteList_places {image : Formula → Option Node} {f : Lookup} : (ns : List Node) →
    {σ : Store} → {φs : List Formula} → RepresentAll σ ns φs →
    (∀ χ ∈ Formula.preorderList φs, RepresentsSome σ (image χ) (f χ)) →
    Supply.Places σ (substituteList image ns) fun σ' ms =>
      RepresentAll σ' ms (φs.map (·.replace f))
  | [], _, _, .nil, _ => .pure .nil
  | n :: ns, σ, φ :: φs, .cons hn hns, himage => by
    have hhead : ∀ χ ∈ φ.preorder, RepresentsSome σ (image χ) (f χ) := fun χ hχ =>
      himage χ (by simp [Formula.preorderList, hχ])
    rw [substituteList]
    refine (substitute_places n hn hhead).bind fun σ₁ m hσ₁ hm => ?_
    have hns' : RepresentAll σ₁ ns φs := RepresentAll.mono hns hσ₁
    have htail : ∀ χ ∈ Formula.preorderList φs, RepresentsSome σ₁ (image χ) (f χ) := fun χ hχ =>
      (himage χ (by simp [Formula.preorderList, hχ])).mono hσ₁
    refine (substituteList_places ns hns' htail).bind fun σ₂ ms hσ₂ hms => ?_
    exact .pure (.cons (hm.mono hσ₂) hms)

end

/-! ## Parts -/

mutual

/-- The nodes below a node are nodes of the subformulas. -/
theorem Represents.preorder : (n : Node) → {φ : Formula} → n.Represents σ φ →
    RepresentAll σ n.preorder φ.preorder
  | .mk a c ts, φ, h => by
    obtain rfl : φ = .node c (ts.map formula) := by rw [← h.formula_eq, formula_mk]
    rw [Node.preorder, Formula.preorder]
    exact .cons h (RepresentAll.preorder ts h.terms)

theorem RepresentAll.preorder : (ns : List Node) → {φs : List Formula} → RepresentAll σ ns φs →
    RepresentAll σ (preorderList ns) (Formula.preorderList φs)
  | [], _, .nil => .nil
  | n :: ns, _, .cons hn hns =>
    List.rel_append (Represents.preorder n hn) (RepresentAll.preorder ns hns)

end

/-- The term at an index is a node of the formula at the index. -/
theorem Represents.term {ψ : Formula} {index : Nat} (h : n.Represents σ φ)
    (hψ : φ.terms[index]? = some ψ) : (n.term index).Represents σ ψ := by
  have hterm := forall₂_getElem? h.terms index
  rw [hψ] at hterm
  obtain ⟨t, ht, hψ⟩ := exists_of_rel_some hterm
  rwa [Node.term, List.getD_eq_getElem?_getD, ht]

section Transformations

variable {t : Transformation} {k : Kept Node} (h : k.Represents σ (outline t))

include h

/-- A transformation keeps nodes of the conclusion, the variables and the premises. -/
theorem represents_transformation :
    k.conclusion.Represents σ t.conclusion ∧ k.vars = t.vars.elements ∧
      RepresentAll σ k.premises t.premises.elements := by
  have hvars := (h.part 1 rfl).node
  exact ⟨(h.part 0 rfl).node, (representAll_iff.mp hvars.terms).2,
    (h.part 2 rfl).node.terms⟩

theorem apply_places {arguments : List Node} {as : List Formula} {ψ : Formula}
    (harguments : RepresentAll σ arguments as) (hψ : t.apply as = .ok ψ) :
    Supply.Places σ (k.apply arguments) fun σ' m => m.Represents σ' ψ := by
  obtain ⟨hconclusion, hvars, hpremises⟩ := represents_transformation h
  obtain ⟨-, m, hm, rfl⟩ := Transformation.apply_eq_ok.mp hψ
  have hpairs : RepresentPairs σ (bindList k.vars k.premises arguments []) m.pairs :=
    hvars ▸ bindList_represents_solve hpremises harguments .nil hm
  exact substitute_places _ hconclusion fun χ _ => Lookup.firstOf_map m ▸ hpairs.image? χ

end Transformations

end Node

end Deduction
