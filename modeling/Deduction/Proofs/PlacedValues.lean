import Deduction.Proofs.FiniteMaps
import Deduction.Proofs.PlacedNodes
import Deduction.Proofs.SearchInversion
import Deduction.Sharing.Shared

/-!
# Values that agree with their nodes

A shared value is a value and the nodes that it keeps, and nothing in `Shared` says that these are
nodes of what the value keeps.  It is *sound* in a store if they are.  Every operation on shared
values leads from sound values to sound values; what it does to the nodes follows what it does to
the values, also where the value is not made anew but kept.
-/

namespace Deduction

open Object (outline)

/-! ## Shared objects in values -/

mutual

/-- The formulas at hand in a template, from left to right. -/
def Template.formulas {α : Type} : Template α → List α
  | .formula a => [a]
  | .apply _ ts => formulasList ts

/-- The formulas at hand in templates, from left to right. -/
def Template.formulasList {α : Type} : List (Template α) → List α
  | [] => []
  | t :: ts => t.formulas ++ formulasList ts

end

/-- Values with shared objects in them. -/
class HasShares (α : Type) where
  /-- What the objects in the value keep, with their nodes. -/
  shares : α → List (Shared (Kept Formula))

open HasShares (shares)

section Shares

variable {α β ε : Type} [HasShares α] [HasShares β]

instance : HasShares Unit := ⟨fun _ => []⟩
instance [Object α] : HasShares (Shared α) := ⟨fun x => [x.cast outline]⟩
instance : HasShares (List α) := ⟨fun as => as.flatMap shares⟩
instance : HasShares (Option α) := ⟨fun a? => a?.toList.flatMap shares⟩
instance : HasShares (α × β) := ⟨fun p => shares p.1 ++ shares p.2⟩
instance : HasShares (Except ε α) := ⟨fun x => x.toOption.toList.flatMap shares⟩
instance : HasShares (Template (Shared Formula)) := ⟨fun t => shares t.formulas⟩
instance : HasShares Shared.Plan := ⟨fun plan => plan.sources.flatMap shares⟩

/-- All objects in the value have nodes of what they keep. -/
def Sound (σ : Store) (a : α) : Prop := ∀ x ∈ shares a, x.kept.Represents σ x.value

variable {σ σ' : Store}

theorem Sound.mono {a : α} (h : Sound σ a) (hσ : σ <+: σ') : Sound σ' a :=
  fun x hx => (h x hx).mono hσ

@[simp] theorem sound_shared {γ : Type} [Object γ] {x : Shared γ} :
    Sound σ x ↔ x.kept.Represents σ (outline x.value) := by
  simp [Sound, shares, Shared.cast]

theorem Sound.node {γ : Type} [Object γ] {x : Shared γ} (h : Sound σ x) :
    x.node.Represents σ (Object.formula x.value) :=
  (sound_shared.mp h).node

/-- A formula has no parts, so its node is all that it keeps. -/
theorem sound_bare {φ : Formula} {n : Node} (h : n.Represents σ φ) :
    Sound σ (⟨φ, .bare n⟩ : Shared Formula) :=
  sound_shared.mpr (.bare h)

@[simp] theorem sound_list {as : List α} : Sound σ as ↔ ∀ a ∈ as, Sound σ a := by
  simp only [Sound, shares, List.mem_flatMap]
  constructor
  · exact fun h a ha x hx => h x ⟨a, ha, hx⟩
  · rintro h x ⟨a, ha, hx⟩
    exact h a ha x hx

@[simp] theorem sound_none : Sound σ (none : Option α) := by simp [Sound, shares]

@[simp] theorem sound_some {a : α} : Sound σ (some a) ↔ Sound σ a := by simp [Sound, shares]

@[simp] theorem sound_prod {p : α × β} : Sound σ p ↔ Sound σ p.1 ∧ Sound σ p.2 := by
  simp [Sound, shares, or_imp, forall_and]

@[simp] theorem sound_ok {a : α} : Sound σ (.ok a : Except ε α) ↔ Sound σ a := by
  simp [Sound, shares, Except.toOption]

@[simp] theorem sound_error {e : ε} : Sound σ (.error e : Except ε α) := by
  simp [Sound, shares, Except.toOption]

/-- The pairs of a sound map are nodes of its pairs. -/
theorem Sound.pairs {m : Shared Map} (h : Sound σ m) :
    Node.RepresentPairs σ m.kept.pairs m.value.pairs :=
  Node.representPairs_map (sound_shared.mp h)

/-- Looking up among the nodes of a sound map finds nodes of what looking up in the map finds. -/
theorem Sound.image? {m : Shared Map} (h : Sound σ m) (χ : Formula) :
    Node.RepresentsSome σ (Node.image? m.kept.pairs χ) (m.value.get? χ) :=
  Lookup.firstOf_map m.value ▸ h.pairs.image? χ

end Shares

/-! ## Formulas -/

namespace Shared

variable {α β ε : Type} {σ : Store}

theorem place_places [Object α] {a : α} {x : Supply (Kept Node)}
    (h : Supply.Places σ x fun σ' k => k.Represents σ' (outline a)) :
    Supply.Places σ (place a x) fun σ' x => x.value = a ∧ Sound σ' x :=
  h.bind fun _ _ _ hk => .pure ⟨rfl, sound_shared.mpr hk⟩

theorem place_sound [Object α] {a : α} {x : Supply (Kept Node)}
    (h : Supply.Places σ x fun σ' k => k.Represents σ' (outline a)) :
    Supply.Places σ (place a x) Sound :=
  (place_places h).imp fun _ _ _ hx => hx.2

/-- If there is a value it has to be given nodes, and otherwise there is nothing to do. -/
theorem follow_sound [Object α] {result : Except ε α} {x : Supply (Kept Node)}
    (h : ∀ a, result = .ok a →
      Supply.Places σ x fun σ' k => k.Represents σ' (outline a)) :
    Supply.Places σ (follow result x).run Sound := by
  cases result with
  | error e => exact .pure sound_error
  | ok a => exact (place_sound (h a rfl)).bind fun _ _ _ hx => .pure (sound_ok.mpr hx)

theorem followSome_sound [Object α] {result : Except ε (Option α)} {x : Supply (Kept Node)}
    (h : ∀ a, result = .ok (some a) →
      Supply.Places σ x fun σ' k => k.Represents σ' (outline a)) :
    Supply.Places σ (followSome result x).run Sound := by
  cases result with
  | error e => exact .pure sound_error
  | ok a? =>
    cases a? with
    | none => exact .pure (sound_ok.mpr sound_none)
    | some a =>
      exact (place_sound (h a rfl)).bind fun _ _ _ hx => .pure (sound_ok.mpr (sound_some.mpr hx))

/-- Sound values in a list keep nodes of what they keep. -/
theorem represents_of_sound [Object α] {xs : List (Shared α)} (h : Sound σ xs) :
    List.Forall₂ (Kept.Represents σ) (xs.map (·.kept)) ((values xs).map outline) := by
  induction xs with
  | nil => exact .nil
  | cons x xs ih =>
    have h : Sound σ x ∧ Sound σ xs := by simpa using h
    exact .cons (sound_shared.mp h.1) (ih h.2)

theorem representAll_formulas {xs : List (Shared Formula)} (h : Sound σ xs) :
    Node.RepresentAll σ (nodes xs) (values xs) := by
  have hroots := Kept.representAll_root (represents_of_sound h)
  have hnodes : (xs.map (·.kept)).map Kept.root = nodes xs := List.map_map
  have hvalues : ((values xs).map outline).map Kept.root = values xs := by
    rw [List.map_map]
    exact List.map_id _
  rwa [hnodes, hvalues] at hroots

theorem together_sound {φs : List Formula} {ns : List Node} (h : Node.RepresentAll σ ns φs) :
    Sound σ (together φs ns) := by
  induction h with
  | nil => simp [together]
  | cons hn _ ih =>
    exact sound_list.mpr (List.forall_mem_cons.mpr ⟨sound_bare hn, sound_list.mp ih⟩)

theorem formula_sound [Object α] {x : Shared α} (h : Sound σ x) : Sound σ x.formula :=
  sound_bare h.node

/-- A part is sound where the object is. -/
theorem part_sound [Object α] [Object β] {x : Shared α} {f : α → β} {index : Nat} (h : Sound σ x)
    (hpart : (outline x.value).parts[index]? = some (outline (f x.value))) :
    Sound σ (x.part f index) :=
  sound_shared.mpr ((sound_shared.mp h).part index hpart)

variable {φ : Shared Formula}

theorem apply_sound (c : Connective) {ts : List (Shared Formula)} (h : Sound σ ts) :
    Supply.Places σ (apply c ts).run Sound := by
  refine follow_sound fun ψ hψ => ?_
  obtain ⟨-, rfl⟩ := Connective.apply_eq_ok.mp hψ
  exact Kept.bare_places (Node.make_places c (representAll_formulas h))

theorem nest_sound (c : Connective) (n : Nat) (h : Sound σ φ) :
    Supply.Places σ (nest c n φ).run Sound :=
  follow_sound fun _ hψ => Kept.bare_places (Node.nest_places h.node hψ)

theorem term?_sound (h : Sound σ φ) (index : Nat) : Sound σ (φ.term? index) := by
  have hterm : Node.RepresentsSome σ φ.node.terms[index]? φ.value.terms[index]? :=
    forall₂_getElem? h.node.terms index
  rw [term?]
  generalize φ.node.terms[index]? = n? at hterm ⊢
  generalize φ.value.terms[index]? = ψ? at hterm ⊢
  cases hterm with
  | some hn => exact sound_some.mpr (sound_bare hn)
  | none => exact sound_none

theorem subformulas_sound (h : Sound σ φ) : Sound σ φ.subformulas := by
  rw [subformulas, Formula.subformulas_eq_preorder]
  exact together_sound (Node.Represents.preorder _ h.node)

theorem fresh_sound (σ : Store) (result : Except ε Formula) :
    Supply.Places σ (fresh result).run Sound := by
  cases result with
  | error e => exact .pure sound_error
  | ok ψ =>
    have hplace : Supply.Places σ (place ψ (.bare <$> Node.ofFormula ψ)) Sound :=
      place_sound (Kept.bare_places (Node.ofFormula_places σ ψ))
    exact hplace.bind fun _ _ _ hx => .pure (sound_ok.mpr hx)

mutual

/-- A template that can be made from the values is made from their nodes. -/
theorem ofTemplate_places : (t : Template (Shared Formula)) → {σ : Store} → {ψ : Formula} →
    Sound σ t → (t.map (·.value)).build = .ok ψ →
    Supply.Places σ (Node.ofTemplate (t.map node)) fun σ' n => n.Represents σ' ψ
  | .formula x, σ, ψ, h, hψ => by
    obtain rfl := Except.ok.inj hψ
    have hx : Sound σ x := sound_list.mp h x (List.mem_singleton_self x)
    exact .pure hx.node
  | .apply c ts, σ, ψ, h, hψ => by
    obtain ⟨ψs, hψs, hψ⟩ := except_bind_eq_ok.mp hψ
    obtain ⟨-, rfl⟩ := Connective.apply_eq_ok.mp hψ
    exact (ofTemplateList_places ts h hψs).bind fun _ _ _ hns => Node.make_places c hns

/-- Templates that can be made from the values are made from their nodes. -/
theorem ofTemplateList_places : (ts : List (Template (Shared Formula))) → {σ : Store} →
    {ψs : List Formula} → Sound σ (Template.formulasList ts) →
    Template.buildList (Template.mapList (·.value) ts) = .ok ψs →
    Supply.Places σ (Node.ofTemplateList (Template.mapList node ts)) fun σ' ns =>
      Node.RepresentAll σ' ns ψs
  | [], _, _, _, hψs => by
    obtain rfl := Except.ok.inj hψs
    exact .pure .nil
  | t :: ts, σ, _, h, hψs => by
    obtain ⟨ψ, hψ, hψs⟩ := except_bind_eq_ok.mp hψs
    obtain ⟨rest, hrest, rfl⟩ := except_map_eq_ok.mp hψs
    obtain ⟨hhead, htail⟩ := List.forall_mem_append.mp (sound_list.mp h)
    refine (ofTemplate_places t (sound_list.mpr hhead) hψ).bind fun σ₁ n hσ₁ hn => ?_
    have htail : Sound σ₁ (Template.formulasList ts) := (sound_list.mpr htail).mono hσ₁
    refine (ofTemplateList_places ts htail hrest).bind fun σ₂ ns hσ₂ hns => ?_
    exact .pure (.cons (hn.mono hσ₂) hns)

end

theorem build_sound {t : Template (Shared Formula)} (h : Sound σ t) :
    Supply.Places σ (build t).run Sound :=
  follow_sound fun _ hψ => Kept.bare_places (ofTemplate_places t h hψ)

/-! ## Collections -/

/-- The first occurrences in a list are related to the first occurrences in a list that it is
related to one by one, if what is related has one formula and no two values have the same. -/
theorem forall₂_firstOccurrences {ν γ : Type} [DecidableEq γ] {R : ν → γ → Prop}
    {f : ν → Formula} {g : γ → Formula} (hR : ∀ n c, R n c → f n = g c)
    (hg : Function.Injective g) {seen ns : List ν} {cs ds : List γ}
    (hseen : List.Forall₂ R seen cs) (hns : List.Forall₂ R ns ds) :
    List.Forall₂ R (firstOccurrences f seen ns) (appendNew cs ds) := by
  induction hns generalizing seen cs with
  | nil => exact hseen
  | @cons n d ns ds hn _ ih =>
    have hany : seen.any (f · = f n) = true ↔ d ∈ cs := by
      clear ih
      induction hseen with
      | nil => simp
      | @cons m c seen cs hm _ ih =>
        rw [List.any_cons, Bool.or_eq_true, ih, decide_eq_true_iff, hR m c hm, hR n d hn, hg.eq_iff,
          List.mem_cons, eq_comm]
    rw [firstOccurrences, appendNew]
    by_cases hmem : d ∈ cs
    · rw [if_pos (hany.mpr hmem), if_pos hmem]
      exact ih hseen
    · rw [if_neg (mt hany.mp hmem), if_neg hmem]
      exact ih (List.rel_append hseen (.cons hn .nil))

/-- The first occurrences among nodes are nodes of the first occurrences among their formulas. -/
theorem representAll_firstOccurrences {seen ns : List Node} {φs ψs : List Formula}
    (hseen : Node.RepresentAll σ seen φs) (hns : Node.RepresentAll σ ns ψs) :
    Node.RepresentAll σ (firstOccurrences Node.formula seen ns) (appendNew φs ψs) :=
  forall₂_firstOccurrences (fun _ _ hn => hn.formula_eq) Function.injective_id hseen hns

variable {φs : List (Shared Formula)} {s : Shared Sequence} {e : Shared Enumeration}
  {m : Shared Map}

theorem sequence_sound (h : Sound σ φs) : Supply.Places σ (sequence φs) Sound :=
  place_sound (Kept.bare_places (Node.structural_places .sequence (representAll_formulas h)))

theorem copy_sound (h : Sound σ s) : Supply.Places σ s.copy Sound :=
  place_sound (Kept.bare_places (Node.structural_places .sequence h.node.terms))

theorem enumeration_sound (h : Sound σ φs) : Supply.Places σ (enumeration φs).run Sound := by
  refine follow_sound fun e he => Kept.bare_places ?_
  have helements : values φs = e.elements := (Enumeration.ofList_eq_ok.mp he).symm
  exact Node.structural_places .enumeration (helements ▸ representAll_formulas h)

theorem strip_sound (h : Sound σ φs) : Supply.Places σ (strip φs) Sound :=
  place_sound <| Kept.bare_places <| Node.structural_places .enumeration <|
    representAll_firstOccurrences .nil (representAll_formulas h)

theorem leaves_sound (h : Sound σ φ) : Supply.Places σ φ.leaves Sound := by
  refine place_sound (Kept.bare_places (Node.structural_places .enumeration ?_))
  have hatomic : Node.RepresentAll σ (φ.node.preorder.filter (·.terms.isEmpty))
      (φ.value.subformulas.filter (·.IsAtomic)) := by
    rw [Formula.subformulas_eq_preorder]
    refine List.rel_filter (fun n ψ hn => ?_) (Node.Represents.preorder _ h.node)
    simp [Formula.IsAtomic, ← hn.formula_eq]
  exact representAll_firstOccurrences .nil hatomic

theorem appendTo_sound (hs : Sound σ s) (hφ : Sound σ φ) : Supply.Places σ (s.appendTo φ) Sound :=
  place_sound <| Kept.bare_places <| Node.structural_places .sequence <|
    List.rel_append hs.node.terms (.cons hφ.node .nil)

theorem addTo_sound (he : Sound σ e) (hφ : Sound σ φ) : Supply.Places σ (e.addTo φ) Sound := by
  refine place_sound ?_
  by_cases hmem : φ.value ∈ e.value.elements
  · have hsame : e.value.withElement φ.value = e.value := by
      simp [Enumeration.withElement, appendNew, hmem]
    rw [if_pos hmem, hsame]
    exact .pure (sound_shared.mp he)
  · have helements : (e.value.withElement φ.value).elements = e.value.elements ++ [φ.value] := by
      simp [Enumeration.withElement, appendNew, hmem]
    rw [if_neg hmem]
    refine Kept.bare_places (Node.structural_places .enumeration ?_)
    rw [helements]
    exact List.rel_append he.node.terms (.cons hφ.node .nil)

theorem toSequence_sound (he : Sound σ e) : Supply.Places σ e.toSequence Sound :=
  place_sound (Kept.bare_places (Node.structural_places .sequence he.node.terms))

theorem union_sound {e' : Shared Enumeration} (he : Sound σ e) (he' : Sound σ e') :
    Supply.Places σ (e.union e') Sound :=
  place_sound <| Kept.bare_places <| Node.structural_places .enumeration <|
    representAll_firstOccurrences he.node.terms he'.node.terms

/-! ### Maps -/

theorem representPairs_of_sound {pairs : List (Shared Formula × Shared Formula)}
    (h : Sound σ pairs) : Node.RepresentPairs σ (pairNodes pairs) (pairValues pairs) := by
  induction pairs with
  | nil => exact .nil
  | cons p pairs ih =>
    obtain ⟨⟨hkey, himage⟩, hpairs⟩ : (Sound σ p.1 ∧ Sound σ p.2) ∧ Sound σ pairs := by
      simpa using h
    exact .cons ⟨hkey.node, himage.node⟩ (ih hpairs)

theorem mapOfParts_sound (he : Sound σ e) (hs : Sound σ s) :
    Supply.Places σ (mapOfParts e s).run Sound := by
  refine follow_sound fun m hm => ?_
  obtain ⟨hdomain, hcodomain⟩ := Map.ofParts_eq_ok.mp hm
  rw [m.outline_eq, hdomain, hcodomain]
  exact Kept.structural_places .map (.cons (sound_shared.mp he) (.cons (sound_shared.mp hs) .nil))

theorem mapOfPairs_sound {pairs : List (Shared Formula × Shared Formula)} (h : Sound σ pairs) :
    Supply.Places σ (mapOfPairs pairs).run Sound := by
  refine follow_sound fun m hm => ?_
  have hpairs : pairValues pairs = m.pairs := (Map.ofPairs_eq_ok.mp hm).symm
  exact Node.ofPairs_places (hpairs ▸ representPairs_of_sound h)

theorem image_sound (h : Sound σ m) (key : Shared Formula) :
    Supply.Places σ (m.image key).run Sound := by
  refine follow_sound fun ψ hψ => ?_
  have himage := h.image? key.value
  rw [Map.image_eq_ok.mp hψ] at himage
  obtain ⟨n, hn, hψ⟩ := exists_of_rel_some himage
  rw [hn]
  exact .pure (.bare hψ)

variable {key image : Shared Formula}

theorem withPair_sound (hm : Sound σ m) (hkey : Sound σ key) (himage : Sound σ image) :
    Supply.Places σ (m.withPair key image) Sound := by
  refine place_sound (Node.ofPairs_places ?_)
  rw [Map.pairs_withPair]
  exact List.rel_append (hm.pairs.filter (· ≠ key.value)) (.cons ⟨hkey.node, himage.node⟩ .nil)

theorem filter_places (hm : Sound σ m) (keep : Formula → Bool) :
    Supply.Places σ (Kept.ofPairs (m.kept.pairs.filter (keep ·.1.formula))) fun σ' k =>
      k.Represents σ' (outline (m.value.filter keep)) :=
  Node.ofPairs_places (m.value.pairs_filter keep ▸ hm.pairs.filter keep)

theorem without_sound (hm : Sound σ m) (key : Shared Formula) :
    Supply.Places σ (m.without key) Sound :=
  place_sound (filter_places hm (· ≠ key.value))

theorem restrict_sound (hm : Sound σ m) (keys : List (Shared Formula)) :
    Supply.Places σ (m.restrict keys) Sound :=
  place_sound (filter_places hm (· ∈ values keys))

theorem inverse_sound (hm : Sound σ m) : Supply.Places σ m.inverse.run Sound := by
  refine follow_sound fun n hn => ?_
  have hpairs : n.pairs = m.value.pairs.map Prod.swap := Map.inverse_eq_ok.mp hn
  exact Node.ofPairs_places (hpairs ▸ hm.pairs.swap)

/-! ## Matching and substitution -/

theorem matchPattern_sound {pattern : Shared Formula} (vars : List (Shared Formula))
    (hφ : Sound σ φ) (hpattern : Sound σ pattern) (hm : Sound σ m) :
    Supply.Places σ (φ.matchPattern pattern vars m).run Sound := by
  refine followSome_sound fun n hn => ?_
  obtain ⟨-, -, hunify⟩ := Formula.matchPattern_eq_ok.mp hn
  exact Node.ofPairs_places <|
    Node.bind_represents (values vars) _ hpattern.node hφ.node hm.pairs hunify

theorem replace_sound {image : Formula → Option (Shared Formula)} (hφ : Sound σ φ)
    (himage : ∀ χ ∈ φ.value.preorder, Sound σ (image χ)) :
    Supply.Places σ (φ.replace image) Sound := by
  refine place_sound (Kept.bare_places (Node.substitute_places _ hφ.node fun χ hχ => ?_))
  have hχ := himage χ hχ
  cases hx : image χ with
  | none => exact .none
  | some x =>
    rw [hx, sound_some] at hχ
    exact .some hχ.node

theorem substitute_sound (hφ : Sound σ φ) (hm : Sound σ m) :
    Supply.Places σ (φ.substitute m) Sound :=
  place_sound <| Kept.bare_places <| Node.substitute_places _ hφ.node fun χ _ => hm.image? χ

variable {pairs : List (Shared Formula × Shared Formula)}

theorem replaceByFirst_sound (hφ : Sound σ φ) (hpairs : Sound σ pairs) :
    Supply.Places σ (φ.replaceByFirst pairs) Sound :=
  place_sound <| Kept.bare_places <| Node.substitute_places _ hφ.node fun χ _ =>
    (representPairs_of_sound hpairs).image? χ

theorem replaceByLast_sound (hφ : Sound σ φ) (hpairs : Sound σ pairs) :
    Supply.Places σ (φ.replaceByLast pairs) Sound := by
  have hreverse : Node.RepresentPairs σ (pairNodes pairs).reverse (pairValues pairs).reverse :=
    List.rel_reverse (representPairs_of_sound hpairs)
  exact place_sound <| Kept.bare_places <| Node.substitute_places _ hφ.node fun χ _ =>
    hreverse.image? χ

/-! ## Transformations and derivations -/

variable {t : Shared Transformation} {r : Shared InferenceRule} {i : Shared Inference}

theorem transformation_sound (hs : Sound σ s) (hφ : Sound σ φ) (he : Sound σ e) :
    Supply.Places σ (transformation s φ e).run Sound := by
  refine follow_sound fun t ht => ?_
  obtain ⟨hpremises, hconclusion, hvars⟩ := Transformation.ofParts_eq_ok.mp ht
  have hparts : List.Forall₂ (Kept.Represents σ) [φ.kept, e.kept, s.kept]
      [outline t.conclusion, outline t.vars, outline t.premises] := by
    rw [hpremises, hconclusion, hvars]
    exact .cons (sound_shared.mp hφ) <| .cons (sound_shared.mp he) <|
      .cons (sound_shared.mp hs) .nil
  exact Kept.structural_places .transformation hparts

theorem conclude_sound (ht : Sound σ t) (hφs : Sound σ φs) :
    Supply.Places σ (t.conclude φs).run Sound :=
  follow_sound fun _ hψ => Kept.bare_places <|
    Node.apply_places (sound_shared.mp ht) (representAll_formulas hφs) hψ

theorem matchConclusion_sound (ht : Sound σ t) (hφ : Sound σ φ) :
    Supply.Places σ (t.matchConclusion φ).run Sound := by
  refine followSome_sound fun n hn => ?_
  obtain ⟨hconclusion, hvars, -⟩ := Node.represents_transformation (sound_shared.mp ht)
  obtain ⟨-, -, hunify⟩ := Formula.matchPattern_eq_ok.mp hn
  rw [hvars]
  exact Node.ofPairs_places (Node.bind_represents _ _ hconclusion hφ.node .nil hunify)

theorem freeVariables_sound (ht : Sound σ t) (m : Shared Map) : Sound σ (t.freeVariables m) := by
  have hvars : Sound σ t.transformationVars := part_sound ht rfl
  exact sound_list.mpr fun x hx =>
    sound_list.mp (together_sound hvars.node.terms) x (List.mem_filter.mp hx).1

theorem premisesUnder_sound (ht : Sound σ t) (hm : Sound σ m) :
    Supply.Places σ (t.premisesUnder m) Sound := by
  obtain ⟨-, -, hpremises⟩ := Node.represents_transformation (sound_shared.mp ht)
  refine place_sound ((Node.substituteList_places _ hpremises fun χ _ =>
    hm.image? χ).bind fun σ₁ ns _ hns => ?_)
  exact Kept.bare_places (Node.structural_places .sequence hns)

theorem stated_sound (hφ : Sound σ φ) : Supply.Places σ (stated φ) Sound :=
  place_sound (Kept.bare_places (Node.structural_places .statedAxiom (.cons hφ.node .nil)))

theorem rule_sound (ht : Sound σ t) : Supply.Places σ (rule t) Sound :=
  place_sound (Kept.structural_places .inferenceRule (.cons (sound_shared.mp ht) .nil))

theorem inference_places (hr : Sound σ r) (hs : Sound σ s) :
    Supply.Places σ (inference r s) fun σ' i => i.value = ⟨r.value, s.value⟩ ∧ Sound σ' i :=
  place_places <| Kept.structural_places .inference <|
    .cons (sound_shared.mp hr) (.cons (sound_shared.mp hs) .nil)

theorem infer_sound (hi : Sound σ i) : Supply.Places σ i.infer.run Sound := by
  have hrule : Sound σ i.inferenceRule := part_sound hi rfl
  have htransformation : Sound σ i.inferenceRule.ruleTransformation := part_sound hrule rfl
  have hpremises : Sound σ i.inferencePremises := part_sound hi rfl
  exact follow_sound fun _ hψ => Kept.bare_places <|
    Node.apply_places (sound_shared.mp htransformation) hpremises.node.terms hψ

theorem proved_sound (hφ : Sound σ φ) (hi : Sound σ i) :
    Supply.Places σ (proved φ i).run Sound := by
  refine follow_sound fun t ht => ?_
  obtain ⟨hstatement, hinference⟩ := Theorem.ofInference_eq_ok.mp ht
  have hkept : outline t = .mk (.structural .provedTheorem [φ.value, i.value.formula])
      [outline i.value] := by
    rw [← hstatement, ← hinference]
    rfl
  rw [hkept]
  exact Kept.provedTheorem_places hφ.node (sound_shared.mp hi)

theorem axiomStatement_sound {a : Shared Axiom} (ha : Sound σ a) : Sound σ a.axiomStatement :=
  sound_bare (ha.node.term rfl)

theorem theoremStatement_sound {t : Shared Theorem} (ht : Sound σ t) :
    Sound σ t.theoremStatement :=
  sound_bare (ht.node.term rfl)

/-- What is read from a formula keeps the nodes that reading makes of the formula's. -/
theorem read_sound [Object α] {kind : Structure} {ofFormula : Formula → Except ε α}
    (hread : ∀ n φ a, Node.Represents σ n φ → ofFormula φ = .ok a →
      Supply.Places σ (n.read kind) fun σ' k => k.Represents σ' (outline a))
    (hφ : Sound σ φ) : Supply.Places σ (φ.read kind ofFormula).run Sound :=
  follow_sound fun a ha => hread _ _ a hφ.node ha

theorem readDerivation_sound (hφ : Sound σ φ) : Supply.Places σ φ.readDerivation.run Sound :=
  follow_sound fun _ hd => Node.toDerivation_places hφ.node hd

/-! ## Theories -/

variable {T : Shared Theory} {ds : List (Shared Derivation)} {A : Shared Axiomatization}

/-- An object of derivations is made on what they keep. -/
theorem structural_derivations_places (kind : Structure) {ks : List (Kept Node)}
    {es : List Derivation} (h : List.Forall₂ (Kept.Represents σ) ks (es.map outline)) :
    Supply.Places σ (Kept.structural kind ks) fun σ' k =>
      k.Represents σ' (.mk (.structural kind (es.map (·.formula))) (es.map outline)) :=
  Derivation.map_root_outline es ▸ Kept.structural_places kind h

theorem theory_sound (h : Sound σ ds) : Supply.Places σ (theory ds).run Sound := by
  refine follow_sound fun T hT => ?_
  have hds : values ds = T.derivations := (Theory.ofList_eq_ok.mp hT).symm
  exact structural_derivations_places .theory (hds ▸ represents_of_sound h)

theorem readTheory_sound (hφ : Sound σ φ) :
    Supply.Places σ (read .theory Theory.ofFormula φ).run Sound := by
  refine read_sound (fun n ψ T hn hT => ?_) hφ
  unfold Theory.ofFormula at hT
  split at hT
  next ts =>
    obtain ⟨ds, hds, hT⟩ := except_bind_eq_ok.mp hT
    obtain rfl : T.derivations = ds := Theory.ofList_eq_ok.mp hT
    exact Node.toDerivations_places .theory hn hds
  next => simp at hT

theorem derivations_sound (h : Sound σ T) : Sound σ T.derivations := by
  have hparts : List.Forall₂ (Kept.Represents σ) T.kept.parts (T.value.derivations.map outline) :=
    (sound_shared.mp h).parts
  rw [derivations]
  generalize T.value.derivations = es at hparts ⊢
  generalize T.kept.parts = ks at hparts ⊢
  induction es generalizing ks with
  | nil => simp
  | cons e es ih =>
    obtain _ | ⟨hk, hks⟩ := hparts
    exact sound_list.mpr (List.forall_mem_cons.mpr
      ⟨sound_shared.mpr hk, sound_list.mp (ih _ hks)⟩)

/-- Derivations that are not yet there keep nodes of what is appended. -/
theorem withNew_represents {es : List Derivation} {ks : List (Kept Node)}
    (hks : List.Forall₂ (Kept.Represents σ) ks (es.map outline)) (h : Sound σ ds) :
    List.Forall₂ (Kept.Represents σ) (withNew ks ds) ((appendNew es (values ds)).map outline) := by
  have hinjective : Function.Injective Derivation.formula := fun _ _ => Derivation.formula_inj.mp
  have hformula (k : Kept Node) (d : Derivation) (hk : k.Represents σ (outline d)) :
      k.root.formula = d.formula := hk.node.formula_eq.trans (Object.formula_derivation d)
  rw [List.forall₂_map_right_iff] at hks ⊢
  exact forall₂_firstOccurrences hformula hinjective hks
    (List.forall₂_map_right_iff.mp (represents_of_sound h))

theorem extensionOf_sound {T' : Theory} (hT : Sound σ T) (h : Sound σ ds)
    (hT' : T.value.extend (values ds) = .ok T') :
    Supply.Places σ (T.extensionOf ds T') Sound := by
  have hds : appendNew T.value.derivations (values ds) = T'.derivations :=
    (Theory.extend_eq_ok.mp hT').symm
  exact place_sound <| structural_derivations_places .theory <|
    hds ▸ withNew_represents (sound_shared.mp hT).parts h

theorem extend_sound {placed : Supply (Shared Theory)} (hT : Sound σ T) (h : Sound σ ds)
    (hplaced : (T.extend ds).result = .ok placed) : Supply.Places σ placed Sound := by
  obtain ⟨T', hT', hplaced⟩ := Run.bind_eq_ok.mp hplaced
  obtain rfl := Except.ok.inj hplaced
  exact extensionOf_sound hT h hT'

/-- Deriving by hand appends a theorem that is made of what it is derived from. -/
theorem derive_sound {th : Theorem} {placed : Supply (Shared Theory)} (hT : Sound σ T)
    (hφ : Sound σ φ) (hs : Sound σ s) (hr : Sound σ r)
    (h : (T.derive φ s r).result = .ok (th, placed)) : Supply.Places σ placed Sound := by
  rw [derive, Run.result_bind] at h
  obtain ⟨⟨T', th⟩, hderive, h⟩ := except_bind_eq_ok.mp h
  obtain ⟨rfl, rfl⟩ := Prod.mk.inj (Except.ok.inj h)
  obtain ⟨-, hstatement, hinference, hT'⟩ := Theory.derive_eq_ok.mp hderive
  refine (inference_places hr hs).bind fun σ₁ i hσ₁ hi => ?_
  obtain ⟨hi, hsound⟩ := hi
  have hkept : outline th = .mk (.structural .provedTheorem [φ.value, i.value.formula])
      [outline i.value] := by
    rw [← hstatement, hi, ← hinference]
    rfl
  refine (Kept.provedTheorem_places (hφ.node.mono hσ₁) (sound_shared.mp hsound)).bind
    fun σ₂ k hσ₂ hk => ?_
  refine extensionOf_sound ((hT.mono hσ₁).mono hσ₂) ?_ (Theory.extend_eq_ok.mpr hT')
  exact sound_list.mpr (List.forall_mem_singleton.mpr (sound_shared.mpr (hkept ▸ hk)))

theorem axiomatizationOn_sound {A : Axiomatization} {ks : List (Kept Node)}
    (h : List.Forall₂ (Kept.Represents σ) ks (A.derivations.map outline)) :
    Supply.Places σ (axiomatizationOn (.ok A) ks).run Sound := by
  have hrun : (axiomatizationOn (.ok A) ks).run = (do
      let x ← place A (Kept.structural .axiomatization ks)
      let T ← place x.value.theory (Kept.structural .theory ks)
      return .ok (x, T)) := rfl
  rw [hrun]
  refine (place_places (structural_derivations_places .axiomatization h)).bind
    fun σ₁ x hσ₁ hx => ?_
  obtain ⟨rfl, hx⟩ := hx
  have hks := Kept.forall₂_mono h hσ₁
  refine (place_sound (structural_derivations_places .theory hks)).bind fun σ₂ T hσ₂ hT => ?_
  exact .pure (sound_ok.mpr (sound_prod.mpr ⟨hx.mono hσ₂, hT⟩))

theorem axiomatization_sound (h : Sound σ ds) : Supply.Places σ (axiomatization ds).run Sound := by
  rw [axiomatization]
  cases hA : Axiomatization.ofList (values ds) with
  | error e => exact .pure sound_error
  | ok A =>
    have hds : values ds = A.derivations := (Axiomatization.ofList_eq_ok.mp hA).symm
    exact axiomatizationOn_sound (hds ▸ represents_of_sound h)

theorem extendAxioms_sound (hA : Sound σ A) (h : Sound σ ds) :
    Supply.Places σ (A.extendAxioms ds).run Sound := by
  rw [extendAxioms]
  cases hB : A.value.extend (values ds) with
  | error e => exact .pure sound_error
  | ok B =>
    have hds : appendNew A.value.derivations (values ds) = B.derivations :=
      (Axiomatization.ofList_eq_ok.mp hB).symm
    exact axiomatizationOn_sound (hds ▸ withNew_represents (sound_shared.mp hA).parts h)

theorem readAxiomatization_sound (hφ : Sound σ φ) :
    Supply.Places σ φ.readAxiomatization.run Sound := by
  rw [readAxiomatization]
  cases hA : Axiomatization.ofFormula φ.value with
  | error e => exact .pure sound_error
  | ok A =>
    have hds : Derivation.ofFormulas φ.value.terms = .ok A.derivations := by
      unfold Axiomatization.ofFormula at hA
      split at hA
      next ts hts =>
        obtain ⟨ds, hds, hA⟩ := except_bind_eq_ok.mp hA
        rw [hts, Axiomatization.ofList_eq_ok.mp hA]
        exact hds
      next => simp at hA
    change Supply.Places σ (φ.node.toDerivations .theory >>= fun k =>
      (axiomatizationOn (.ok A) k.parts).run) Sound
    refine (Node.toDerivations_places .theory hφ.node hds).bind fun σ₁ k _ hk => ?_
    exact axiomatizationOn_sound hk.parts

end Shared

end Deduction
