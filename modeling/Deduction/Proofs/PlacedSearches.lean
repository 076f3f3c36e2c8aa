import Deduction.Proofs.PlacedValues
import Deduction.Proofs.SearchGrowth

/-!
# Nodes of what searches append

The nodes of the theorems that a search appends are not made while the search goes on but
afterwards, from the theorems alone.  `Kept.ofTargets` goes through the list of theorems and finds
in it, target by target, the part that the search for the target has appended.  That this reading is
the right one is what `Search.Grows` says about the list, and the proof is by induction on it.

The premises of a theorem are made from the premises of its rule, and a variable that matching the
target leaves free is looked up among the valid statements.  The search had assigned different
positions of these to the free variables (`pairs_of_mem_assignments`), so there are enough of them
for every variable to get a node of its own (`Node.assign_represents`).
-/

namespace Deduction

open Object (outline)

/-! ## What is assigned to free variables -/

section Assigned

/-- Looking up the keys of pairs finds the pairs. -/
theorem filterMap_of_mem_zip {vs φs : List Formula} {f : Lookup} (hlength : φs.length = vs.length)
    (hf : ∀ pair ∈ vs.zip φs, f pair.1 = some pair.2) :
    vs.filterMap f = φs ∧ vs.filterMap (fun v => (f v).map (Prod.mk v)) = vs.zip φs := by
  induction vs generalizing φs with
  | nil =>
    obtain rfl : φs = [] := List.length_eq_zero_iff.mp hlength
    simp
  | cons v vs ih =>
    obtain ⟨φ, φs, rfl⟩ : ∃ φ φs', φs = φ :: φs' := List.exists_cons_of_length_eq_add_one hlength
    have hv : f v = some φ := hf (v, φ) (by simp)
    have hrest := ih (by simpa using hlength) fun pair hpair => hf pair (by simp [hpair])
    simp [hv, hrest]

namespace Transformation

variable {t : Transformation} {target : Formula} {pool arguments : List Formula} {b m s : Map}

/-- The variables left free are those that matching the premises binds. -/
theorem freeVariables_eq_filter (hlength : arguments.length = t.premises.elements.length)
    (hs : solve t.vars.elements t.premises.elements arguments .empty = .ok (some s)) (b : Map) :
    t.freeVariables b = (t.vars.elements.filter (· ∉ b.keys)).filter (· ∈ s.keys) := by
  rw [freeVariables, List.filter_filter]
  refine List.filter_congr fun v hv => ?_
  have hoccurs : decide (v ∈ s.keys) = t.premises.elements.any (·.contains v) := by
    rw [Bool.eq_iff_iff, decide_eq_true_iff, mem_keys_solve hlength hs]
    simp [freeVariables, Map.containsKey, hv]
  rw [hoccurs, Bool.and_comm, Map.containsKey, decide_not]

/-- Matching the premises that are needed under bindings gives some of the bindings back. -/
theorem solve_necessaryPremises_subset (hm : m.keys ⊆ t.vars.elements)
    (hs : solve t.vars.elements t.premises.elements (t.necessaryPremises m).elements .empty =
      .ok (some s)) : s.pairs ⊆ m.pairs := by
  have hlength : (t.necessaryPremises m).elements.length = t.premises.elements.length := by
    simp [necessaryPremises]
  rw [← solve_take_length hlength] at hs
  refine solve_least hs ⟨hm, ?_⟩
  rw [hlength, List.take_length, ← hlength, List.take_length, necessaryPremises]

/-- The bindings under which premises are needed can be read off from the premises: the variables
that the match leaves free are bound, in their order, to what matching the premises binds them
to. -/
theorem pairs_of_solve (hmatch : t.matchConclusion target = .ok (some b))
    (hm : m ∈ assignments (t.freeVariables b) pool b)
    (hs : solve t.vars.elements t.premises.elements (t.necessaryPremises m).elements .empty =
      .ok (some s)) :
    ((t.vars.elements.filter (· ∉ b.keys)).filterMap s.get?).Subperm pool ∧
      m.pairs = b.pairs ++ (t.vars.elements.filter (· ∉ b.keys)).filterMap fun v =>
        (s.get? v).map (Prod.mk v) := by
  have hfree := freeVariables_eq_filter (by simp [necessaryPremises]) hs b
  have hsub := solve_necessaryPremises_subset (Completes.keys_subset ⟨b, hmatch, hm⟩) hs
  have hnodup : (t.freeVariables b).Nodup := t.vars.nodup.filter _
  obtain ⟨φs, hφs, hsubperm, hpairs⟩ := pairs_of_mem_assignments hnodup
    (fun v hv => (mem_freeVariables.mp hv).2.1) hm
  have hfound : ∀ pair ∈ (t.freeVariables b).zip φs, s.get? pair.1 = some pair.2 := by
    intro pair hpair
    have hkey : pair.1 ∈ s.keys := by
      have hvar := (List.of_mem_zip hpair).1
      rw [hfree, List.mem_filter] at hvar
      simpa using hvar.2
    obtain ⟨image, himage⟩ := Option.isSome_iff_exists.mp (Map.get?_isSome.mpr hkey)
    have hbound : m.get? pair.1 = some pair.2 := Map.get?_eq_some.mpr (by simp [hpairs, hpair])
    rw [himage, ← Map.get?_mono hsub himage, hbound]
  -- A variable that is not bound by the premises adds nothing.
  have hskip {γ : Type} (f : Formula → Option γ) (hf : ∀ v, v ∉ s.keys → f v = none) :
      (t.vars.elements.filter (· ∉ b.keys)).filterMap f = (t.freeVariables b).filterMap f := by
    rw [hfree]
    refine Eq.symm ((List.filterMap_filter ..).trans (List.filterMap_congr fun v _ => ?_))
    by_cases hv : v ∈ s.keys <;> simp [hv, hf]
  obtain ⟨himages, hadded⟩ := filterMap_of_mem_zip hφs hfound
  rw [hskip _ fun v hv => Map.get?_eq_none.mpr hv,
    hskip _ fun v hv => by rw [Map.get?_eq_none.mpr hv]; rfl, himages, hadded]
  exact ⟨hsubperm, hpairs⟩

end Transformation

end Assigned

/-! ## The nodes of one theorem -/

namespace Node

variable {σ : Store}

theorem Represents.statement? {n : Node} {d : Derivation} (h : n.Represents σ d.formula) :
    RepresentsSome σ n.statement? d.statement? := by
  obtain ⟨a, c, ts⟩ := n
  have hconnective : c = d.formula.connective := h.connective
  cases d with
  | stated a =>
    have hterms : RepresentAll σ ts [a.statement] := h.terms
    obtain _ | ⟨hstatement, _ | _⟩ := hterms
    obtain rfl : c = .structural .statedAxiom := hconnective
    exact .some hstatement
  | rule r =>
    obtain rfl : c = .structural .inferenceRule := hconnective
    exact .none
  | proved t =>
    have hterms : RepresentAll σ ts [t.statement, t.inference.formula] := h.terms
    obtain _ | ⟨hstatement, _ | ⟨_, _ | _⟩⟩ := hterms
    obtain rfl : c = .structural .provedTheorem := hconnective
    exact .some hstatement

variable {T : Theory} {ns : List Node}

/-- The statements of the nodes of a theory's derivations are nodes of its valid statements. -/
theorem representAll_validStatements (h : RepresentAll σ ns (T.derivations.map (·.formula))) :
    RepresentAll σ (ns.filterMap statement?) T.validStatements :=
  List.rel_filterMap (fun _ _ hn => hn.statement?) (List.forall₂_map_right_iff.mp h)

theorem any_statement?_iff (h : RepresentAll σ ns (T.derivations.map (·.formula)))
    (φ : Formula) : (ns.any fun d => (d.statement?.map formula) = some φ) = true ↔ T.IsValid φ := by
  rw [Theory.IsValid, ← (representAll_iff.mp (representAll_validStatements h)).2,
    List.map_filterMap, List.mem_filterMap]
  simp only [List.any_eq_true, decide_eq_true_eq]

/-- The first node that looks like a formula of the list is one of it, and what is left without it
are nodes of what is left of the list. -/
theorem RepresentAll.erase {φs : List Formula} (h : RepresentAll σ ns φs) {φ : Formula}
    (hφ : φ ∈ φs) : ∃ n, ns.find? (·.formula = φ) = some n ∧ n.Represents σ φ ∧
      RepresentAll σ (ns.eraseP (·.formula = φ)) (φs.erase φ) := by
  induction h with
  | nil => simp at hφ
  | @cons n ψ ns φs hn hns ih =>
    by_cases heq : ψ = φ
    · subst heq
      refine ⟨n, by simp [hn.formula_eq], hn, ?_⟩
      simpa [hn.formula_eq] using hns
    · have hmem : φ ∈ φs := by simpa [Ne.symm heq] using hφ
      obtain ⟨m, hm, hrepresents, hrest⟩ := ih hmem
      refine ⟨m, by simpa [hn.formula_eq, heq] using hm, hrepresents, ?_⟩
      rw [List.eraseP_cons_of_neg (by simpa [hn.formula_eq] using heq),
        List.erase_cons_tail (by simpa using heq)]
      exact .cons hn hrest

/-- The variables without an image are the same for the nodes and for the map. -/
theorem RepresentPairs.filter_isNone {pairs : List (Node × Node)} {b : Map}
    (h : RepresentPairs σ pairs b.pairs) (vars : List Formula) :
    vars.filter (fun v => (Node.image? pairs v).isNone) = vars.filter (· ∉ b.keys) := by
  refine List.filter_congr fun v _ => ?_
  have himage : RepresentsSome σ (Node.image? pairs v) (b.get? v) :=
    Lookup.firstOf_map b ▸ h.image? v
  rw [Bool.eq_iff_iff, decide_eq_true_iff, ← Map.get?_eq_none]
  generalize Node.image? pairs v = image? at himage ⊢
  generalize b.get? v = bound? at himage ⊢
  cases himage <;> simp

/-- The variables are bound to nodes of the pool, if the pool has enough of them. -/
theorem assign_represents {values pairs : List (Node × Node)} {s : Map}
    {bindings : List (Formula × Formula)} {vars φs : List Formula}
    (hvalues : RepresentPairs σ values s.pairs) (hpool : RepresentAll σ ns φs)
    (hpairs : RepresentPairs σ pairs bindings) (henough : (vars.filterMap s.get?).Subperm φs) :
    RepresentPairs σ (assign values vars ns pairs)
      (bindings ++ vars.filterMap fun v => (s.get? v).map (Prod.mk v)) := by
  induction vars generalizing ns φs pairs bindings with
  | nil => simpa [assign] using hpairs
  | cons v vs ih =>
    have hfound := hvalues.find? v
    rw [assign]
    generalize values.find? (·.1.formula = v) = p? at hfound ⊢
    cases hq : s.pairs.find? (·.1 = v) with
    | none =>
      rw [hq] at hfound
      obtain _ | _ := hfound
      have hget : s.get? v = none := by simp [Map.get?_eq_find?, hq]
      rw [List.filterMap_cons_none hget] at henough
      rw [List.filterMap_cons_none (by simp [hget])]
      exact ih hpool hpairs henough
    | some q =>
      rw [hq] at hfound
      obtain @⟨⟨key, value⟩, _, hkey, hvalue⟩ := hfound
      obtain rfl : q.1 = v := by simpa using List.find?_some hq
      have hget : s.get? q.1 = some q.2 := by simp [Map.get?_eq_find?, hq]
      rw [List.filterMap_cons_some hget] at henough
      rw [List.filterMap_cons_some (by rw [hget]; rfl)]
      obtain ⟨n, hn, hrepresents, hrest⟩ := hpool.erase (henough.subset List.mem_cons_self)
      simp only [hvalue.formula_eq, hn]
      have hpairs' : RepresentPairs σ (pairs ++ [(key, n)]) (bindings ++ [q]) :=
        List.rel_append hpairs (.cons ⟨hkey, hrepresents⟩ .nil)
      have henough' := henough.erase q.2
      rw [List.erase_cons_head] at henough'
      simpa using ih hrest hpairs' henough'

end Node

namespace Kept

variable {σ : Store} {T : Theory} {ks : List (Kept Node)}

/-- What the derivations of a theory keep has nodes of their formulas. -/
theorem representAll_derivations {ds : List Derivation}
    (h : List.Forall₂ (Represents σ) ks (ds.map outline)) :
    Node.RepresentAll σ (ks.map root) (ds.map (·.formula)) :=
  Derivation.map_root_outline ds ▸ representAll_root h

/-- The premises of a theorem that a search has found. -/
theorem foundPremises_places {t : Theorem} {target : Node} {rule : Kept Node} {ns : List Node}
    (hns : Node.RepresentAll σ ns (T.derivations.map (·.formula)))
    (htarget : target.Represents σ t.statement)
    (hrule : rule.Represents σ (outline t.inference.rule))
    (hinstance : Search.Instantiates T t.statement t) :
    Supply.Places σ (foundPremises ns target rule t) fun σ' premises =>
      Node.RepresentAll σ' premises t.inference.premises.elements := by
  have htransformation := hrule.part 0 rfl
  obtain ⟨hconclusion, hvars, hpremises⟩ := Node.represents_transformation htransformation
  obtain ⟨m, ⟨b, hmatch, hm⟩, hneeded⟩ := hinstance
  obtain ⟨-, s, hs, -⟩ := Transformation.apply_eq_ok.mp t.derives
  obtain ⟨-, -, hunify⟩ := Formula.matchPattern_eq_ok.mp hmatch
  simp only [foundPremises, hvars]
  have hbound := Node.bind_represents _ _ hconclusion htarget .nil hunify
  rw [hbound.filter_isNone]
  refine (Node.ofFormulaList_places σ t.inference.premises.elements).bind
    fun σ₁ as hσ₁ hargs => ?_
  have hpremises' := Node.RepresentAll.mono hpremises hσ₁
  have hvalues := Node.bindList_represents_solve hpremises' hargs .nil hs
  rw [hneeded] at hs
  obtain ⟨henough, hpairs⟩ := Transformation.pairs_of_solve hmatch hm hs
  have hpool := Node.RepresentAll.mono (Node.representAll_validStatements hns) hσ₁
  have hbindings := Node.assign_represents hvalues hpool (hbound.mono hσ₁) henough
  rw [← hpairs] at hbindings
  rw [hneeded]
  exact Node.substituteList_places _ hpremises' fun χ _ =>
    Lookup.firstOf_map m ▸ hbindings.image? χ

/-- Of derivations, only the rule itself has its formula. -/
theorem represents_rule {ds : List Derivation} {r : InferenceRule} {rule : Kept Node}
    (hks : List.Forall₂ (Represents σ) ks (ds.map outline)) (hrule : rule ∈ ks)
    (hformula : rule.root.formula = r.formula) : rule.Represents σ (outline r) := by
  rw [List.forall₂_map_right_iff] at hks
  obtain ⟨d, -, hd⟩ : ∃ d ∈ ds, rule.Represents σ (outline d) := by
    induction hks with
    | nil => simp at hrule
    | cons hk _ ih =>
      rcases List.mem_cons.mp hrule with rfl | hrule
      · exact ⟨_, by simp, hk⟩
      · obtain ⟨d, hmem, hd⟩ := ih hrule
        exact ⟨d, by simp [hmem], hd⟩
  have hsame : d.formula = (Derivation.rule r).formula := by
    rw [← Object.formula_derivation d, Object.formula, ← hd.node.formula_eq]
    exact hformula
  rwa [Derivation.formula_inj.mp hsame] at hd

theorem ofRule_places {given? : Option (Kept Node)} {ds : List Derivation} {r : InferenceRule}
    (hgiven : ∀ k, given? = some k → k.Represents σ (outline r))
    (hks : List.Forall₂ (Represents σ) ks (ds.map outline)) :
    Supply.Places σ (ofRule given? ks r.formula) fun σ' k => k.Represents σ' (outline r) := by
  unfold ofRule
  split
  next k hk =>
    rcases Option.or_eq_some_iff.mp (by simpa using hk) with hk | ⟨-, hk⟩
    · exact .pure (hgiven k hk)
    · exact .pure (represents_rule hks (List.mem_of_find?_eq_some hk)
        (by simpa using List.find?_some hk))
  next =>
    refine (Node.ofFormula_places σ r.formula).bind fun σ' n _ hn => ?_
    exact Node.toRule_places hn (InferenceRule.ofFormula_formula r)

theorem ofTheorem_places {t : Theorem} {target : Node} {rule : Kept Node} {premises : List Node}
    (htarget : target.Represents σ t.statement)
    (hrule : rule.Represents σ (outline t.inference.rule))
    (hpremises : Node.RepresentAll σ premises t.inference.premises.elements) :
    Supply.Places σ (ofTheorem target rule premises) fun σ' k => k.Represents σ' (outline t) := by
  refine (Node.structural_places .sequence hpremises).bind fun σ₁ seq hσ₁ hseq => ?_
  have hparts : List.Forall₂ (Represents σ₁) [rule, bare seq]
      [outline t.inference.rule, outline t.inference.premises] :=
    .cons (hrule.mono hσ₁) (.cons (.bare hseq) .nil)
  refine (structural_places .inference hparts).bind fun σ₂ inference hσ₂ hinference => ?_
  exact provedTheorem_places (htarget.mono (hσ₁.trans hσ₂)) hinference

/-! ## The nodes of all theorems -/

/-- A target that is not stated yet: its theorem is the first one that states it, and what stands
before belongs to its premises. -/
theorem ofTargets_derived {rule? : Formula → Option (Kept Node)} {target : Node}
    {targets : List Node} {t : Theorem} {earlier later : List Theorem}
    (hnew : ¬ (ks.any fun d =>
      (d.root.statement?.map Node.formula) = some target.formula) = true)
    (hearlier : ∀ u ∈ earlier, u.statement ≠ target.formula) (ht : t.statement = target.formula) :
    ofTargets rule? ks (target :: targets) (earlier ++ t :: later) = do
      let φ := t.inference.rule.formula
      let rule ← ofRule (if earlier.length = 0 then rule? φ else none) ks φ
      let premises ← foundPremises (ks.map root) target rule t
      let before ← ofTargets (fun _ => none) ks premises earlier
      let found := before ++ [← ofTheorem target rule premises]
      return found ++ (← ofTargets rule? (ks ++ found) targets later) := by
  have hcount : (earlier ++ t :: later).findIdx (·.statement = target.formula) =
      earlier.length := by
    rw [List.findIdx_append, if_neg (by simpa using hearlier), List.findIdx_cons]
    simp [ht]
  rw [ofTargets, if_neg hnew]
  dsimp only
  split
  next hdrop => simp [hcount] at hdrop
  next t' later' hdrop =>
    obtain ⟨rfl, rfl⟩ : t = t' ∧ later = later' := by simpa [hcount] using hdrop
    rw [hcount, List.take_left]

theorem any_statement?_iff (h : List.Forall₂ (Represents σ) ks (T.derivations.map outline))
    (φ : Formula) :
    (ks.any fun d => (d.root.statement?.map Node.formula) = some φ) = true ↔ T.IsValid φ := by
  rw [← Node.any_statement?_iff (representAll_derivations h), List.any_map]
  rfl

/-- What the theorems keep that searches for the targets have appended. -/
theorem ofTargets_places {T' : Theory} {φs : List Formula} {ths : List Theorem}
    (h : Search.Grows T φs ths T') {rule? : Formula → Option (Kept Node)} {targets : List Node}
    (hks : List.Forall₂ (Represents σ) ks (T.derivations.map outline))
    (htargets : Node.RepresentAll σ targets φs)
    (hrule : ∀ (r : InferenceRule) k, rule? r.formula = some k → k.Represents σ (outline r)) :
    Supply.Places σ (ofTargets rule? ks targets ths) fun σ' found =>
      List.Forall₂ (Represents σ') found (ths.map outline) := by
  induction h generalizing σ ks targets rule? with
  | nil =>
    obtain _ | _ := htargets
    rw [ofTargets]
    exact .pure .nil
  | valid hvalid _ ih =>
    obtain _ | @⟨target, _, targets, _, htarget, htargets⟩ := htargets
    rw [ofTargets, if_pos ((any_statement?_iff hks _).mpr (htarget.formula_eq ▸ hvalid))]
    exact ih hks htargets hrule
  | @derived T W V T' t φs earlier later new hinstance hpremises distinct appended _ ihpremises
      ihrest =>
    obtain _ | @⟨target, _, targets, _, htarget, htargets⟩ := htargets
    have hV := Search.followedBy_derived new hpremises.followedBy distinct appended
    have hnew := (any_statement?_iff hks _).not.mpr (htarget.formula_eq.symm ▸ new)
    rw [ofTargets_derived hnew (by simpa [htarget.formula_eq] using distinct)
      htarget.formula_eq.symm]
    have hgiven : ∀ k, (if earlier.length = 0 then rule? t.inference.rule.formula else none) =
        some k → k.Represents σ (outline t.inference.rule) := fun k hk =>
      hrule _ k (Option.ite_none_right_eq_some.mp hk).2
    refine (ofRule_places hgiven hks).bind fun σ₁ rule hσ₁ hrule₁ => ?_
    have hns₁ := Node.RepresentAll.mono (representAll_derivations hks) hσ₁
    refine (foundPremises_places hns₁ (htarget.mono hσ₁) hrule₁ hinstance).bind
      fun σ₂ premises hσ₂ hpremises₂ => ?_
    have hks₂ := forall₂_mono hks (hσ₁.trans hσ₂)
    refine (ihpremises hks₂ hpremises₂ (by simp)).bind fun σ₃ before hσ₃ hbefore => ?_
    refine (ofTheorem_places (htarget.mono (hσ₁.trans (hσ₂.trans hσ₃)))
      (hrule₁.mono (hσ₂.trans hσ₃)) (hpremises₂.mono hσ₃)).bind fun σ₄ k hσ₄ hk => ?_
    -- From here on the theory is the one that the target's theorem was appended to.
    have hσ := hσ₁.trans (hσ₂.trans (hσ₃.trans hσ₄))
    have hfound : List.Forall₂ (Represents σ₄) (before ++ [k]) ((earlier ++ [t]).map outline) := by
      rw [List.map_append]
      exact List.rel_append (forall₂_mono hbefore hσ₄) (.cons hk .nil)
    have hks₄ : List.Forall₂ (Represents σ₄) (ks ++ (before ++ [k]))
        (V.derivations.map outline) := by
      rw [hV, List.map_append, List.map_map]
      exact List.rel_append (forall₂_mono hks hσ) hfound
    have hrule₄ (r : InferenceRule) (k : Kept Node) (hk : rule? r.formula = some k) :
        k.Represents σ₄ (outline r) := (hrule r k hk).mono hσ
    have htargets₄ := Node.RepresentAll.mono htargets hσ
    refine (ihrest hks₄ htargets₄ hrule₄).bind fun σ₅ rest hσ₅ hrest => ?_
    have hall := List.rel_append (forall₂_mono hfound hσ₅) hrest
    exact .pure (by simpa using hall)

/-- What the theory keeps that searches lead to. -/
theorem ofSearch_places {T' : Theory} {φs : List Formula} {k : Kept Node} {targets : List Node}
    {rule? : Formula → Option (Kept Node)} (hk : k.Represents σ (outline T))
    (htargets : Node.RepresentAll σ targets φs)
    (hrule : ∀ (r : InferenceRule) k, rule? r.formula = some k → k.Represents σ (outline r))
    (h : T' = T ∨ ∃ ths, Search.Grows T φs ths T') :
    Supply.Places σ (ofSearch k rule? targets T') fun σ' l => l.Represents σ' (outline T') := by
  have hks : List.Forall₂ (Represents σ) k.parts (T.derivations.map outline) := hk.parts
  have hlength : k.parts.length = T.derivations.length := by simpa using hks.length_eq
  rcases h with rfl | ⟨ths, hgrows⟩
  · rw [ofSearch, hlength, List.drop_length]
    exact .pure hk
  · have hT' : T'.derivations = T.derivations ++ ths.map .proved := hgrows.followedBy
    rw [ofSearch, hlength, hT', List.drop_left, List.filterMap_map]
    simp only [Function.comp_def, List.filterMap_some]
    split
    next hempty =>
      obtain rfl := List.isEmpty_iff.mp hempty
      obtain rfl : T' = T := Theory.ext (by simpa using hT')
      exact .pure hk
    next =>
      refine (ofTargets_places hgrows hks htargets hrule).bind fun σ' found hσ' hfound => ?_
      refine Shared.structural_derivations_places .theory ?_
      rw [hT', List.map_append, List.map_map]
      exact List.rel_append (forall₂_mono hks hσ') hfound

end Kept

/-! ## Searches -/

namespace Shared

variable {σ : Store} {T : Shared Theory} {plan : Plan}

/-- A rule that the plan gives keeps nodes of its own. -/
theorem Plan.rule?_represents (h : Sound σ plan) (r : InferenceRule) (k : Kept Node)
    (hk : plan.rule? r.formula = some k) : k.Represents σ (outline r) := by
  obtain ⟨x, hx, rfl⟩ := Option.map_eq_some_iff.mp hk
  have hfound := Option.join_eq_some_iff.mp hx
  have hformula : x.value.formula = r.formula := by simpa using List.find?_some hfound
  have hsame : Derivation.rule x.value = .rule r := Derivation.formula_inj.mp hformula
  have hsound : Sound σ (some x) :=
    sound_list.mp h (some x) (List.mem_of_find?_eq_some hfound)
  exact Derivation.rule.inj hsame ▸ sound_shared.mp (sound_some.mp hsound)

/-- A search leads to a theory with nodes of its own. -/
theorem search_sound {target : Shared Formula} {o : Outcome} {placed : Supply (Shared Theory)}
    (hT : Sound σ T) (hplan : Sound σ plan) (htarget : Sound σ target)
    (h : (T.search plan target).result = .ok (o, placed)) : Supply.Places σ placed Sound := by
  obtain ⟨outcome, houtcome, h⟩ := Run.bind_eq_ok.mp h
  obtain ⟨rfl, rfl⟩ := Prod.mk.inj (Except.ok.inj h)
  refine place_sound (Kept.ofSearch_places (sound_shared.mp hT) ?_
    (Plan.rule?_represents hplan) (Strategy.search_grows houtcome))
  exact .cons htarget.node .nil

/-- Searches in order lead to a theory with nodes of its own. -/
theorem searchSequence_sound {targets : List (Shared Formula)} {o : Outcome}
    {placed : Supply (Shared Theory)} (hT : Sound σ T) (hplan : Sound σ plan)
    (htargets : Sound σ targets) (h : (T.searchSequence plan targets).result = .ok (o, placed)) :
    Supply.Places σ placed Sound := by
  obtain ⟨outcome, houtcome, h⟩ := Run.bind_eq_ok.mp h
  obtain ⟨rfl, rfl⟩ := Prod.mk.inj (Except.ok.inj h)
  exact place_sound (Kept.ofSearch_places (sound_shared.mp hT) (representAll_formulas htargets)
    (Plan.rule?_represents hplan) (Search.sequence_grows houtcome))

end Shared

end Deduction
