import Mathlib.Data.List.Forall2
import Deduction.Sharing.Node

/-!
# The store of nodes

`Node.equivalent` does not look into two nodes of one address.  That is right only if whatever has
the same address is the same node, and two nodes as such need not be like that: nothing in `Node`
keeps an address from being used for two different formulas.  What excludes it is that nodes are
only made by taking the next free address from the supply, and never changed.

A `Store` is the record of what was made so far, the connective and the terms at each address.  A
node is *stored* if the store says about each of its addresses what the node says.  On stored nodes
the comparison with its shortcut decides whether the nodes look alike
(`Node.Stored.equivalent_iff`).  The store only grows, so a node that is stored stays so.

`Supply.Places` is the assertion about a computation that takes addresses: from a store whose length
is the next free address, it leads to a longer store of that kind, in which its result has a given
property.  Making a node on stored terms places a stored node (`Node.make_places`), and everything
else is put together from that.
-/

namespace Deduction

namespace Node

/-- What holds of a node whenever it holds of all its terms holds of every node. -/
@[elab_as_elim, induction_eliminator]
theorem induct {motive : Node → Prop}
    (mk : ∀ a c ts, (∀ t ∈ ts, motive t) → motive (.mk a c ts)) (n : Node) : motive n :=
  @Node.rec motive (fun ts => ∀ t ∈ ts, motive t)
    mk (by simp) (fun _ _ ht hts => by simpa using ⟨ht, hts⟩) n

@[simp] theorem formula_mk (a : Nat) (c : Connective) (ts : List Node) :
    (mk a c ts).formula = .node c (ts.map formula) := by
  rw [formula, formulaList_eq_map]

@[simp] theorem connective_formula (n : Node) : n.formula.connective = n.connective := by
  cases n; simp [connective]

@[simp] theorem terms_formula (n : Node) : n.formula.terms = n.terms.map formula := by
  cases n; simp [terms]

theorem getElem?_term {n : Node} {index : Nat} (h : index < n.terms.length) :
    n.terms[index]? = some (n.term index) := by
  rw [term, List.getD_eq_getElem?_getD, List.getElem?_eq_getElem h, Option.getD_some]

/-! ## Nodes that look alike -/

/-- The nodes agree in the connective, in the number of terms and in each term, whatever their
addresses are. -/
inductive Alike : Node → Node → Prop
  | mk {a b : Nat} {c d : Connective} {ts us : List Node} (connective : c = d)
      (arity : ts.length = us.length)
      (terms : ∀ (i : Nat) (t u : Node), ts[i]? = some t → us[i]? = some u → Alike t u) :
      Alike (.mk a c ts) (.mk b d us)

/-- Nodes look alike exactly when they are nodes of one formula. -/
theorem alike_iff {m n : Node} : m.Alike n ↔ m.formula = n.formula := by
  constructor
  · intro h
    induction h with
    | @mk a b c d ts us connective arity terms ih =>
      have hterms : ts.map formula = us.map formula := by
        refine List.ext_getElem (by simpa using arity) fun i hi hi' => ?_
        have ht : ts[i]? = some (ts.get ⟨i, by simpa using hi⟩) := List.getElem?_eq_getElem _
        have hu : us[i]? = some (us.get ⟨i, by simpa using hi'⟩) := List.getElem?_eq_getElem _
        simpa using ih i _ _ ht hu
      rw [formula_mk, formula_mk, connective, hterms]
  · intro h
    induction m generalizing n with
    | mk a c ts ih =>
      obtain ⟨b, d, us⟩ := n
      obtain ⟨hconnective, hterms⟩ : c = d ∧ ts.map formula = us.map formula := by
        simpa using h
      refine .mk hconnective (by simpa using congrArg List.length hterms) fun i t u ht hu => ?_
      have hformulas : some t.formula = some u.formula := by
        simpa [ht, hu] using congrArg (·[i]?) hterms
      exact ih t (List.mem_of_getElem? ht) (Option.some.inj hformulas)

end Node

/-! ## Stores -/

/-- What was made so far: the connective and the terms at each address. -/
abbrev Store := List (Connective × List Node)

namespace Node

variable {σ σ' : Store}

/-- The store has the node and its terms at their addresses. -/
inductive Stored (σ : Store) : Node → Prop
  | mk {a : Nat} {c : Connective} {ts : List Node} (cell : σ[a]? = some (c, ts))
      (terms : ∀ t ∈ ts, Stored σ t) : Stored σ (.mk a c ts)

theorem Stored.of_mem_terms {m n : Node} (h : n.Stored σ) (hm : m ∈ n.terms) : m.Stored σ := by
  obtain ⟨-, terms⟩ := h
  exact terms m hm

theorem Stored.mono {n : Node} (h : n.Stored σ) (hσ : σ <+: σ') : n.Stored σ' := by
  obtain ⟨rest, rfl⟩ := hσ
  induction h with
  | mk cell terms ih =>
    have hlt := (List.getElem?_eq_some_iff.mp cell).1
    exact .mk (by rw [List.getElem?_append_left hlt, cell]) ih

/-- An address stands for one node. -/
theorem Stored.eq_of_address {m n : Node} (hm : m.Stored σ) (hn : n.Stored σ)
    (h : m.address = n.address) : m = n := by
  obtain ⟨hm, -⟩ := hm
  obtain ⟨hn, -⟩ := hn
  simp only [address] at h
  subst h
  obtain ⟨rfl, rfl⟩ : _ ∧ _ := by simpa using hm.symm.trans hn
  rfl

theorem equivalentList_iff {ts us : List Node}
    (h : ∀ t ∈ ts, ∀ u ∈ us, (t.equivalent u = true ↔ t.formula = u.formula)) :
    equivalentList ts us = true ↔ ts.map formula = us.map formula := by
  induction ts generalizing us with
  | nil => cases us <;> simp [equivalentList]
  | cons t ts ih =>
    cases us with
    | nil => simp [equivalentList]
    | cons u us =>
      have hhead : t.equivalent u = true ↔ t.formula = u.formula := h t (by simp) u (by simp)
      have htail : equivalentList ts us = true ↔ ts.map formula = us.map formula :=
        ih fun t ht u hu => h t (by simp [ht]) u (by simp [hu])
      simp [equivalentList, hhead, htail]

/-- On stored nodes the comparison is right in spite of its shortcut. -/
theorem Stored.equivalent_iff {m n : Node} (hm : m.Stored σ) (hn : n.Stored σ) :
    m.equivalent n = true ↔ m.formula = n.formula := by
  induction m generalizing n with
  | mk a c ts ih =>
    obtain ⟨b, d, us⟩ := n
    have hterms : equivalentList ts us = true ↔ ts.map formula = us.map formula :=
      equivalentList_iff fun t ht u hu => ih t ht (hm.of_mem_terms ht) (hn.of_mem_terms hu)
    -- The shortcut needs equal addresses, and these are addresses of one node.
    have hshortcut : a = b → (Node.mk a c ts).formula = (Node.mk b d us).formula := fun h =>
      congrArg formula (hm.eq_of_address hn h)
    rw [equivalent, Bool.or_eq_true, Bool.and_eq_true, hterms]
    simp only [decide_eq_true_eq, formula_mk, Formula.node.injEq] at hshortcut ⊢
    exact or_iff_right_of_imp hshortcut

/-- The node is stored and is a node of the formula. -/
structure Represents (σ : Store) (n : Node) (φ : Formula) : Prop where
  stored : n.Stored σ
  formula_eq : n.formula = φ

theorem Stored.represents_formula {n : Node} (h : n.Stored σ) : n.Represents σ n.formula :=
  ⟨h, rfl⟩

theorem Represents.mono {n : Node} {φ : Formula} (h : n.Represents σ φ) (hσ : σ <+: σ') :
    n.Represents σ' φ :=
  ⟨h.stored.mono hσ, h.formula_eq⟩

theorem Represents.equivalent_iff {m n : Node} {φ ψ : Formula} (hm : m.Represents σ φ)
    (hn : n.Represents σ ψ) : m.equivalent n = true ↔ φ = ψ := by
  rw [hm.stored.equivalent_iff hn.stored, hm.formula_eq, hn.formula_eq]

/-- The nodes are stored and are nodes of the formulas, one by one. -/
abbrev RepresentAll (σ : Store) : List Node → List Formula → Prop := List.Forall₂ (Represents σ)

theorem RepresentAll.mono {ns : List Node} {φs : List Formula} (h : RepresentAll σ ns φs)
    (hσ : σ <+: σ') : RepresentAll σ' ns φs :=
  h.imp fun _ _ hn => hn.mono hσ

theorem representAll_iff {ns : List Node} {φs : List Formula} :
    RepresentAll σ ns φs ↔ (∀ n ∈ ns, n.Stored σ) ∧ ns.map formula = φs := by
  constructor
  · intro h
    induction h with
    | nil => simp
    | cons hn _ ih => simp [hn.stored, hn.formula_eq, ih.2]; exact ih.1
  · rintro ⟨hstored, rfl⟩
    rw [RepresentAll, List.forall₂_map_right_iff, List.forall₂_same]
    exact fun n hn => (hstored n hn).represents_formula

/-- The terms of a node of a formula are nodes of its terms. -/
theorem Represents.terms {n : Node} {φ : Formula} (h : n.Represents σ φ) :
    RepresentAll σ n.terms φ.terms := by
  refine representAll_iff.mpr ⟨fun t ht => h.stored.of_mem_terms ht, ?_⟩
  rw [← h.formula_eq, terms_formula]

theorem Represents.connective {n : Node} {φ : Formula} (h : n.Represents σ φ) :
    n.connective = φ.connective := by
  rw [← h.formula_eq, connective_formula]

end Node

/-! ## Computations that place nodes -/

namespace Supply

variable {α β : Type} {σ : Store}

/-- From the store, the computation leads to a longer store in which its result has the property.
The free addresses are those that the store does not have. -/
def Places (σ : Store) (x : Supply α) (post : Store → α → Prop) : Prop :=
  ∃ σ', σ <+: σ' ∧ (x.run σ.length).2 = σ'.length ∧ post σ' (x.run σ.length).1

theorem Places.pure {post : Store → α → Prop} {a : α} (h : post σ a) :
    Places σ (pure a) post :=
  ⟨σ, List.prefix_rfl, rfl, h⟩

/-- Computations are followed one after the other; the second one starts from the store that the
first one leads to. -/
theorem Places.bind {x : Supply α} {f : α → Supply β} {mid : Store → α → Prop}
    {post : Store → β → Prop} (hx : Places σ x mid)
    (hf : ∀ σ' a, σ <+: σ' → mid σ' a → Places σ' (f a) post) : Places σ (x >>= f) post := by
  obtain ⟨σ₁, hprefix₁, hlength₁, hmid⟩ := hx
  obtain ⟨σ₂, hprefix₂, hlength₂, hpost⟩ := hf σ₁ _ hprefix₁ hmid
  have hrun : (x >>= f).run σ.length = (f (x.run σ.length).1).run σ₁.length := by
    rw [← hlength₁]
    rfl
  exact ⟨σ₂, hprefix₁.trans hprefix₂, hrun ▸ hlength₂, hrun ▸ hpost⟩

theorem Places.imp {x : Supply α} {post post' : Store → α → Prop} (h : Places σ x post)
    (himp : ∀ σ' a, σ <+: σ' → post σ' a → post' σ' a) : Places σ x post' := by
  obtain ⟨σ', hprefix, hlength, hpost⟩ := h
  exact ⟨σ', hprefix, hlength, himp σ' _ hprefix hpost⟩

end Supply

namespace Node

variable {σ : Store}

/-- A new node takes the next address, and its terms are the given nodes. -/
theorem make_places_on (c : Connective) {ts : List Node} {φs : List Formula}
    (h : RepresentAll σ ts φs) :
    Supply.Places σ (make c ts) fun σ' n => n.Represents σ' (.node c φs) ∧ n.terms = ts := by
  obtain ⟨hstored, rfl⟩ := representAll_iff.mp h
  have hprefix : σ <+: σ ++ [(c, ts)] := List.prefix_append σ _
  have hnext : ((make c ts).run σ.length).2 = (σ ++ [(c, ts)]).length := by
    rw [List.length_append]
    rfl
  refine ⟨σ ++ [(c, ts)], hprefix, hnext, ⟨?_, formula_mk ..⟩, rfl⟩
  exact .mk (by simp) fun t ht => (hstored t ht).mono hprefix

theorem make_places (c : Connective) {ts : List Node} {φs : List Formula}
    (h : RepresentAll σ ts φs) :
    Supply.Places σ (make c ts) fun σ' n => n.Represents σ' (.node c φs) :=
  (make_places_on c h).imp fun _ _ _ hn => hn.1

theorem structural_places (kind : Structure) {ts : List Node} {φs : List Formula}
    (h : RepresentAll σ ts φs) :
    Supply.Places σ (structural kind ts) fun σ' n => n.Represents σ' (.structural kind φs) :=
  make_places _ h

mutual

theorem ofFormula_places (σ : Store) :
    (φ : Formula) → Supply.Places σ (ofFormula φ) fun σ' n => n.Represents σ' φ
  | .node c ts => by
    rw [ofFormula]
    exact (ofFormulaList_places σ ts).bind fun σ' ns _ hns => make_places c hns

theorem ofFormulaList_places (σ : Store) :
    (φs : List Formula) → Supply.Places σ (ofFormulaList φs) fun σ' ns => RepresentAll σ' ns φs
  | [] => .pure .nil
  | φ :: φs => by
    rw [ofFormulaList]
    refine (ofFormula_places σ φ).bind fun σ₁ n _ hn => ?_
    refine (ofFormulaList_places σ₁ φs).bind fun σ₂ ns hσ₂ hns => ?_
    exact .pure (.cons (hn.mono hσ₂) hns)

end

end Node

end Deduction
