import Deduction.Proofs.ObtainableValues

/-!
# Freezing builders

A builder may have several defects: nodes without a connective and nodes whose connective does not
take their number of terms.  Freezing looks for the first kind on the way down and for the second on
the way up, and reports the one that it meets first.  So neither of the two orders in which nodes
can be listed says by itself which defect is reported.

`Builder.Defect` follows the way of freezing to the place where it stops.  Seen from there, all that
lies to the left freezes and all that lies above has a connective.  That settles the place of the
defect in both orders (`Defect.preorder_eq`, `Defect.postorder_eq`), from which
`Builder.freeze_firstDefect` is read off.
-/

namespace Deduction

namespace Builder

/-- What holds of a builder whenever it holds of all its terms holds of every builder. -/
@[elab_as_elim, induction_eliminator]
theorem induct {motive : Builder → Prop}
    (node : ∀ c ts, (∀ t ∈ ts, motive t) → motive (.node c ts)) (b : Builder) : motive b :=
  @Builder.rec motive (fun ts => ∀ t ∈ ts, motive t)
    node (by simp) (fun _ _ ht hts => by simpa using ⟨ht, hts⟩) b

/-! ## Nodes in order -/

/-- A node of a builder: the path of term indices that leads to it, and what stands there. -/
structure Place where
  path : List Nat
  part : Builder

/-- The node of the term at `index`, seen from above the term. -/
def Place.under (index : Nat) (p : Place) : Place := ⟨index :: p.path, p.part⟩

mutual

/-- The nodes, each before those below it, and the terms from left to right. -/
def preorder : Builder → List Place
  | .node c ts => ⟨[], .node c ts⟩ :: preorderList 0 ts

/-- The nodes of the terms from `index` on. -/
def preorderList (index : Nat) : List Builder → List Place
  | [] => []
  | t :: ts => t.preorder.map (Place.under index) ++ preorderList (index + 1) ts

end

mutual

/-- The nodes, each after those below it, and the terms from left to right. -/
def postorder : Builder → List Place
  | .node c ts => postorderList 0 ts ++ [⟨[], .node c ts⟩]

/-- The nodes of the terms from `index` on. -/
def postorderList (index : Nat) : List Builder → List Place
  | [] => []
  | t :: ts => t.postorder.map (Place.under index) ++ postorderList (index + 1) ts

end

/-- The nodes of terms, listed term by term. -/
def termNodes (nodes : Builder → List Place) (index : Nat) (ts : List Builder) : List Place :=
  (ts.zipIdx index).flatMap fun p => (nodes p.1).map (Place.under p.2)

theorem preorderList_eq_termNodes (index : Nat) (ts : List Builder) :
    preorderList index ts = termNodes preorder index ts := by
  induction ts generalizing index with
  | nil => rfl
  | cons t ts ih => rw [preorderList, ih, termNodes, termNodes, List.zipIdx_cons, List.flatMap_cons]

theorem postorderList_eq_termNodes (index : Nat) (ts : List Builder) :
    postorderList index ts = termNodes postorder index ts := by
  induction ts generalizing index with
  | nil => rfl
  | cons t ts ih =>
    rw [postorderList, ih, termNodes, termNodes, List.zipIdx_cons, List.flatMap_cons]

theorem mem_termNodes {nodes : Builder → List Place} {ts : List Builder} {p : Place} :
    p ∈ termNodes nodes 0 ts ↔ ∃ i t, ts[i]? = some t ∧ ∃ q ∈ nodes t, q.under i = p := by
  simp only [termNodes, List.mem_flatMap, List.mem_map, Prod.exists, List.mem_zipIdx_iff_getElem?]
  exact exists_comm

/-- What is read off the parts of nodes does not depend on where their term stands. -/
theorem map_part_termNodes {β : Type} (f : Builder → β) (nodes : Builder → List Place)
    (index : Nat) (ts : List Builder) :
    (termNodes nodes index ts).map (fun q => f q.part) =
      ts.flatMap fun t => (nodes t).map fun q => f q.part := by
  induction ts generalizing index with
  | nil => rfl
  | cons t ts ih =>
    rw [List.flatMap_cons, ← ih (index + 1)]
    simp [termNodes, List.zipIdx_cons, Place.under]

/-- A node of a term comes after the nodes of the terms before and those before it in the term. -/
theorem termNodes_split {nodes : Builder → List Place} {t : Builder} {before after : List Place}
    {p : Place} (h : nodes t = before ++ p :: after) (front back : List Builder) :
    ∃ rest, termNodes nodes 0 (front ++ t :: back) =
      (termNodes nodes 0 front ++ before.map (Place.under front.length)) ++
        p.under front.length :: rest := by
  refine ⟨after.map (Place.under front.length) ++ termNodes nodes (front.length + 1) back, ?_⟩
  simp [termNodes, List.zipIdx_append, List.zipIdx_cons, h]

theorem preorder_node (c? : Option Connective) (ts : List Builder) :
    (node c? ts).preorder = ⟨[], .node c? ts⟩ :: termNodes preorder 0 ts := by
  rw [preorder, preorderList_eq_termNodes]

theorem postorder_node (c? : Option Connective) (ts : List Builder) :
    (node c? ts).postorder = termNodes postorder 0 ts ++ [⟨[], .node c? ts⟩] := by
  rw [postorder, postorderList_eq_termNodes]

theorem mem_postorder {b : Builder} : ∀ {p : Place}, p ∈ b.postorder ↔ p ∈ b.preorder := by
  induction b with
  | node c? ts ih =>
    intro p
    have hterms : p ∈ termNodes postorder 0 ts ↔ p ∈ termNodes preorder 0 ts := by
      rw [mem_termNodes, mem_termNodes]
      refine exists_congr fun i => exists_congr fun t => and_congr_right fun ht => ?_
      simp only [ih t (List.mem_of_getElem? ht)]
    rw [postorder_node, preorder_node, List.mem_append, List.mem_singleton, List.mem_cons, hterms,
      or_comm]

/-! ## Builders that freeze -/

theorem ofFormulaList_eq_map (ts : List Formula) : ofFormulaList ts = ts.map ofFormula := by
  induction ts with
  | nil => rfl
  | cons t ts ih => rw [ofFormulaList, ih, List.map_cons]

/-- Listed from above, a formula and its builder have the same connectives with the same numbers of
terms. -/
theorem map_preorder_ofFormula (φ : Formula) :
    φ.preorder.map (fun ψ => (some ψ.connective, ψ.terms.length)) =
      (ofFormula φ).preorder.map (fun q => (q.part.connective?, q.part.terms.length)) := by
  induction φ with
  | node c ts ih =>
    rw [Formula.preorder, Formula.preorderList_eq_flatMap, ofFormula, ofFormulaList_eq_map,
      preorder_node, List.map_cons, List.map_cons,
      map_part_termNodes fun b => (b.connective?, b.terms.length), List.map_flatMap,
      List.flatMap_map, List.flatMap_congr ih]
    simp [connective?, terms]

mutual

/-- What a builder freezes to has the tree of the builder. -/
theorem freezeAt_eq_ok (path : List Nat) : (b : Builder) → (φ : Formula) →
    (b.freezeAt path = .ok φ ↔ φ.WellFormed ∧ ofFormula φ = b)
  | .node none ts, .node d us => by simp [freezeAt, ofFormula]
  | .node (some c) ts, .node d us => by
    rw [freezeAt, except_bind_eq_ok, Formula.wellFormed_node, ofFormula]
    simp only [freezeList_eq_ok path 0 ts, Connective.apply_eq_ok]
    constructor
    · rintro ⟨vs, ⟨hvs, hts⟩, harity, heq⟩
      obtain ⟨rfl, rfl⟩ := Formula.node.inj heq
      exact ⟨⟨harity, hvs⟩, by rw [hts]⟩
    · rintro ⟨⟨harity, hus⟩, heq⟩
      obtain ⟨hd, hts⟩ := Builder.node.inj heq
      obtain rfl := Option.some.inj hd
      exact ⟨us, ⟨hus, hts⟩, harity, rfl⟩

theorem freezeList_eq_ok (path : List Nat) (index : Nat) :
    (ts : List Builder) → (us : List Formula) →
      (freezeList path index ts = .ok us ↔ (∀ u ∈ us, u.WellFormed) ∧ ofFormulaList us = ts)
  | [], [] => by simp [freezeList, ofFormulaList]
  | [], _ :: _ => by simp [freezeList, ofFormulaList]
  | t :: ts, [] => by simp [freezeList, ofFormulaList, except_bind_eq_ok, pure, Except.pure]
  | t :: ts, u :: us => by
    simp only [freezeList, except_bind_eq_ok, freezeAt_eq_ok (path ++ [index]) t,
      freezeList_eq_ok path (index + 1) ts, ofFormulaList, List.forall_mem_cons, List.cons.injEq]
    constructor
    · rintro ⟨v, hv, vs, hvs, heq⟩
      obtain ⟨rfl, rfl⟩ := List.cons.inj (Except.ok.inj heq)
      exact ⟨⟨hv.1, hvs.1⟩, hv.2, hvs.2⟩
    · rintro ⟨⟨hu, hus⟩, ht, hts⟩
      exact ⟨u, ⟨hu, ht⟩, us, ⟨hus, hts⟩, rfl⟩

end

/-- The builder freezes. -/
def Freezes (b : Builder) : Prop := ∃ φ, b.freeze = .ok φ

/-- The node at the root has a connective that takes its number of terms. -/
def Fits (b : Builder) : Prop := ∃ c, b.connective? = some c ∧ c.arity.Admits b.terms.length

/-- Whether a builder freezes does not depend on where it stands. -/
theorem freezes_iff {b : Builder} (path : List Nat) : b.Freezes ↔ ∃ φ, b.freezeAt path = .ok φ := by
  simp only [Freezes, freeze, freezeAt_eq_ok]

theorem exists_freezeList_iff (path : List Nat) (index : Nat) {ts : List Builder} :
    (∃ us, freezeList path index ts = .ok us) ↔ ∀ t ∈ ts, t.Freezes := by
  induction ts generalizing index with
  | nil => simp [freezeList]
  | cons t ts ih =>
    rw [List.forall_mem_cons, freezes_iff (path ++ [index]), ← ih (index + 1)]
    simp only [freezeList, except_bind_eq_ok]
    constructor
    · rintro ⟨_, φ, hφ, us, hus, -⟩
      exact ⟨⟨φ, hφ⟩, us, hus⟩
    · rintro ⟨⟨φ, hφ⟩, us, hus⟩
      exact ⟨φ :: us, φ, hφ, us, hus, rfl⟩

theorem length_of_freezeList {path : List Nat} {index : Nat} {ts : List Builder}
    {us : List Formula} (h : freezeList path index ts = .ok us) : us.length = ts.length := by
  obtain ⟨-, rfl⟩ := (freezeList_eq_ok path index ts us).mp h
  rw [ofFormulaList_eq_map, List.length_map]

/-- A builder freezes exactly when its root fits and its terms freeze. -/
theorem freezes_node {c? : Option Connective} {ts : List Builder} :
    (node c? ts).Freezes ↔ (node c? ts).Fits ∧ ∀ t ∈ ts, t.Freezes := by
  cases c? with
  | none => simp [Freezes, freeze, freezeAt, Fits, connective?]
  | some c =>
    rw [← exists_freezeList_iff [] 0]
    simp only [Freezes, freeze, freezeAt, except_bind_eq_ok, Connective.apply_eq_ok]
    constructor
    · rintro ⟨_, us, hus, harity, -⟩
      exact ⟨⟨c, rfl, length_of_freezeList hus ▸ harity⟩, us, hus⟩
    · rintro ⟨⟨d, hd, harity⟩, us, hus⟩
      obtain rfl : c = d := Option.some.inj hd
      exact ⟨_, us, hus, (length_of_freezeList hus).symm ▸ harity, rfl⟩

theorem Freezes.fits {b : Builder} (h : b.Freezes) : b.Fits := by
  cases b
  exact (freezes_node.mp h).1

/-- All parts of a builder that freezes freeze. -/
theorem Freezes.of_mem {b : Builder} (h : b.Freezes) : ∀ {p : Place}, p ∈ b.preorder →
    p.part.Freezes := by
  induction b with
  | node c? ts ih =>
    intro p hp
    rw [preorder_node, List.mem_cons, mem_termNodes] at hp
    obtain rfl | ⟨i, t, ht, q, hq, rfl⟩ := hp
    · exact h
    · have hmem : t ∈ ts := List.mem_of_getElem? ht
      show q.part.Freezes
      exact ih t hmem ((freezes_node.mp h).2 t hmem) hq

/-- A builder freezes exactly when each of its nodes fits. -/
theorem freezes_iff_fits {b : Builder} : b.Freezes ↔ ∀ p ∈ b.preorder, p.part.Fits := by
  constructor
  · intro h p hp
    exact (h.of_mem hp).fits
  · intro h
    induction b with
    | node c? ts ih =>
      rw [preorder_node, List.forall_mem_cons] at h
      refine freezes_node.mpr ⟨h.1, fun t ht => ih t ht fun q hq => ?_⟩
      obtain ⟨i, hi⟩ := List.getElem?_of_mem ht
      exact h.2 (q.under i) (mem_termNodes.mpr ⟨i, t, hi, q, hq, rfl⟩)

theorem freezes_of_mem_termNodes {nodes : Builder → List Place} {ts : List Builder} {p : Place}
    (h : ∀ t ∈ ts, ∀ q ∈ nodes t, q.part.Freezes) (hp : p ∈ termNodes nodes 0 ts) :
    p.part.Freezes := by
  obtain ⟨i, t, ht, q, hq, rfl⟩ := mem_termNodes.mp hp
  exact h t (List.mem_of_getElem? ht) q hq

theorem Fits.isSome {b : Builder} (h : b.Fits) : b.connective?.isSome := by
  obtain ⟨c, hc, -⟩ := h
  rw [hc, Option.isSome_some]

/-! ## Where freezing stops -/

/-- The place is where freezing the builder stops.  A connective is missing; or the terms freeze,
but the connective does not take that many of them; or the terms up to one freeze, and freezing that
one stops. -/
inductive Defect : Builder → Place → Prop where
  | missing (ts : List Builder) : Defect (.node none ts) ⟨[], .node none ts⟩
  | arity {c : Connective} {ts : List Builder} (terms : ∀ t ∈ ts, t.Freezes)
      (refused : ¬ c.arity.Admits ts.length) : Defect (.node (some c) ts) ⟨[], .node (some c) ts⟩
  | term {c : Connective} {front : List Builder} {t : Builder} {back : List Builder} {p : Place}
      (before : ∀ u ∈ front, u.Freezes) (stops : Defect t p) :
      Defect (.node (some c) (front ++ t :: back)) (p.under front.length)

/-- The error that a node that does not fit gives rise to, in a builder at `path`. -/
def Place.refusal (path : List Nat) : Place → SyntaxError
  | ⟨below, .node none _⟩ => .incomplete (path ++ below)
  | ⟨_, .node (some c) ts⟩ => .arityMismatch c ts.length

theorem Place.refusal_under (path : List Nat) (index : Nat) (p : Place) :
    (p.under index).refusal path = p.refusal (path ++ [index]) := by
  obtain ⟨below, ⟨_ | c, ts⟩⟩ := p
  · simp [under, refusal]
  · rfl

/-- Freezing a list stops at the first of its builders that does not freeze. -/
theorem freezeList_eq_error {path : List Nat} {index : Nat} {ts : List Builder} {e : SyntaxError}
    (h : freezeList path index ts = .error e) :
    ∃ front t back, ts = front ++ t :: back ∧ (∀ u ∈ front, u.Freezes) ∧
      t.freezeAt (path ++ [index + front.length]) = .error e := by
  induction ts generalizing index with
  | nil => simp [freezeList] at h
  | cons t ts ih =>
    rw [freezeList, except_bind_eq_error] at h
    obtain ht | ⟨φ, hφ, h⟩ := h
    · exact ⟨[], t, ts, rfl, by simp, ht⟩
    · rw [except_bind_eq_error] at h
      obtain hts | ⟨us, -, hus⟩ := h
      · obtain ⟨front, u, back, rfl, hfront, hu⟩ := ih hts
        have ht : t.Freezes := (freezes_iff (path ++ [index])).mpr ⟨φ, hφ⟩
        refine ⟨t :: front, u, back, rfl, List.forall_mem_cons.mpr ⟨ht, hfront⟩, ?_⟩
        rw [List.length_cons, Nat.add_comm front.length, ← Nat.add_assoc]
        exact hu
      · cases hus

/-- Freezing fails with the error of the place where it stops. -/
theorem exists_defect {b : Builder} : ∀ {path : List Nat} {e : SyntaxError},
    b.freezeAt path = .error e → ∃ p, Defect b p ∧ e = p.refusal path := by
  induction b with
  | node c? ts ih =>
    intro path e h
    cases c? with
    | none =>
      obtain rfl : SyntaxError.incomplete path = e := by simpa [freezeAt] using h
      exact ⟨_, .missing ts, by simp [Place.refusal]⟩
    | some c =>
      rw [freezeAt, except_bind_eq_error] at h
      obtain hts | ⟨us, hts, h⟩ := h
      · obtain ⟨front, t, back, rfl, hfront, ht⟩ := freezeList_eq_error hts
        obtain ⟨p, hp, he⟩ := ih t (by simp) ht
        rw [Nat.zero_add, ← Place.refusal_under] at he
        exact ⟨_, .term hfront hp, he⟩
      · have hterms : ∀ t ∈ ts, t.Freezes := (exists_freezeList_iff path 0).mp ⟨us, hts⟩
        obtain ⟨harity, rfl⟩ := Connective.apply_eq_error.mp h
        rw [length_of_freezeList hts] at harity ⊢
        exact ⟨_, .arity hterms harity, rfl⟩

namespace Defect

variable {b : Builder} {p : Place}

theorem not_fits (h : Defect b p) : ¬ p.part.Fits := by
  induction h with
  | missing => simp [Fits, connective?]
  | @arity c ts _ refused =>
    rintro ⟨d, hd, harity⟩
    obtain rfl : c = d := Option.some.inj hd
    exact refused harity
  | term _ _ ih => exact ih

/-- The path of the place leads to it. -/
theorem at?_eq (h : Defect b p) : b.at? p.path = some p.part := by
  induction h with
  | missing => rfl
  | arity => rfl
  | term before stops ih => simpa [Place.under, at?] using ih

/-- Before the place, in the order from above, every node has a connective, and the parts that are
done with freeze. -/
theorem preorder_eq (h : Defect b p) :
    ∃ before after, b.preorder = before ++ p :: after ∧
      ∀ q ∈ before, q.part.connective?.isSome ∧ (¬ q.path <+: p.path → q.part.Freezes) := by
  induction h with
  | missing ts => exact ⟨[], _, preorder_node none ts, by simp⟩
  | arity => exact ⟨[], _, preorder_node _ _, by simp⟩
  | @term c front t back p hfront stops ih =>
    obtain ⟨before, after, hsplit, hbefore⟩ := ih
    obtain ⟨rest, hterms⟩ := termNodes_split hsplit front back
    refine ⟨_ :: (termNodes preorder 0 front ++ before.map (Place.under front.length)), rest,
      by rw [preorder_node, hterms, List.cons_append], ?_⟩
    simp only [List.forall_mem_cons, List.forall_mem_append, List.forall_mem_map]
    refine ⟨⟨rfl, fun h => absurd List.nil_prefix h⟩, fun q hq => ?_, fun q hq => ?_⟩
    · have hq : q.part.Freezes :=
        freezes_of_mem_termNodes (fun u hu q hq => (hfront u hu).of_mem hq) hq
      exact ⟨hq.fits.isSome, fun _ => hq⟩
    · simpa [Place.under] using hbefore q hq

/-- Before a place with a connective, in the order from below, every part freezes. -/
theorem postorder_eq (h : Defect b p) (hp : p.part.connective?.isSome) :
    ∃ before after, b.postorder = before ++ p :: after ∧ ∀ q ∈ before, q.part.Freezes := by
  induction h with
  | missing => simp [connective?] at hp
  | @arity c ts hterms =>
    refine ⟨_, [], postorder_node (some c) ts, fun q hq => ?_⟩
    exact freezes_of_mem_termNodes (fun u hu q hq => (hterms u hu).of_mem (mem_postorder.mp hq)) hq
  | @term c front t back p hfront stops ih =>
    obtain ⟨before, after, hsplit, hbefore⟩ := ih hp
    obtain ⟨rest, hterms⟩ := termNodes_split hsplit front back
    refine ⟨termNodes postorder 0 front ++ before.map (Place.under front.length), rest ++ [_],
      by rw [postorder_node, hterms, List.append_assoc, List.cons_append], ?_⟩
    simp only [List.forall_mem_append, List.forall_mem_map]
    refine ⟨fun q hq => ?_, hbefore⟩
    exact freezes_of_mem_termNodes (fun u hu q hq => (hfront u hu).of_mem (mem_postorder.mp hq)) hq

end Defect

/-- A builder freezes exactly when each of its nodes has a connective that takes its number of
terms.  What it freezes to has its tree, so that the builder can be got back from it, and every
formula that can be obtained is frozen again to itself.

Where a connective is missing, the path that is reported leads to the first node without one, listed
from above, and all parts that are completed before freeze.  Where a connective does not take its
number of terms, the report is about the first such node, listed from below, and in neither order
does a node without a connective come before it. -/
theorem freeze_firstDefect [Typesetters] (b : Builder) :
    ((∃ φ, b.freeze = .ok φ) ↔
      ∀ q ∈ b.preorder, ∃ c, q.part.connective? = some c ∧
        c.arity.Admits q.part.terms.length) ∧
    (∀ φ, b.freeze = .ok φ → ofFormula φ = b ∧
      φ.subformulas.map (fun ψ => (some ψ.connective, ψ.terms.length)) =
        b.preorder.map (fun q => (q.part.connective?, q.part.terms.length))) ∧
    (∀ φ, (ofFormula φ).freeze = .ok φ ↔ Obtainable φ) ∧
    ∀ e, b.freeze = .error e →
      (e.code = "SYN-010" ∧ ∃ path part before after,
        e = .incomplete path ∧ b.at? path = some part ∧ part.connective? = none ∧
        b.preorder = before ++ ⟨path, part⟩ :: after ∧
        (∀ q ∈ before, q.part.connective?.isSome) ∧
        ∀ q ∈ before, ¬ q.path <+: path → ∃ φ, q.part.freeze = .ok φ) ∨
      (e.code = "SYN-001" ∧ ∃ c given path part,
        e = .arityMismatch c given ∧
        e.message =
          s!"connective `{c.label}` expects {c.arity.text} terms, but {given} were given" ∧
        part.connective? = some c ∧ part.terms.length = given ∧ ¬ c.arity.Admits given ∧
        (∃ before after, b.postorder = before ++ ⟨path, part⟩ :: after ∧
          ∀ q ∈ before, ∃ d, q.part.connective? = some d ∧
            d.arity.Admits q.part.terms.length) ∧
        ∃ before after, b.preorder = before ++ ⟨path, part⟩ :: after ∧
          ∀ q ∈ before, q.part.connective?.isSome) := by
  refine ⟨freezes_iff_fits, fun φ h => ?_, fun φ => ?_, fun e h => ?_⟩
  · obtain ⟨-, rfl⟩ := (freezeAt_eq_ok [] b φ).mp h
    rw [Formula.subformulas_eq_preorder]
    exact ⟨rfl, map_preorder_ofFormula φ⟩
  · rw [freeze, freezeAt_eq_ok, obtainable_iff]
    exact and_iff_left rfl
  · obtain ⟨⟨path, part⟩, hdefect, rfl⟩ := exists_defect h
    obtain ⟨before, after, hpreorder, hbefore⟩ := hdefect.preorder_eq
    obtain ⟨_ | c, ts⟩ := part
    · left
      exact ⟨rfl, path, _, before, after, rfl, hdefect.at?_eq, rfl, hpreorder,
        fun q hq => (hbefore q hq).1, fun q hq => (hbefore q hq).2⟩
    · right
      have harity : ¬ c.arity.Admits ts.length := fun h => hdefect.not_fits ⟨c, rfl, h⟩
      obtain ⟨done, rest, hpostorder, hdone⟩ := hdefect.postorder_eq rfl
      exact ⟨rfl, c, ts.length, path, .node (some c) ts, rfl, rfl, rfl, rfl, harity,
        ⟨done, rest, hpostorder, fun q hq => (hdone q hq).fits⟩,
        before, after, hpreorder, fun q hq => (hbefore q hq).1⟩

open Propositional in
/-- In the first builder a connective is missing at the second term; below that and at the root are
two wrong numbers of terms.  In the second one a wrong number of terms comes before a missing
connective. -/
theorem freeze_firstDefect_several :
    let implication := (implies p q).connective
    let first : Builder := .node (some implication)
      [ofFormula (both p q), .node none [.node (some implication) [ofFormula q]], ofFormula r]
    let second : Builder := .node (some implication)
      [ofFormula p, .node (some implication) [.node (some implication) [ofFormula q], placeholder]]
    first.freeze = .error (.incomplete [1]) ∧
    (∃ before after part, first.preorder = before ++ ⟨[1], part⟩ :: after ∧
      ∀ q ∈ before, q.part.connective?.isSome) ∧
    second.freeze = .error (.arityMismatch implication 1) ∧
    ∃ before after path part, second.postorder = before ++ ⟨path, part⟩ :: after ∧
      part.connective? = some implication ∧ part.terms.length = 1 := by
  intro implication first second
  have hfirst : first.freeze = .error (.incomplete [1]) := by decide
  have hsecond : second.freeze = .error (.arityMismatch implication 1) := by decide
  refine ⟨hfirst, ?_, hsecond, ?_⟩
  · obtain ⟨-, path, part, before, after, he, -, -, hsplit, hbefore, -⟩ | ⟨hcode, -⟩ :=
      (freeze_firstDefect first).2.2.2 _ hfirst
    · obtain rfl : [1] = path := SyntaxError.incomplete.inj he
      exact ⟨before, after, part, hsplit, hbefore⟩
    · simp [SyntaxError.code] at hcode
  · obtain ⟨hcode, -⟩ | ⟨-, c, n, path, part, he, -, hc, hn, -, ⟨before, after, hsplit, -⟩, -⟩ :=
      (freeze_firstDefect second).2.2.2 _ hsecond
    · simp [SyntaxError.code] at hcode
    · obtain ⟨rfl, rfl⟩ := SyntaxError.arityMismatch.inj he
      exact ⟨before, after, path, part, hsplit, hc, hn⟩

end Builder

end Deduction
