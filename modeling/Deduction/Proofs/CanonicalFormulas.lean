import Deduction.Proofs.Encoding
import Deduction.Proofs.Propositional
import Deduction.Proofs.Theories

/-!
# Reading objects back from formulas

Every object is written as a formula and can be read back from it.  Reading is a little more liberal
than writing: where a sequence is expected an enumeration will do, and where an enumeration is
expected a sequence without duplicates will.  So some formulas are read as an object although they
are not the formula of it.  `Spelling` names, for each kind of object, the terms at which this
happens and puts there what writing would have put; everything else in the formula stays.

`readings_inverse` says for all kinds at once that this is the only freedom: a formula is read as an
object exactly when it becomes the formula of that object once it is spelled like one.  The readers
are nested like the objects, from lists of formulas up to theories, and each is settled by the ones
below it.  What a reader checks on the way is no obstacle.  An object carries the proof that it is
in order, and a reader succeeds as soon as there is an object with the parts that were read.
-/

namespace Deduction

/-! ## Spellings -/

namespace Spelling

/-- A sequence or an enumeration becomes the formula of the given kind on the same terms. -/
def listing (kind : Structure) : Formula → Formula
  | .node c ts =>
    if c = .structural .sequence ∨ c = .structural .enumeration then .structural kind ts
    else .node c ts

/-- Where a sequence is expected, an enumeration stands for the sequence of its terms. -/
def sequence : Formula → Formula := listing .sequence

/-- Where an enumeration is expected, a sequence stands for the enumeration of its terms. -/
def enumeration : Formula → Formula := listing .enumeration

/-- Changes the terms of a formula of the given kind.  Other formulas stay as they are. -/
def inside (kind : Structure) (change : List Formula → List Formula) : Formula → Formula
  | .node c ts => if c = .structural kind then .node c (change ts) else .node c ts

/-- Spells each term in its own way. -/
def each : (spellings : List (Formula → Formula)) → (terms : List Formula) → List Formula
  | spell :: spellings, t :: ts => spell t :: each spellings ts
  | _, ts => ts

/-- The terms of a map are its domain and its codomain. -/
def map : Formula → Formula := inside .map (each [enumeration, sequence])

/-- The terms of a transformation are its conclusion, its variables and its premises. -/
def transformation : Formula → Formula :=
  inside .transformation (each [id, enumeration, sequence])

/-- The term of a rule is its transformation. -/
def rule : Formula → Formula := inside .inferenceRule (each [transformation])

/-- The terms of an inference are its rule and its premises. -/
def inference : Formula → Formula := inside .inference (each [rule, sequence])

/-- The terms of a theorem are its statement and its inference. -/
def proved : Formula → Formula := inside .provedTheorem (each [id, inference])

/-- A derivation is spelled like a rule or a theorem.  An axiom has one spelling only. -/
def derivation (φ : Formula) : Formula :=
  match φ.connective with
  | .structural .inferenceRule => rule φ
  | .structural .provedTheorem => proved φ
  | _ => φ

/-- The terms of a theory are its derivations. -/
def theory : Formula → Formula := inside .theory (List.map derivation)

/-- The terms of an axiomatization are its derivations. -/
def axiomatization : Formula → Formula := inside .axiomatization (List.map derivation)

theorem listing_eq_structural {kind : Structure} (hkind : kind = .sequence ∨ kind = .enumeration)
    {φ : Formula} {ts : List Formula} :
    listing kind φ = .structural kind ts ↔
      φ = .structural .sequence ts ∨ φ = .structural .enumeration ts := by
  obtain ⟨c, us⟩ := φ
  by_cases hc : c = .structural .sequence ∨ c = .structural .enumeration
  · simp only [listing, hc, if_true, Formula.structural, Formula.node.injEq]
    grind
  · simp only [listing, hc, if_false, Formula.structural, Formula.node.injEq]
    grind

@[simp] theorem connective_inside (kind : Structure) (change : List Formula → List Formula)
    (φ : Formula) : (inside kind change φ).connective = φ.connective := by
  obtain ⟨c, ts⟩ := φ
  by_cases hc : c = .structural kind <;> simp [inside, hc]

@[simp] theorem inside_structural (kind : Structure) (change : List Formula → List Formula)
    (ts : List Formula) :
    inside kind change (.node (.structural kind) ts) = .structural kind (change ts) := by
  simp [inside, Formula.structural]

/-- Where reading a formula fails because it is not of the kind or does not have the right terms, it
is not spelled like an object of the kind either. -/
theorem error_iff_inside {α ε : Type} {e : ε} {a : α} {kind : Structure}
    {change : List Formula → List Formula} {φ : Formula} {us : List Formula}
    (h : ∀ ts, φ = .structural kind ts → change ts ≠ us) :
    (.error e : Except ε α) = .ok a ↔ inside kind change φ = .structural kind us := by
  simp only [reduceCtorEq, false_iff]
  intro hspell
  obtain ⟨c, ts⟩ := φ
  have hc : c = .structural kind := by
    have hconnective := congrArg Formula.connective hspell
    rwa [connective_inside] at hconnective
  subst hc
  rw [inside_structural] at hspell
  exact h ts rfl (by simpa [Formula.structural] using hspell)

theorem length_each (spellings : List (Formula → Formula)) (ts : List Formula) :
    (each spellings ts).length = ts.length := by
  fun_induction each spellings ts with
  | case1 spell spellings t ts ih => simp [ih]
  | case2 => rfl

/-- Spelling the terms does not change their number. -/
theorem error_iff_each {α ε : Type} {e : ε} {a : α} {kind : Structure}
    {spellings : List (Formula → Formula)} {φ : Formula} {us : List Formula}
    (h : ∀ ts, ts.length = us.length → φ ≠ .structural kind ts) :
    (.error e : Except ε α) = .ok a ↔ inside kind (each spellings) φ = .structural kind us := by
  refine error_iff_inside fun ts hφ hspell => ?_
  have hlength : ts.length = us.length := by rw [← hspell, length_each]
  exact h ts hlength hφ

end Spelling

/-! ## Lists of formulas and maps -/

theorem Sequence.ofFormula_eq_ok {φ : Formula} {s : Sequence} :
    ofFormula φ = .ok s ↔ Spelling.sequence φ = s.formula := by
  obtain ⟨elements⟩ := s
  rw [Spelling.sequence, formula, Spelling.listing_eq_structural (.inl rfl)]
  fun_cases ofFormula φ with
  | case1 ts => simp [Formula.structural]
  | case2 ts => simp [Formula.structural]
  | case3 _ hsequence henumeration =>
    simp only [reduceCtorEq, false_iff]
    rintro (h | h)
    · exact hsequence elements h
    · exact henumeration elements h

theorem Enumeration.ofFormula_eq_ok {φ : Formula} {e : Enumeration} :
    ofFormula φ = .ok e ↔ Spelling.enumeration φ = e.formula := by
  rw [Spelling.enumeration, formula, Spelling.listing_eq_structural (.inr rfl)]
  fun_cases ofFormula φ with
  | case1 ts =>
    rw [ofList_eq_ok]
    simp [Formula.structural, eq_comm]
  | case2 ts =>
    rw [ofList_eq_ok]
    simp [Formula.structural, eq_comm]
  | case3 _ henumeration hsequence =>
    simp only [reduceCtorEq, false_iff]
    rintro (h | h)
    · exact hsequence e.elements h
    · exact henumeration e.elements h

namespace Map

theorem ofFormula_eq_ok {φ : Formula} {m : Map} :
    ofFormula φ = .ok m ↔ Spelling.map φ = m.formula := by
  rw [m.formula_eq]
  fun_cases ofFormula φ with
  | case1 domain codomain =>
    simp [except_bind_eq_ok, ofParts_eq_ok, Enumeration.ofFormula_eq_ok, Sequence.ofFormula_eq_ok,
      Spelling.map, Spelling.each, Formula.structural]
  | case2 _ hother =>
    refine Spelling.error_iff_each fun ts hlength hφ => ?_
    obtain ⟨domain, codomain, rfl⟩ := List.length_eq_two.mp hlength
    exact hother domain codomain hφ

end Map

/-! ## Rules and theorems -/

theorem Transformation.ofFormula_eq_ok {φ : Formula} {t : Transformation} :
    ofFormula φ = .ok t ↔ Spelling.transformation φ = t.formula := by
  fun_cases ofFormula φ with
  | case1 conclusion vars premises =>
    have hspell : Spelling.transformation
        (.node (.structural .transformation) [conclusion, vars, premises]) = t.formula ↔
        conclusion = t.conclusion ∧ Spelling.enumeration vars = t.vars.formula ∧
          Spelling.sequence premises = t.premises.formula := by
      simp [Spelling.transformation, Spelling.each, formula, Formula.structural]
    rw [hspell]
    simp only [except_bind_eq_ok, ofParts_eq_ok, Enumeration.ofFormula_eq_ok,
      Sequence.ofFormula_eq_ok]
    constructor
    · rintro ⟨_, hpremises, _, hvars, rfl, rfl, rfl⟩
      exact ⟨rfl, hvars, hpremises⟩
    · rintro ⟨rfl, hvars, hpremises⟩
      exact ⟨_, hpremises, _, hvars, rfl, rfl, rfl⟩
  | case2 _ hother =>
    refine Spelling.error_iff_each fun ts hlength hφ => ?_
    obtain ⟨conclusion, vars, premises, rfl⟩ := List.length_eq_three.mp hlength
    exact hother conclusion vars premises hφ

theorem Axiom.ofFormula_eq_ok {φ : Formula} {a : Axiom} : ofFormula φ = .ok a ↔ φ = a.formula := by
  obtain ⟨statement⟩ := a
  fun_cases ofFormula φ with
  | case1 ψ => simp [formula, Formula.structural]
  | case2 _ hother =>
    simp only [reduceCtorEq, false_iff]
    intro h
    exact hother statement h

theorem InferenceRule.ofFormula_eq_ok {φ : Formula} {r : InferenceRule} :
    ofFormula φ = .ok r ↔ Spelling.rule φ = r.formula := by
  obtain ⟨t⟩ := r
  fun_cases ofFormula φ with
  | case1 ψ =>
    simp [except_map_eq_ok, Transformation.ofFormula_eq_ok, Spelling.rule, Spelling.each, formula,
      Formula.structural]
  | case2 _ hother =>
    refine Spelling.error_iff_each fun ts hlength hφ => ?_
    obtain ⟨ψ, rfl⟩ := List.length_eq_one_iff.mp hlength
    exact hother ψ hφ

theorem Inference.ofFormula_eq_ok {φ : Formula} {i : Inference} :
    ofFormula φ = .ok i ↔ Spelling.inference φ = i.formula := by
  obtain ⟨r, ps⟩ := i
  fun_cases ofFormula φ with
  | case1 rule premises =>
    simp [except_bind_eq_ok, except_map_eq_ok, InferenceRule.ofFormula_eq_ok,
      Sequence.ofFormula_eq_ok, Spelling.inference, Spelling.each, formula, Formula.structural]
  | case2 _ hother =>
    refine Spelling.error_iff_each fun ts hlength hφ => ?_
    obtain ⟨rule, premises, rfl⟩ := List.length_eq_two.mp hlength
    exact hother rule premises hφ

theorem Theorem.ofFormula_eq_ok {φ : Formula} {t : Theorem} :
    ofFormula φ = .ok t ↔ Spelling.proved φ = t.formula := by
  fun_cases ofFormula φ with
  | case1 statement inference =>
    have hspell :
        Spelling.proved (.node (.structural .provedTheorem) [statement, inference]) = t.formula ↔
          statement = t.statement ∧ Spelling.inference inference = t.inference.formula := by
      simp [Spelling.proved, Spelling.each, formula, Formula.structural]
    rw [hspell]
    simp only [except_bind_eq_ok, ofInference_eq_ok, Inference.ofFormula_eq_ok]
    constructor
    · rintro ⟨_, hinference, rfl, rfl⟩
      exact ⟨rfl, hinference⟩
    · rintro ⟨rfl, hinference⟩
      exact ⟨_, hinference, rfl, rfl⟩
  | case2 _ hother =>
    refine Spelling.error_iff_each fun ts hlength hφ => ?_
    obtain ⟨statement, inference, rfl⟩ := List.length_eq_two.mp hlength
    exact hother statement inference hφ

/-! ## Derivations -/

theorem Spelling.connective_derivation (φ : Formula) :
    (Spelling.derivation φ).connective = φ.connective := by
  unfold Spelling.derivation
  split
  · exact connective_inside _ _ φ
  · exact connective_inside _ _ φ
  · rfl

namespace Derivation

/-- The kind of the formula that stands for the derivation. -/
def kind : Derivation → Structure
  | stated _ => .statedAxiom
  | rule _ => .inferenceRule
  | proved _ => .provedTheorem

theorem connective_formula (d : Derivation) : d.formula.connective = .structural d.kind := by
  cases d <;> rfl

/-- A formula that is spelled like a derivation is of its kind. -/
theorem connective_eq_of_spelling {φ : Formula} {d : Derivation}
    (h : Spelling.derivation φ = d.formula) : φ.connective = .structural d.kind := by
  rw [← Spelling.connective_derivation, h, connective_formula]

/-- A formula of one kind is read as a derivation as it is read as an object of that kind. -/
theorem map_eq_ok_iff {α : Type} {read : Formula → Except Error α} {wrap : α → Derivation}
    {spell : Formula → Formula} {φ : Formula} {d : Derivation} {kind : Structure}
    (hkind : φ.connective = .structural kind) (hspell : Spelling.derivation φ = spell φ)
    (hread : ∀ a, read φ = .ok a ↔ spell φ = (wrap a).formula)
    (hwrap : d.kind = kind → ∃ a, d = wrap a) :
    wrap <$> read φ = .ok d ↔ Spelling.derivation φ = d.formula := by
  rw [except_map_eq_ok]
  constructor
  · rintro ⟨a, ha, rfl⟩
    rw [hspell, (hread a).mp ha]
  · intro h
    have heq : d.kind = kind := by
      have hconnective := connective_eq_of_spelling h
      rw [hkind] at hconnective
      exact (Connective.structural.inj hconnective).symm
    obtain ⟨a, rfl⟩ := hwrap heq
    exact ⟨a, (hread a).mpr (hspell ▸ h), rfl⟩

theorem ofFormula_eq_ok {φ : Formula} {d : Derivation} :
    ofFormula φ = .ok d ↔ Spelling.derivation φ = d.formula := by
  fun_cases ofFormula φ with
  | case1 hkind =>
    have hspell : Spelling.derivation φ = id φ := by simp [Spelling.derivation, hkind]
    refine map_eq_ok_iff hkind hspell (fun a => Axiom.ofFormula_eq_ok) ?_
    cases d <;> simp [kind]
  | case2 hkind =>
    have hspell : Spelling.derivation φ = Spelling.rule φ := by simp [Spelling.derivation, hkind]
    refine map_eq_ok_iff hkind hspell (fun r => InferenceRule.ofFormula_eq_ok) ?_
    cases d <;> simp [kind]
  | case3 hkind =>
    have hspell : Spelling.derivation φ = Spelling.proved φ := by simp [Spelling.derivation, hkind]
    refine map_eq_ok_iff hkind hspell (fun t => Theorem.ofFormula_eq_ok) ?_
    cases d <;> simp [kind]
  | case4 hstated hrule hproved =>
    simp only [reduceCtorEq, false_iff]
    intro h
    have hkind := connective_eq_of_spelling h
    cases d with
    | stated a => exact hstated hkind
    | rule r => exact hrule hkind
    | proved t => exact hproved hkind

theorem ofFormulas_eq_ok {φs : List Formula} {ds : List Derivation} :
    ofFormulas φs = .ok ds ↔ φs.map Spelling.derivation = ds.map (·.formula) := by
  induction φs generalizing ds with
  | nil => cases ds <;> simp [ofFormulas]
  | cons φ φs ih =>
    rw [ofFormulas]
    simp only [except_bind_eq_ok, ofFormula_eq_ok, ih]
    cases ds with
    | nil => simp [pure, Except.pure]
    | cons d ds => simp [pure, Except.pure]

end Derivation

/-! ## Theories -/

theorem Theory.ofFormula_eq_ok {φ : Formula} {T : Theory} :
    ofFormula φ = .ok T ↔ Spelling.theory φ = T.formula := by
  fun_cases ofFormula φ with
  | case1 ts =>
    simp [except_bind_eq_ok, ofList_eq_ok, Derivation.ofFormulas_eq_ok, Spelling.theory, formula,
      Formula.structural]
  | case2 _ hother => exact Spelling.error_iff_inside fun ts hφ _ => hother ts hφ

namespace Axiomatization

/-- A list becomes an axiomatization exactly when there is one with its derivations. -/
theorem ofList_eq_ok {ds : List Derivation} {A : Axiomatization} :
    ofList ds = .ok A ↔ A.derivations = ds := by
  constructor
  · intro h
    unfold ofList at h
    split at h
    · simp at h
    · split at h
      · simp at h
      · obtain rfl := Except.ok.inj h
        rfl
  · rintro rfl
    have htheorem : A.derivations.find? (·.IsTheorem) = none := by simpa using A.axiomatic
    obtain ⟨e, he⟩ := Derivation.exists_enumerate_iff.mpr A.nodup
    unfold ofList
    split
    next d h => simp [htheorem] at h
    next =>
      split
      next h => simp [he] at h
      next => rfl

theorem ofFormula_eq_ok {φ : Formula} {A : Axiomatization} :
    ofFormula φ = .ok A ↔ Spelling.axiomatization φ = A.formula := by
  fun_cases ofFormula φ with
  | case1 ts =>
    simp [except_bind_eq_ok, ofList_eq_ok, Derivation.ofFormulas_eq_ok, Spelling.axiomatization,
      formula, Formula.structural]
  | case2 _ hother => exact Spelling.error_iff_inside fun ts hφ _ => hother ts hφ

end Axiomatization

/-! ## All readers -/

/-- What is written as a formula is read back from it, and a formula is read as an object exactly
when it is spelled as the formula of that object. -/
structure Inverts {α ε : Type} (read : Formula → Except ε α) (write : α → Formula)
    (spell : Formula → Formula) : Prop where
  readBack : ∀ a, read (write a) = .ok a
  exact : ∀ φ a, read φ = .ok a ↔ spell φ = write a

theorem Spelling.inside_derivations (kind : Structure) (ds : List Derivation) :
    inside kind (List.map derivation) (.structural kind (ds.map (·.formula))) =
      .structural kind (ds.map (·.formula)) := by
  have hspell : (ds.map (·.formula)).map derivation = ds.map (·.formula) := by
    rw [List.map_map]
    refine List.map_congr_left fun d _ => ?_
    exact Derivation.ofFormula_eq_ok.mp d.ofFormula_formula
  rw [Formula.structural, inside_structural, hspell]
  rfl

theorem Map.ofFormula_formula (m : Map) : ofFormula m.formula = .ok m :=
  ofFormula_eq_ok.mpr (by rw [m.formula_eq]; rfl)

theorem Theory.ofFormula_formula (T : Theory) : ofFormula T.formula = .ok T :=
  ofFormula_eq_ok.mpr (Spelling.inside_derivations .theory T.derivations)

theorem Axiomatization.ofFormula_formula (A : Axiomatization) : ofFormula A.formula = .ok A :=
  ofFormula_eq_ok.mpr (Spelling.inside_derivations .axiomatization A.derivations)

/-- Reading undoes writing, for every kind of object, and nothing else is read than what writing can
produce, up to enumerations in the places of sequences and sequences in the places of enumerations.
These places are the list itself, the domain and the codomain of a map, the variables and the
premises of a transformation and the premises of an inference, wherever these stand in a larger
object. -/
theorem readings_inverse :
    Inverts Sequence.ofFormula Sequence.formula Spelling.sequence ∧
    Inverts Enumeration.ofFormula Enumeration.formula Spelling.enumeration ∧
    Inverts Map.ofFormula Map.formula Spelling.map ∧
    Inverts Transformation.ofFormula Transformation.formula Spelling.transformation ∧
    Inverts Axiom.ofFormula Axiom.formula id ∧
    Inverts InferenceRule.ofFormula InferenceRule.formula Spelling.rule ∧
    Inverts Inference.ofFormula Inference.formula Spelling.inference ∧
    Inverts Theorem.ofFormula Theorem.formula Spelling.proved ∧
    Inverts Derivation.ofFormula Derivation.formula Spelling.derivation ∧
    Inverts Theory.ofFormula Theory.formula Spelling.theory ∧
    Inverts Axiomatization.ofFormula Axiomatization.formula Spelling.axiomatization :=
  ⟨⟨Sequence.ofFormula_formula, fun _ _ => Sequence.ofFormula_eq_ok⟩,
    ⟨Enumeration.ofFormula_formula, fun _ _ => Enumeration.ofFormula_eq_ok⟩,
    ⟨Map.ofFormula_formula, fun _ _ => Map.ofFormula_eq_ok⟩,
    ⟨Transformation.ofFormula_formula, fun _ _ => Transformation.ofFormula_eq_ok⟩,
    ⟨fun _ => rfl, fun _ _ => Axiom.ofFormula_eq_ok⟩,
    ⟨InferenceRule.ofFormula_formula, fun _ _ => InferenceRule.ofFormula_eq_ok⟩,
    ⟨Inference.ofFormula_formula, fun _ _ => Inference.ofFormula_eq_ok⟩,
    ⟨Theorem.ofFormula_formula, fun _ _ => Theorem.ofFormula_eq_ok⟩,
    ⟨Derivation.ofFormula_formula, fun _ _ => Derivation.ofFormula_eq_ok⟩,
    ⟨Theory.ofFormula_formula, fun _ _ => Theory.ofFormula_eq_ok⟩,
    ⟨Axiomatization.ofFormula_formula, fun _ _ => Axiomatization.ofFormula_eq_ok⟩⟩

open Propositional in
example : Transformation.ofFormula (.structural .transformation
    [y, .structural .sequence [x, y], .structural .enumeration [implies x y, x]]) =
    .ok detachment.transformation := by
  decide

end Deduction
