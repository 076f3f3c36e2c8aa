import Deduction.Proofs.Assignments
import Deduction.Proofs.Matching
import Deduction.Transformation

/-!
# Rules applied to instances of their premises

Read backwards, a transformation turns a target into premises: matching binds the variables of the
conclusion, the other variables of the premises are assigned formulas of a pool, and what this makes
of the premises are the premises that are needed.  Read forwards again, from just these premises,
the transformation matches each of them against the pattern that it is an instance of.

Such a match cannot fail, since the bindings at hand solve it (`apply_necessaryPremises_eq_error`).
The one thing that may go wrong is that a variable occurs in a premise.  It is not a variable that
was left open, as all variables of the premises are bound; so it came with the target or with a
formula of the pool, or it is a variable of another transformation that stands in the premise as a
constant (`Completes.occurs`).
-/

namespace Deduction

namespace Transformation

variable {t : Transformation}

/-! ## Forwards -/

/-- Instances of the patterns are matched by the patterns, unless a variable occurs in one. -/
theorem solve_instance {vars : List Formula} (hatomic : ∀ v ∈ vars, v.IsAtomic) {s : Map}
    (hs : s.keys ⊆ vars) (ps : List Formula) {b : Map} (hb : b.pairs ⊆ s.pairs) :
    (∃ v ∈ vars, ∃ p ∈ ps, (p.substitute s).contains v = true ∧
      solve vars ps (ps.map (·.substitute s)) b = .error (.variableOccurs v (p.substitute s))) ∨
    ∃ m, solve vars ps (ps.map (·.substitute s)) b = .ok (some m) ∧ m.pairs ⊆ s.pairs := by
  induction ps generalizing b with
  | nil => exact .inr ⟨b, rfl, hb⟩
  | cons p ps ih =>
    have hbkeys : b.keys ⊆ vars := fun k hk => hs (Map.keys_subset hb hk)
    cases hmatch : (p.substitute s).matchPattern p vars b with
    | error e =>
      obtain ⟨v, hv, hoccurs, rfl⟩ := Formula.matchPattern_eq_error hatomic hbkeys hmatch
      refine .inl ⟨v, hv, p, by simp, hoccurs, ?_⟩
      simp [solve, hmatch, bind, Except.bind]
    | ok result =>
      obtain ⟨hvars, -, hunify⟩ := Formula.matchPattern_eq_ok.mp hmatch
      have habsent : ∀ v ∈ vars, v ∉ (p.substitute s).preorder := fun v hv =>
        Formula.contains_eq_false_iff.mp (hvars v hv).2
      obtain ⟨b', hb', hsub⟩ := Formula.unify_of_solution hatomic hs p hb habsent
      obtain ⟨n, rfl, hn⟩ := Option.map_eq_some_iff.mp (hunify.symm.trans hb')
      obtain rfl : n = b' := Map.ext hn
      have hcons : solve vars (p :: ps) ((p :: ps).map (·.substitute s)) b =
          solve vars ps (ps.map (·.substitute s)) n := by
        simp [solve, hmatch, bind, Except.bind]
      rw [hcons]
      refine (ih hsub).imp_left ?_
      rintro ⟨v, hv, q, hq, h⟩
      exact ⟨v, hv, q, by simp [hq], h⟩

/-- Applied to its own premises under bindings of its variables, a transformation has one possible
error: a variable occurs in one of them. -/
theorem apply_necessaryPremises_eq_error {m : Map} (hm : m.keys ⊆ t.vars.elements) {e : Error}
    (h : t.apply (t.necessaryPremises m).elements = .error e) :
    ∃ v ∈ t.vars.elements, ∃ p ∈ (t.necessaryPremises m).elements,
      p.contains v = true ∧ e = .ofFormulas (.variableOccurs v p) := by
  have hlength : (t.necessaryPremises m).elements.length = t.premises.elements.length := by
    simp [necessaryPremises]
  have hempty : Map.empty.pairs ⊆ m.pairs := by simp
  rw [apply, if_neg (by simp [hlength])] at h
  rcases solve_instance t.atomic hm t.premises.elements hempty with
    ⟨v, hv, p, hp, hoccurs, hsolve⟩ | ⟨n, hsolve, -⟩
  · simp only [necessaryPremises, hsolve] at h
    exact ⟨v, hv, _, List.mem_map_of_mem hp, hoccurs, (Except.error.inj h).symm⟩
  · simp [necessaryPremises, hsolve] at h

theorem solve_absent {vars ps as : List Formula} {b m : Map} (hlength : as.length = ps.length)
    (h : solve vars ps as b = .ok (some m)) : ∀ a ∈ as, ∀ v ∈ vars, a.contains v = false := by
  induction ps generalizing as b with
  | nil => simp [List.length_eq_zero_iff.mp hlength]
  | cons p ps ih =>
    cases as with
    | nil => simp
    | cons a as =>
      cases hmatch : a.matchPattern p vars b with
      | error e => simp [solve, hmatch, bind, Except.bind] at h
      | ok b'? =>
        cases b'? with
        | none => simp [solve, hmatch, bind, Except.bind, pure, Except.pure] at h
        | some b' =>
          have hrest : solve vars ps as b' = .ok (some m) := by
            simpa [solve, hmatch, bind, Except.bind] using h
          obtain ⟨hvars, -⟩ := Formula.matchPattern_eq_ok.mp hmatch
          refine List.forall_mem_cons.mpr ⟨fun v hv => (hvars v hv).2, ?_⟩
          exact ih (by simpa using hlength) hrest

/-- No variable occurs in arguments from which a conclusion is drawn. -/
theorem apply_absent {arguments : List Formula} {conclusion : Formula}
    (h : t.apply arguments = .ok conclusion) :
    ∀ a ∈ arguments, ∀ v ∈ t.vars.elements, a.contains v = false := by
  unfold apply at h
  split at h
  · simp at h
  next hlength =>
    split at h
    · simp at h
    · simp at h
    next hsolve => exact solve_absent (by simpa using hlength) hsolve

/-! ## Backwards -/

theorem matchConclusion_eq_error {target : Formula} {e : SyntaxError}
    (h : t.matchConclusion target = .error e) :
    ∃ v ∈ t.vars.elements, target.contains v = true ∧ e = .variableOccurs v target :=
  Formula.matchPattern_eq_error t.atomic (by simp) h

theorem matchConclusion_binds {target : Formula} {b : Map}
    (h : t.matchConclusion target = .ok (some b)) :
    Formula.Binds t.vars.elements [t.conclusion] [target] .empty b := by
  obtain ⟨-, -, hunify⟩ := Formula.matchPattern_eq_ok.mp h
  exact Formula.unify_binds t.atomic (by simp) hunify

theorem mem_keys_matchConclusion {target : Formula} {b : Map}
    (h : t.matchConclusion target = .ok (some b)) {key : Formula} :
    key ∈ b.keys ↔ key ∈ t.conclusion.preorder ∧ key ∈ t.vars.elements := by
  rw [(matchConclusion_binds h).keys, mem_appendNew]
  simp [Formula.preorderList]

/-- What matching the conclusion binds are parts of the target. -/
theorem preorder_image_matchConclusion {target : Formula} {b : Map}
    (h : t.matchConclusion target = .ok (some b)) {pair : Formula × Formula}
    (hpair : pair ∈ b.pairs) : pair.2.preorder ⊆ target.preorder := by
  have hkey : pair.1 ∈ b.keys := Map.mem_keys_of_mem hpair
  have htarget : t.conclusion.substitute b = target := by
    simpa using (matchConclusion_binds h).instantiates
  rw [← htarget]
  refine Formula.preorder_image_subset (fun k hk => ?_) (Map.get?_eq_some.mpr hpair) ?_
  · exact t.atomic k ((mem_keys_matchConclusion h).mp hk).2
  · exact ((mem_keys_matchConclusion h).mp hkey).1

theorem mem_freeVariables {b : Map} {v : Formula} :
    v ∈ t.freeVariables b ↔
      v ∈ t.vars.elements ∧ v ∉ b.keys ∧ ∃ p ∈ t.premises.elements, v ∈ p.preorder := by
  simp [freeVariables, Map.containsKey, Formula.contains_iff_mem_preorder]

/-- The map binds what the bindings bind and the variables that they leave free, and nothing
else. -/
def BindsFree (t : Transformation) (b m : Map) : Prop :=
  ∀ key, key ∈ m.keys ↔ key ∈ b.keys ∨ key ∈ t.freeVariables b

namespace BindsFree

variable {b m : Map}

theorem keys_subset (h : t.BindsFree b m) {target : Formula}
    (hmatch : t.matchConclusion target = .ok (some b)) : m.keys ⊆ t.vars.elements := by
  intro key hkey
  rcases (h key).mp hkey with hbound | hfree
  · exact ((mem_keys_matchConclusion hmatch).mp hbound).2
  · exact (mem_freeVariables.mp hfree).1

/-- Every variable that a premise has is bound. -/
theorem mem_keys (h : t.BindsFree b m) {v p : Formula} (hv : v ∈ t.vars.elements)
    (hp : p ∈ t.premises.elements) (hoccurs : v ∈ p.preorder) : v ∈ m.keys := by
  rw [h]
  by_cases hbound : v ∈ b.keys
  · exact .inl hbound
  · exact .inr (mem_freeVariables.mpr ⟨hv, hbound, p, hp, hoccurs⟩)

/-- Where an atomic formula in a needed premise comes from: it stands in a premise and is not a
variable there, or it came with an image. -/
theorem occurs (h : t.BindsFree b m) {v q : Formula} (hv : v.IsAtomic)
    (hq : q ∈ (t.necessaryPremises m).elements) (hoccurs : v ∈ q.preorder) :
    (v ∉ t.vars.elements ∧ ∃ p ∈ t.premises.elements, v ∈ p.preorder) ∨
      ∃ pair ∈ m.pairs, v ∈ pair.2.preorder := by
  obtain ⟨p, hp, rfl⟩ := List.mem_map.mp hq
  obtain ⟨hstays, hfree⟩ | ⟨pair, hpair, -, himage⟩ := Formula.mem_preorder_substitute hv hoccurs
  · exact .inl ⟨fun hvar => hfree (h.mem_keys hvar hp hstays), p, hp, hstays⟩
  · exact .inr ⟨pair, hpair, himage⟩

end BindsFree

/-- The bindings are those of a match of the target with the conclusion, completed by formulas of
the pool for the variables that it leaves free. -/
def Completes (t : Transformation) (target : Formula) (pool : List Formula) (m : Map) : Prop :=
  ∃ b, t.matchConclusion target = .ok (some b) ∧ m ∈ assignments (t.freeVariables b) pool b

namespace Completes

variable {target : Formula} {pool : List Formula} {m : Map}

theorem keys_subset (h : t.Completes target pool m) : m.keys ⊆ t.vars.elements := by
  obtain ⟨b, hmatch, hm⟩ := h
  exact BindsFree.keys_subset (fun _ => mem_keys_assignments hm) hmatch

/-- Where an atomic formula in a needed premise comes from: it stands in a premise and is not a
variable there, or it occurs in the target or in a formula of the pool. -/
theorem occurs (h : t.Completes target pool m) {v q : Formula} (hv : v.IsAtomic)
    (hq : q ∈ (t.necessaryPremises m).elements) (hoccurs : v ∈ q.preorder) :
    (v ∉ t.vars.elements ∧ ∃ p ∈ t.premises.elements, v ∈ p.preorder) ∨
      v ∈ target.preorder ∨ ∃ φ ∈ pool, v ∈ φ.preorder := by
  obtain ⟨b, hmatch, hm⟩ := h
  refine (BindsFree.occurs (fun _ => mem_keys_assignments hm) hv hq hoccurs).imp_right ?_
  rintro ⟨pair, hpair, himage⟩
  rcases mem_pairs_assignments hm hpair with hbound | hpool
  · exact .inl (preorder_image_matchConclusion hmatch hbound himage)
  · exact .inr ⟨pair.2, hpool, himage⟩

end Completes

end Transformation

end Deduction
