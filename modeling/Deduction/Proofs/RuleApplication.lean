import Deduction.Proofs.Propositional
import Deduction.Proofs.Transformations

/-!
# Rules applied to arguments

Applying a transformation goes through its premises once.  Each argument is matched against the
premise at the same index, on top of the bindings of the matches before it, and a binding is never
taken back.  `Transformation.apply_simultaneous` says that this finds a solution of all premises at
once whenever there is one, that the conclusion does not depend on which solution is taken, and
which error the other arguments lead to.

A match along the way is decided by the premises and arguments up to its index: the bindings at hand
are among the pairs of every solution of these (`solve_least`), so what cannot be matched on top of
them cannot be solved at all.  The first index that is in the way is therefore the first one at
which a variable occurs in the argument or the premises and arguments so far have no solution.
-/

namespace Deduction

namespace Formula

/-- With atomic variables, what is wrong with them is that the first of those that occur in the
target does. -/
theorem variableError?_eq_map {vars : List Formula} (hatomic : ∀ v ∈ vars, v.IsAtomic)
    (target : Formula) :
    variableError? vars target =
      (vars.find? (target.contains ·)).map (.variableOccurs · target) := by
  rw [variableError?]
  induction vars with
  | nil => rfl
  | cons v vars ih =>
    have hv : v.IsAtomic := hatomic v (by simp)
    have hvars := ih fun w hw => hatomic w (by simp [hw])
    by_cases hoccurs : target.contains v = true
    · simp [hv, hoccurs]
    · simpa [hv, hoccurs] using hvars

theorem matchPattern_eq_error_iff_of_atomic {target pattern : Formula} {vars : List Formula}
    {bindings : Map} {e : SyntaxError} (hatomic : ∀ v ∈ vars, v.IsAtomic)
    (hkeys : bindings.keys ⊆ vars) :
    target.matchPattern pattern vars bindings = .error e ↔
      ∃ v, vars.find? (target.contains ·) = some v ∧ .variableOccurs v target = e := by
  have hnone : bindings.keys.find? (· ∉ vars) = none := by
    simpa using fun key hkey => hkeys hkey
  rw [matchPattern_eq_error_iff, hnone, variableError?_eq_map hatomic]
  simp

end Formula

namespace Transformation

variable {vars ps as : List Formula} {b m : Map}

/-! ## Bindings on the way -/

theorem solve_cons (vars : List Formula) (p a : Formula) (ps as : List Formula) (b : Map) :
    solve vars (p :: ps) (a :: as) b =
      a.matchPattern p vars b >>= fun b? =>
        match b? with
        | some b' => solve vars ps as b'
        | none => .ok none := by
  rw [solve]
  rfl

theorem solve_cons_eq_some {p a : Formula} :
    solve vars (p :: ps) (a :: as) b = .ok (some m) ↔
      ∃ b', a.matchPattern p vars b = .ok (some b') ∧ solve vars ps as b' = .ok (some m) := by
  rw [solve_cons, except_bind_eq_ok]
  constructor
  · rintro ⟨b?, hb?, h⟩
    cases b? with
    | none => simp at h
    | some b' => exact ⟨b', hb?, h⟩
  · rintro ⟨b', hb', h⟩
    exact ⟨some b', hb', h⟩

/-- The matches of a front part come first. -/
theorem solve_append (hlength : as.length = ps.length) (h : solve vars ps as b = .ok (some m))
    (ps' as' : List Formula) :
    solve vars (ps ++ ps') (as ++ as') b = solve vars ps' as' m := by
  induction ps generalizing as b with
  | nil =>
    obtain rfl : as = [] := List.length_eq_zero_iff.mp hlength
    obtain rfl : b = m := by simpa [solve, pure, Except.pure] using h
    rfl
  | cons p ps ih =>
    obtain ⟨a, as, rfl⟩ : ∃ a as', as = a :: as' := List.exists_cons_of_length_eq_add_one hlength
    obtain ⟨b', hb', h⟩ := solve_cons_eq_some.mp h
    have hrest := ih (by simpa using hlength) h
    rw [List.cons_append, List.cons_append, solve_cons, hb']
    exact hrest

/-- What the matches have done when all of them succeed. -/
theorem solve_binds (hatomic : ∀ v ∈ vars, v.IsAtomic) (hb : b.keys ⊆ vars)
    (hlength : as.length = ps.length) (h : solve vars ps as b = .ok (some m)) :
    Formula.Binds vars ps as b m := by
  induction ps generalizing as b with
  | nil =>
    obtain rfl : as = [] := List.length_eq_zero_iff.mp hlength
    obtain rfl : b = m := by simpa [solve, pure, Except.pure] using h
    exact Formula.binds_nil b
  | cons p ps ih =>
    obtain ⟨a, as, rfl⟩ : ∃ a as', as = a :: as' := List.exists_cons_of_length_eq_add_one hlength
    obtain ⟨b', hb', h⟩ := solve_cons_eq_some.mp h
    obtain ⟨-, -, hunify⟩ := Formula.matchPattern_eq_ok.mp hb'
    have hhead := Formula.unify_binds hatomic hb hunify
    exact hhead.cons hb (ih (hhead.keys_subset hb) (by simpa using hlength) h)

/-! ## Solutions -/

/-- The formula holds no variable of the transformation. -/
def Clear (t : Transformation) (φ : Formula) : Prop :=
  ∀ v ∈ t.vars.elements, φ.contains v = false

/-- The map binds variables only and turns the first `n` premises into the first `n` arguments. -/
structure SolvesFirst (t : Transformation) (n : Nat) (arguments : List Formula) (s : Map) :
    Prop where
  keys : ∀ key ∈ s.keys, key ∈ t.vars.elements
  solves : (t.premises.elements.take n).map (·.substitute s) = arguments.take n

/-- The first `n` arguments hold no variables and have a solution. -/
structure FineBelow (t : Transformation) (n : Nat) (arguments : List Formula) : Prop where
  clear : ∀ a ∈ arguments.take n, t.Clear a
  solved : ∃ s, t.SolvesFirst n arguments s

variable {t : Transformation} {arguments : List Formula} {n : Nat}

/-- The bindings that the matches end with are among the pairs of every solution. -/
theorem solve_least (h : solve t.vars.elements (t.premises.elements.take n) (arguments.take n)
    .empty = .ok (some m)) {s : Map} (hs : t.SolvesFirst n arguments s) : m.pairs ⊆ s.pairs := by
  have hempty : Map.empty.pairs ⊆ s.pairs := by simp
  rw [← hs.solves] at h
  rcases solve_instance t.atomic hs.keys (t.premises.elements.take n) hempty with
    ⟨v, -, p, -, -, herror⟩ | ⟨m', hm', hsub⟩
  · rw [herror] at h
    cases h
  · rw [hm'] at h
    cases h
    exact hsub

theorem solve_solves (hlength : arguments.length = t.premises.elements.length)
    (h : solve t.vars.elements (t.premises.elements.take n) (arguments.take n) .empty =
      .ok (some m)) : t.SolvesFirst n arguments m := by
  have hkeys : Map.empty.keys ⊆ t.vars.elements := by simp
  have hbinds := solve_binds t.atomic hkeys (by simp [hlength]) h
  exact ⟨fun key hkey => hbinds.keys_subset hkeys hkey, hbinds.instantiates⟩

/-- The matches up to an index succeed exactly when nothing up to it is in the way. -/
theorem solve_take_iff (hlength : arguments.length = t.premises.elements.length) :
    (∃ m, solve t.vars.elements (t.premises.elements.take n) (arguments.take n) .empty =
      .ok (some m)) ↔ t.FineBelow n arguments := by
  constructor
  · rintro ⟨m, h⟩
    exact ⟨solve_absent (by simp [hlength]) h, m, solve_solves hlength h⟩
  · rintro ⟨hclear, s, hs⟩
    have hempty : Map.empty.pairs ⊆ s.pairs := by simp
    rw [← hs.solves] at hclear ⊢
    rcases solve_instance t.atomic hs.keys (t.premises.elements.take n) hempty with
      ⟨v, hv, p, hp, hoccurs, -⟩ | ⟨m, hm, -⟩
    · simp [hclear _ (List.mem_map_of_mem hp) v hv] at hoccurs
    · exact ⟨m, hm⟩

theorem solve_take_length (hlength : arguments.length = t.premises.elements.length) (b : Map) :
    solve t.vars.elements (t.premises.elements.take arguments.length)
      (arguments.take arguments.length) b =
        solve t.vars.elements t.premises.elements arguments b := by
  rw [List.take_length, List.take_of_length_le (Nat.le_of_eq hlength.symm)]

/-! ## Conclusions and errors -/

/-- The error for arguments that do not match the premises. -/
def mismatch (t : Transformation) (arguments : List Formula) : Error :=
  .mismatch (Sequence.mk arguments).formula t.formula

theorem apply_eq (hlength : arguments.length = t.premises.elements.length) :
    t.apply arguments =
      match solve t.vars.elements t.premises.elements arguments .empty with
      | .error e => .error (.ofFormulas e)
      | .ok none => .error (t.mismatch arguments)
      | .ok (some bindings) => .ok (t.conclusion.substitute bindings) := by
  rw [apply, if_neg (not_not.mpr hlength)]
  rfl

theorem apply_eq_ok {c : Formula} :
    t.apply arguments = .ok c ↔
      arguments.length = t.premises.elements.length ∧
        ∃ m, solve t.vars.elements t.premises.elements arguments .empty = .ok (some m) ∧
          t.conclusion.substitute m = c := by
  by_cases hlength : arguments.length = t.premises.elements.length
  · rw [apply_eq hlength]
    cases solve t.vars.elements t.premises.elements arguments .empty with
    | error e => simp
    | ok m? => cases m? <;> simp [hlength]
  · simp [apply, hlength]

/-- The bindings of the matches do to the conclusion what every solution does, if it is restricted
to the variables of the premises. -/
theorem substitute_solve {m s : Map} (hm : ∀ key, key ∈ m.keys ↔ key ∈ t.freeVariables .empty)
    (hsub : m.pairs ⊆ s.pairs) (φ : Formula) :
    φ.substitute m = φ.substitute (s.restrict (t.freeVariables .empty)) := by
  apply Formula.replace_congr
  intro χ _
  rw [Map.get?_restrict]
  by_cases hχ : χ ∈ t.freeVariables .empty
  · obtain ⟨image, himage⟩ := Option.isSome_iff_exists.mp (Map.get?_isSome.mpr ((hm χ).mpr hχ))
    rw [if_pos hχ, himage, Map.get?_mono hsub himage]
  · rw [if_neg hχ, Map.get?_eq_none]
    exact fun hkey => hχ ((hm χ).mp hkey)

/-- The matches bind the variables of the premises and nothing else. -/
theorem mem_keys_solve (hlength : arguments.length = t.premises.elements.length)
    (h : solve t.vars.elements t.premises.elements arguments .empty = .ok (some m))
    (key : Formula) : key ∈ m.keys ↔ key ∈ t.freeVariables .empty := by
  have hkeys : Map.empty.keys ⊆ t.vars.elements := by simp
  rw [(solve_binds t.atomic hkeys hlength h).keys, mem_appendNew, mem_freeVariables]
  simp [Formula.mem_preorderList, and_comm]

/-- Why a transformation draws no conclusion from the arguments, with the code of the error.  Where
the lengths agree, it is for what stands at an index below which nothing is in the way. -/
inductive Refused (t : Transformation) (arguments : List Formula) : Error → String → Prop where
  /-- There are more or fewer arguments than premises. -/
  | length (hlength : arguments.length ≠ t.premises.elements.length) :
      Refused t arguments (t.mismatch arguments) "THY-001"
  /-- A variable occurs in the argument.  The first one that does is named. -/
  | occurs {i : Nat} {a v : Formula} (hlength : arguments.length = t.premises.elements.length)
      (hfine : t.FineBelow i arguments) (ha : arguments[i]? = some a)
      (hv : t.vars.elements.find? (a.contains ·) = some v) :
      Refused t arguments (.ofFormulas (.variableOccurs v a)) "SYN-006"
  /-- No variable occurs in the argument, but there is no solution up to it. -/
  | unsolved {i : Nat} {a : Formula} (hlength : arguments.length = t.premises.elements.length)
      (hfine : t.FineBelow i arguments) (ha : arguments[i]? = some a) (hclear : t.Clear a)
      (hnone : ¬ ∃ s, t.SolvesFirst (i + 1) arguments s) :
      Refused t arguments (t.mismatch arguments) "THY-001"

/-! ## The first obstacle -/

theorem fineBelow_zero (t : Transformation) (arguments : List Formula) :
    t.FineBelow 0 arguments where
  clear := by simp
  solved := ⟨.empty, by simp, by simp⟩

/-- The matches succeed exactly when nothing at all is in the way. -/
theorem solve_iff (hlength : arguments.length = t.premises.elements.length) :
    (∃ m, solve t.vars.elements t.premises.elements arguments .empty = .ok (some m)) ↔
      t.FineBelow arguments.length arguments := by
  rw [← solve_take_iff hlength, solve_take_length hlength]

/-- If something is in the way, there is a first index at which something is. -/
theorem exists_first_obstacle (h : ¬ t.FineBelow arguments.length arguments) :
    ∃ i a, arguments[i]? = some a ∧ t.FineBelow i arguments ∧ ¬ t.FineBelow (i + 1) arguments := by
  classical
  have hexists : ∃ n, ¬ t.FineBelow n arguments := ⟨_, h⟩
  have hpos : Nat.find hexists ≠ 0 := fun hzero =>
    Nat.find_spec hexists (hzero ▸ t.fineBelow_zero arguments)
  obtain ⟨i, hi⟩ := Nat.exists_eq_succ_of_ne_zero hpos
  have hlt : i < arguments.length := by
    have hle : Nat.find hexists ≤ arguments.length := Nat.find_min' hexists h
    omega
  refine ⟨i, arguments[i], List.getElem?_eq_getElem hlt, ?_, ?_⟩
  · exact not_not.mp (Nat.find_min hexists (by omega))
  · exact Nat.succ_eq_add_one i ▸ hi ▸ Nat.find_spec hexists

/-- Where nothing below an index is in the way, the match at the index decides how it goes on, both
with all premises and with those up to the index. -/
theorem exists_match_at (hlength : arguments.length = t.premises.elements.length) {i : Nat}
    {a : Formula} (ha : arguments[i]? = some a) (hfine : t.FineBelow i arguments) :
    ∃ p b, b.keys ⊆ t.vars.elements ∧
      (solve t.vars.elements t.premises.elements arguments .empty =
        a.matchPattern p t.vars.elements b >>= fun b? =>
          match b? with
          | some b' => solve t.vars.elements (t.premises.elements.drop (i + 1))
              (arguments.drop (i + 1)) b'
          | none => .ok none) ∧
      ∀ b', a.matchPattern p t.vars.elements b = .ok (some b') →
        t.FineBelow (i + 1) arguments := by
  obtain ⟨b, hb⟩ := (solve_take_iff hlength).mpr hfine
  obtain ⟨hlt, rfl⟩ := List.getElem?_eq_some_iff.mp ha
  have hlt' : i < t.premises.elements.length := hlength ▸ hlt
  have htake : (arguments.take i).length = (t.premises.elements.take i).length := by simp [hlength]
  refine ⟨t.premises.elements[i], b, fun key hkey => (solve_solves hlength hb).keys key hkey, ?_,
    fun b' hb' => ?_⟩
  · have hsplit := solve_append htake hb (t.premises.elements.drop i) (arguments.drop i)
    rwa [List.take_append_drop, List.take_append_drop, List.drop_eq_getElem_cons hlt',
      List.drop_eq_getElem_cons hlt, solve_cons] at hsplit
  · refine (solve_take_iff hlength).mp ⟨b', ?_⟩
    rw [List.take_succ_eq_append_getElem hlt', List.take_succ_eq_append_getElem hlt,
      solve_append htake hb, solve_cons, hb']
    rfl

theorem apply_of_refused {e : Error} {code : String} (h : t.Refused arguments e code) :
    t.apply arguments = .error e ∧ e.code = code := by
  cases h with
  | length hlength => exact ⟨by simp [apply, hlength, mismatch], rfl⟩
  | @occurs i a v hlength hfine ha hv =>
    obtain ⟨p, b, hb, hsolve, -⟩ := exists_match_at hlength ha hfine
    have herror : a.matchPattern p t.vars.elements b = .error (.variableOccurs v a) :=
      (Formula.matchPattern_eq_error_iff_of_atomic t.atomic hb).mpr ⟨v, hv, rfl⟩
    rw [apply_eq hlength, hsolve, herror]
    exact ⟨rfl, rfl⟩
  | @unsolved i a hlength hfine ha hclear hnone =>
    obtain ⟨p, b, hb, hsolve, hnext⟩ := exists_match_at hlength ha hfine
    -- A match would give a solution up to the index, and an error needs a variable.
    obtain ⟨result, hmatch⟩ := Formula.exists_matchPattern_eq_ok p
      (fun v hv => ⟨t.atomic v hv, hclear v hv⟩) hb
    cases result with
    | some b' => exact absurd (hnext b' hmatch).solved hnone
    | none =>
      rw [apply_eq hlength, hsolve, hmatch]
      exact ⟨rfl, rfl⟩

/-- If no conclusion is drawn, something is in the way. -/
theorem exists_refused (h : ∀ c, t.apply arguments ≠ .ok c) :
    ∃ e code, t.Refused arguments e code := by
  by_cases hlength : arguments.length = t.premises.elements.length
  · have hnot : ¬ t.FineBelow arguments.length arguments := by
      intro hfine
      obtain ⟨m, hm⟩ := (solve_iff hlength).mpr hfine
      exact h _ (apply_eq_ok.mpr ⟨hlength, m, hm, rfl⟩)
    obtain ⟨i, a, ha, hfine, hnext⟩ := exists_first_obstacle hnot
    cases hv : t.vars.elements.find? (a.contains ·) with
    | some v => exact ⟨_, _, .occurs hlength hfine ha hv⟩
    | none =>
      have hclear : t.Clear a := by simpa [Clear] using hv
      refine ⟨_, _, .unsolved hlength hfine ha hclear fun hsolved => hnext ⟨?_, hsolved⟩⟩
      rw [List.take_add_one, ha]
      simpa [or_imp, forall_and] using ⟨hfine.clear, hclear⟩
  · exact ⟨_, _, .length hlength⟩

/-- Applying a transformation solves all of its premises at once.  It draws a conclusion exactly
when there are as many arguments as premises, no variable occurs in an argument, and some map of
variables turns the premises into the arguments.  The conclusion is then what every such map makes
of the transformation's conclusion, once it is restricted to the variables that occur in premises.
Otherwise the lengths differ, or the error is decided by the first index at which a variable occurs
in the argument or there is no solution of the positions up to it. -/
theorem apply_simultaneous (t : Transformation) (arguments : List Formula) :
    ((∃ c, t.apply arguments = .ok c) ↔
      arguments.length = t.premises.elements.length ∧ (∀ a ∈ arguments, t.Clear a) ∧
        ∃ s, t.SolvesFirst arguments.length arguments s) ∧
    (∀ c s, t.apply arguments = .ok c → t.SolvesFirst arguments.length arguments s →
      c = t.conclusion.substitute (s.restrict (t.freeVariables .empty))) ∧
    ∀ e, t.apply arguments = .error e ↔ t.Refused arguments e e.code := by
  refine ⟨?_, fun c s hc hs => ?_, fun e => ⟨fun he => ?_, fun h => (apply_of_refused h).1⟩⟩
  · have hok : (∃ c, t.apply arguments = .ok c) ↔
        arguments.length = t.premises.elements.length ∧
          t.FineBelow arguments.length arguments := by
      simp only [apply_eq_ok]
      constructor
      · rintro ⟨c, hlength, m, hm, -⟩
        exact ⟨hlength, (solve_iff hlength).mp ⟨m, hm⟩⟩
      · rintro ⟨hlength, hfine⟩
        obtain ⟨m, hm⟩ := (solve_iff hlength).mpr hfine
        exact ⟨_, hlength, m, hm, rfl⟩
    rw [hok]
    refine and_congr_right fun _ => ⟨fun h => ⟨by simpa using h.clear, h.solved⟩, fun h => ?_⟩
    exact ⟨by simpa using h.1, h.2⟩
  · obtain ⟨hlength, m, hm, rfl⟩ := apply_eq_ok.mp hc
    have hsub : m.pairs ⊆ s.pairs := solve_least (by rwa [solve_take_length hlength]) hs
    exact substitute_solve (mem_keys_solve hlength hm) hsub t.conclusion
  · have hno : ∀ c, t.apply arguments ≠ .ok c := by simp [he]
    obtain ⟨e', code, hrefused⟩ := exists_refused hno
    obtain ⟨he', rfl⟩ := apply_of_refused hrefused
    obtain rfl : e' = e := Except.error.inj (he'.symm.trans he)
    exact hrefused

open Propositional in
-- A variable in the second argument does not matter where the first has no solution.
example : detachment.transformation.apply [p, x] =
      .error (detachment.transformation.mismatch [p, x]) ∧
    detachment.transformation.apply [implies p q, x] =
      .error (.ofFormulas (.variableOccurs x x)) := by
  decide

end Transformation

end Deduction
