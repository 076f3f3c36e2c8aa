import Deduction.Proofs.Encoding
import Deduction.Proofs.Theories
import Deduction.Proofs.Transformations
import Deduction.Search.Levels

/-!
# What a finished search has done

A search is a chain of steps each of which may end it.  The lemmas here read such a chain backwards:
from the result of a run they say which of its steps were taken and with what results.  Proofs
about searches use them and do not look into the definitions.

At the bottom stands `Theory.derive_eq_ok`, which says what deriving one theorem by hand does.  On
top of it, `Search.applyRules_eq_some` says what a rule that leads to the target has done: its
premises were settled in some theory, and a theorem that cites them was appended to that theory.
-/

namespace Deduction

namespace Run

variable {α β : Type}

/-! ## Runs -/

theorem bind_eq_ok {r : Run α} {f : α → Run β} {b : β} :
    (r >>= f).result = .ok b ↔ ∃ a, r.result = .ok a ∧ (f a).result = .ok b := by
  rw [result_bind]
  cases r.result <;> simp [bind, Except.bind]

/-- A run over a list stops, with a value or an error, at an element before which nothing is
found. -/
theorem firstSome_stops {f : α → Run (Option β)} {xs : List α} {stop : Except Error (Option β)}
    (hstop : stop ≠ .ok none) (h : (firstSome f xs).result = stop) :
    ∃ front x back, xs = front ++ x :: back ∧ (∀ y ∈ front, (f y).result = .ok none) ∧
      (f x).result = stop := by
  induction xs with
  | nil => exact absurd h.symm hstop
  | cons x xs ih =>
    rw [firstSome, result_bind] at h
    cases hx : (f x).result with
    | error e =>
      rw [hx] at h
      exact ⟨[], x, xs, rfl, by simp, hx.trans h⟩
    | ok found? =>
      rw [hx] at h
      cases found? with
      | some b => exact ⟨[], x, xs, rfl, by simp, hx.trans h⟩
      | none =>
        obtain ⟨front, y, back, rfl, hfront, hy⟩ := ih h
        exact ⟨x :: front, y, back, rfl, by simpa [hx] using hfront, hy⟩

/-- Over an increasing list, it stops at the least element at which something is found. -/
theorem firstSome_least [LT α] {f : α → Run (Option β)} {xs : List α}
    {stop : Except Error (Option β)} (hxs : xs.Pairwise (· < ·)) (hstop : stop ≠ .ok none)
    (h : (firstSome f xs).result = stop) :
    ∃ x ∈ xs, (f x).result = stop ∧ ∀ y ∈ xs, y = x ∨ x < y ∨ (f y).result = .ok none := by
  obtain ⟨front, x, back, rfl, hfront, hx⟩ := firstSome_stops hstop h
  obtain ⟨-, hback, -⟩ := List.pairwise_append.mp hxs
  refine ⟨x, by simp, hx, fun y hy => ?_⟩
  rcases List.mem_append.mp hy with hy | hy
  · exact .inr (.inr (hfront y hy))
  · rcases List.mem_cons.mp hy with rfl | hy
    · exact .inl rfl
    · exact .inr (.inl ((List.pairwise_cons.mp hback).1 y hy))

theorem firstSome_eq_none {f : α → Run (Option β)} {xs : List α} :
    (firstSome f xs).result = .ok none ↔ ∀ x ∈ xs, (f x).result = .ok none := by
  induction xs with
  | nil => simp [firstSome]
  | cons x xs ih =>
    rw [firstSome, bind_eq_ok, List.forall_mem_cons, ← ih]
    constructor
    · rintro ⟨found?, hx, h⟩
      cases found? with
      | some b => simp at h
      | none => exact ⟨hx, h⟩
    · rintro ⟨hx, h⟩
      exact ⟨none, hx, h⟩

theorem result_firstSome_singleton (f : α → Run (Option β)) (x : α) :
    (firstSome f [x]).result = (f x).result := by
  rw [firstSome, result_bind]
  cases (f x).result with
  | error e => rfl
  | ok found? => cases found? <;> rfl

theorem firstSome_map {γ : Type} (f : β → Run (Option γ)) (g : α → β) (xs : List α) :
    firstSome f (xs.map g) = firstSome (fun x => f (g x)) xs := by
  induction xs with
  | nil => rfl
  | cons x xs ih =>
    rw [List.map_cons, firstSome, firstSome, ih]

theorem exists_of_firstSome_eq_some {f : α → Run (Option β)} {xs : List α} {b : β}
    (h : (firstSome f xs).result = .ok (some b)) : ∃ x ∈ xs, (f x).result = .ok (some b) := by
  obtain ⟨front, x, back, rfl, -, hx⟩ := firstSome_stops (by simp) h
  exact ⟨x, by simp, hx⟩

end Run

/-! ## Deriving by hand -/

theorem Theory.derive_of_find {T : Theory} {conjecture : Formula} {premises : Sequence}
    {rule : InferenceRule} {p : Formula}
    (h : premises.elements.find? (fun q => ¬ T.IsValid q) = some p) :
    (T.derive conjecture premises rule).result = .error (.premiseNotValid p) := by
  rw [Theory.derive, h]
  rfl

/-- From valid premises the theorem is made first and then appended. -/
theorem Theory.derive_result {T : Theory} {conjecture : Formula} {premises : Sequence}
    {rule : InferenceRule} (hvalid : ∀ p ∈ premises.elements, T.IsValid p) :
    (T.derive conjecture premises rule).result =
      Theorem.ofInference conjecture ⟨rule, premises⟩ >>= fun t =>
        T.extend [.proved t] >>= fun T' => .ok (T', t) := by
  have hnone : premises.elements.find? (fun q => ¬ T.IsValid q) = none := by simpa using hvalid
  rw [Theory.derive, hnone]
  cases Theorem.ofInference conjecture ⟨rule, premises⟩ with
  | error e => rfl
  | ok t =>
    simp only [Run.result_bind]
    rfl

/-- Deriving by hand succeeds exactly when the premises are valid, the rule leads from them to the
conjecture, and the theory can be followed by the theorem. -/
theorem Theory.derive_eq_ok {T T' : Theory} {conjecture : Formula} {premises : Sequence}
    {rule : InferenceRule} {t : Theorem} :
    (T.derive conjecture premises rule).result = .ok (T', t) ↔
      (∀ p ∈ premises.elements, T.IsValid p) ∧ t.statement = conjecture ∧
        t.inference = ⟨rule, premises⟩ ∧
        T'.derivations = appendNew T.derivations [.proved t] := by
  cases hp : premises.elements.find? fun p => ¬ T.IsValid p with
  | some p =>
    have hmem : p ∈ premises.elements := List.mem_of_find?_eq_some hp
    have hnot : ¬ T.IsValid p := by simpa using List.find?_some hp
    simp only [derive_of_find hp, reduceCtorEq, false_iff, not_and]
    exact fun h => absurd (h p hmem) hnot
  | none =>
    have hvalid : ∀ p ∈ premises.elements, T.IsValid p := by simpa using hp
    simp only [derive_result hvalid, except_bind_eq_ok, Theorem.ofInference_eq_ok,
      Theory.extend_eq_ok]
    constructor
    · rintro ⟨u, ⟨hstatement, hinference⟩, S, hS, h⟩
      obtain ⟨rfl, rfl⟩ : S = T' ∧ u = t := by simpa using h
      exact ⟨hvalid, hstatement, hinference, hS⟩
    · rintro ⟨-, hstatement, hinference, hT'⟩
      exact ⟨t, ⟨hstatement, hinference⟩, T', hT', rfl⟩

/-- Deriving by hand succeeds when the premises are valid, the rule is there and it leads to the
conjecture. -/
theorem Theory.derive_of_valid {T : Theory} {conjecture : Formula} {premises : Sequence}
    {rule : InferenceRule} (hpremises : ∀ p ∈ premises.elements, T.IsValid p)
    (hrule : .rule rule ∈ T.derivations)
    (happly : rule.transformation.apply premises.elements = .ok conjecture) :
    ∃ T' t, (T.derive conjecture premises rule).result = .ok (T', t) := by
  let t : Theorem := ⟨conjecture, ⟨rule, premises⟩, happly⟩
  have hcites : ∀ u, Derivation.proved t = .proved u → Cites T.derivations u := by
    rintro u ⟨rfl⟩
    exact ⟨fun p hp => Theory.isValid_iff.mp (hpremises p hp), hrule⟩
  exact ⟨⟨_, T.accepted.append_one hcites⟩, t,
    Theory.derive_eq_ok.mpr ⟨hpremises, rfl, rfl, rfl⟩⟩

/-! ## Rules -/

namespace Search

variable {settle : List Formula → Run (Option Theory)} {T : Theory} {target : Formula}
  {rule : InferenceRule} {o : Outcome}

/-- The target was derived: the premises of the theorem `t` were settled in the theory `W`, and `t`,
which states the target, was appended to it. -/
structure Derived (settle : List Formula → Run (Option Theory)) (target : Formula) (o : Outcome)
    (W : Theory) (t : Theorem) : Prop where
  settled : (settle t.inference.premises.elements).result = .ok (some W)
  statement : t.statement = target
  derivations : o.theory.derivations = appendNew W.derivations [.proved t]
  found : o = .found o.theory (.proved t)

/-- The premises of the theorem are what its rule needs for the target, with statements of the
theory for the variables that the target leaves free. -/
def Instantiates (T : Theory) (target : Formula) (t : Theorem) : Prop :=
  ∃ m, t.inference.rule.transformation.Completes target T.validStatements m ∧
    t.inference.premises = t.inference.rule.transformation.necessaryPremises m

theorem tryCandidate_eq_some {bindings : Map}
    (h : (tryCandidate settle target rule bindings).result = .ok (some o)) :
    ∃ W t, Derived settle target o W t ∧
      t.inference = ⟨rule, rule.transformation.necessaryPremises bindings⟩ := by
  obtain ⟨⟨⟩, -, h⟩ := Run.bind_eq_ok.mp h
  obtain ⟨conclusion, -, h⟩ := Run.bind_eq_ok.mp h
  split at h
  · simp at h
  · obtain ⟨settled?, hsettled, h⟩ := Run.bind_eq_ok.mp h
    cases settled? with
    | none => simp at h
    | some W =>
      obtain ⟨⟨T', t⟩, hderive, h⟩ := Run.bind_eq_ok.mp h
      obtain rfl : Outcome.found T' (.proved t) = o := by simpa using h
      obtain ⟨-, hstatement, hinference, hT'⟩ := Theory.derive_eq_ok.mp hderive
      exact ⟨W, t, {
        settled := by rw [hinference]; exact hsettled
        statement := hstatement
        derivations := hT'
        found := rfl }, hinference⟩

theorem applyRule_eq_some (h : (applyRule settle T target rule).result = .ok (some o)) :
    ∃ W t, Derived settle target o W t ∧ Instantiates T target t := by
  obtain ⟨bindings?, hmatch, h⟩ := Run.bind_eq_ok.mp h
  cases bindings? with
  | none => simp at h
  | some bindings =>
    simp only [firstAssignment_eq_firstSome] at h
    obtain ⟨complete, hcomplete, h⟩ := Run.exists_of_firstSome_eq_some h
    obtain ⟨W, t, ht, hinference⟩ := tryCandidate_eq_some h
    refine ⟨W, t, ht, complete, ?_, by rw [hinference]⟩
    rw [hinference]
    exact ⟨bindings, lift_eq_ok.mp hmatch, hcomplete⟩

theorem applyRules_eq_some (h : (applyRules settle T target).result = .ok (some o)) :
    ∃ W t, Derived settle target o W t ∧ Instantiates T target t := by
  obtain ⟨rule, -, h⟩ := Run.exists_of_firstSome_eq_some h
  exact applyRule_eq_some h

theorem settled_eq_some {premises : List Formula} {W : Theory} :
    (settled T premises).result = .ok (some W) ↔ W = T ∧ ∀ p ∈ premises, T.IsValid p := by
  rw [settled, Run.result_pure, Except.ok.injEq]
  have hall : premises.all (T.IsValid ·) = true ↔ ∀ p ∈ premises, T.IsValid p := by simp
  rw [← hall]
  split
  next h => simp [h, eq_comm]
  next h => simp [h]

/-! ## Searches -/

theorem lookUp_cases {found? : Option Outcome} (h : (lookUp T target).result = .ok found?) :
    (∃ d, T.justification? target = some d ∧ found? = some (.found T d)) ∨
      (¬ T.IsValid target ∧ found? = none) := by
  unfold lookUp at h
  cases hd : T.justification? target with
  | some d =>
    rw [hd] at h
    obtain ⟨⟨⟩, -, h⟩ := Run.bind_eq_ok.mp h
    exact .inl ⟨d, rfl, (Except.ok.inj h).symm⟩
  | none =>
    rw [hd] at h
    exact .inr ⟨Theory.justification?_eq_none.mp hd, (Except.ok.inj h).symm⟩

/-- A search ends in one of three ways: the target is valid already, it is derived with premises
settled in one of the given ways, or nothing is found. -/
inductive Ends (settles : List (List Formula → Run (Option Theory))) (T : Theory)
    (target : Formula) : Outcome → Prop where
  | valid {d : Derivation} (hd : T.justification? target = some d) :
      Ends settles T target (.found T d)
  | derived {settle : List Formula → Run (Option Theory)} {o : Outcome} {W : Theory} {t : Theorem}
      (hnew : ¬ T.IsValid target) (hsettle : settle ∈ settles)
      (h : Derived settle target o W t) (hinstance : Instantiates T target t) :
      Ends settles T target o
  | failed : Ends settles T target (.failure T)

/-- A search that looks the target up first ends with what it finds there, or in the way in which it
goes on. -/
theorem ends_lookUp {settles : List (List Formula → Run (Option Theory))} {next : Run Outcome}
    (hnext : ¬ T.IsValid target → next.result = .ok o → Ends settles T target o)
    (h : ((lookUp T target).orElse next).result = .ok o) : Ends settles T target o := by
  obtain ⟨found?, hfound, h⟩ := Run.bind_eq_ok.mp h
  rcases lookUp_cases hfound with ⟨d, hd, rfl⟩ | ⟨hnew, rfl⟩
  · obtain rfl := Except.ok.inj h
    exact .valid hd
  · exact hnext hnew h

/-- A search that tries rules ends with what they derive, or in the way in which it goes on. -/
theorem ends_attempt {settles : List (List Formula → Run (Option Theory))}
    {attempt : Run (Option Outcome)} {next : Run Outcome} (hnew : ¬ T.IsValid target)
    (hsettle : settle ∈ settles)
    (hattempt : ∀ {o}, attempt.result = .ok (some o) →
      ∃ W t, Derived settle target o W t ∧ Instantiates T target t)
    (hnext : next.result = .ok o → Ends settles T target o)
    (h : (attempt.orElse next).result = .ok o) : Ends settles T target o := by
  obtain ⟨derived?, hderived, h⟩ := Run.bind_eq_ok.mp h
  cases derived? with
  | some outcome =>
    obtain rfl := Except.ok.inj h
    obtain ⟨W, t, ht, hinstance⟩ := hattempt hderived
    exact .derived hnew hsettle ht hinstance
  | none => exact hnext h

theorem ends_fail {settles : List (List Formula → Run (Option Theory))}
    {rule? : Option InferenceRule} (h : (fail T rule?).result = .ok o) :
    Ends settles T target o := by
  obtain rfl := Except.ok.inj h
  exact .failed

theorem exists_ok_of_success {run : Run Outcome} {success : Bool}
    (h : run.result.toOption.map (·.success) = some success) :
    ∃ o, run.result = .ok o ∧ o.success = success := by
  cases hrun : run.result with
  | error e => simp [hrun, Except.toOption] at h
  | ok o => exact ⟨o, rfl, by simpa [hrun, Except.toOption] using h⟩

theorem exact_ends (h : (exact T target).result = .ok o) : Ends [] T target o := by
  unfold exact at h
  exact ends_lookUp (fun _ => ends_fail) h

theorem singleLevel_ends (h : (singleLevel T target).result = .ok o) :
    Ends [settled T] T target o := by
  unfold singleLevel at h
  refine ends_lookUp (fun hnew => ?_) h
  exact ends_attempt hnew (by simp) applyRules_eq_some ends_fail

theorem withRule_ends (h : (withRule T target rule).result = .ok o) :
    Ends [settled T] T target o := by
  unfold withRule at h
  rw [Run.result_within] at h
  split at h
  · refine ends_lookUp (fun hnew => ?_) h
    exact ends_attempt hnew (by simp) applyRule_eq_some ends_fail
  · exact ends_fail h

theorem level_ends {depth : Nat} {deeper? : Option (List Formula → Run (Option Theory))}
    (h : (level depth deeper? T target).result = .ok o) :
    Ends (settled T :: deeper?.toList) T target o := by
  unfold level at h
  refine ends_lookUp (fun hnew => ?_) h
  refine ends_attempt hnew (by simp) applyRules_eq_some (fun h => ?_)
  cases deeper? with
  | none =>
    obtain ⟨⟨⟩, -, h⟩ := Run.bind_eq_ok.mp h
    exact ends_fail h
  | some settle => exact ends_attempt hnew (by simp) applyRules_eq_some ends_fail h

end Search

end Deduction
