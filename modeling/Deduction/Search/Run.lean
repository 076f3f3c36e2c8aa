import Deduction.Theory.Basic

/-!
# Runs

Deriving and searching report what they do.  A `Run` is a result together with the signals that
were sent on the way to it, which are there also when the result is an error.  A signal enters or
leaves a call of a search, or notes an event; the calls that are open when an event is noted are
the searches that it happened in, innermost last.
-/

namespace Deduction

/-- A call of a search: what is searched for, where, and how many levels deep. -/
structure Call where
  /-- The theory that is searched. -/
  theory : Theory
  /-- The statement that is searched for. -/
  target : Formula
  /-- The number of levels that the call may use. -/
  depth : Nat
deriving DecidableEq

/-- Something worth noting in a derivation or a search. -/
inductive Event where
  /-- The target is already a valid statement. -/
  | exact (justification : Derivation)
  /-- The rule concludes the target, from these premises. -/
  | candidate (rule : InferenceRule) (premises : Sequence)
  /-- A theorem is derived. -/
  | derived (t : Theorem)
  /-- A derivation is appended to a theory. -/
  | extended (d : Derivation)
  /-- The search for the target failed, perhaps with one rule only. -/
  | failed (rule? : Option InferenceRule)
  /-- No levels are left. -/
  | exhausted
deriving DecidableEq

/-- A report sent in the course of a run. -/
inductive Signal where
  /-- A call starts. -/
  | enter (call : Call)
  /-- The call that started last ends. -/
  | leave
  /-- An event is noted. -/
  | note (event : Event)
deriving DecidableEq

/-- A result and the signals that were sent on the way to it. -/
@[ext] structure Run (α : Type) where
  /-- What the run comes to. -/
  result : Except Error α
  /-- The signals in the order in which they were sent. -/
  signals : List Signal

namespace Run

variable {α β : Type}

/-- Goes on with the value of a run unless it is an error.  The signals add up. -/
def andThen (r : Run α) (f : α → Run β) : Run β :=
  match r.result with
  | .error e => ⟨.error e, r.signals⟩
  | .ok a =>
    let s := f a
    ⟨s.result, r.signals ++ s.signals⟩

instance : Monad Run where
  pure a := ⟨.ok a, []⟩
  bind := andThen

@[simp] theorem result_pure (a : α) : (pure a : Run α).result = .ok a := rfl

@[simp] theorem signals_pure (a : α) : (pure a : Run α).signals = [] := rfl

@[simp] theorem result_bind (r : Run α) (f : α → Run β) :
    (r >>= f).result = r.result >>= fun a => (f a).result := by
  change (andThen r f).result = _
  rw [andThen]
  cases r.result <;> rfl

theorem signals_bind (r : Run α) (f : α → Run β) :
    (r >>= f).signals = r.signals ++
      match r.result with
      | .error _ => []
      | .ok a => (f a).signals := by
  change (andThen r f).signals = _
  rw [andThen]
  cases r.result <;> simp

theorem map_id (r : Run α) : id <$> r = r := by
  obtain ⟨result, signals⟩ := r
  cases result <;> simp [Functor.map, andThen]

theorem bind_bind {γ : Type} (r : Run α) (f : α → Run β) (g : β → Run γ) :
    r >>= f >>= g = r >>= fun a => f a >>= g := by
  change andThen (andThen r f) g = andThen r fun a => andThen (f a) g
  obtain ⟨result, signals⟩ := r
  cases result with
  | error e => rfl
  | ok a =>
    simp only [andThen]
    cases (f a).result <;> simp

instance : LawfulMonad Run := LawfulMonad.mk' Run map_id (fun _ _ => rfl) bind_bind

/-- A result without signals. -/
def ofResult (result : Except Error α) : Run α := ⟨result, []⟩

instance : MonadLift (Except Error) Run where
  monadLift := ofResult

/-- Notes an event. -/
def note (e : Event) : Run Unit := ⟨.ok (), [.note e]⟩

/-- Encloses a run in a call. -/
def within (call : Call) (r : Run α) : Run α :=
  ⟨r.result, .enter call :: r.signals ++ [.leave]⟩

@[simp] theorem result_note (e : Event) : (note e).result = .ok () := rfl

@[simp] theorem result_within (call : Call) (r : Run α) : (within call r).result = r.result := rfl

/-- The value that an attempt finds, or else what the next run comes to.  The next run is not
computed before it is needed. -/
@[macro_inline] def orElse (attempt : Run (Option α)) (next : Run α) : Run α := do
  match ← attempt with
  | some a => return a
  | none => next

/-- The first value that `f` finds for an element of a list, in order. -/
def firstSome (f : α → Run (Option β)) : List α → Run (Option β)
  | [] => pure none
  | a :: as => do
    match ← f a with
    | some b => return some b
    | none => firstSome f as

end Run

end Deduction
