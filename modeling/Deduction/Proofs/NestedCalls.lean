import Mathlib.Data.List.Nodup
import Deduction.Proofs.Propositional
import Deduction.Search.Levels

/-!
# Nested calls of the recursive search

The recursive search calls itself for premises that are not valid yet.  At each moment of a run some
calls are open, each inside of the one before it, and these form a chain that starts with the search
for the target itself.  A run tries and drops many such chains.  What is excluded and how many
levels are left is handed down a chain, while the theory is handed from one premise to the next.

`Search.recursive_descends` says what holds of all chains.  No two calls on a chain are after the
same statement, the levels go down by one from call to call, so a chain is no longer than the search
is deep, and a premise is searched for only in a theory in which it is not valid.

A moment of a run is a front part of its signals, and `openCalls` are the calls that are open after
it.  That signals are nested, with a condition on the chains (`Nests`), is shown of each function
from the functions that it calls; `Search.step_nests` then goes by induction on the levels.
-/

namespace Deduction

/-! ## Open calls -/

/-- The calls that are open after the signals, the outermost first, if those of `stack` are open
before. -/
def openCalls : (stack : List Call) → List Signal → List Call
  | stack, [] => stack
  | stack, .enter call :: rest => openCalls (stack ++ [call]) rest
  | stack, .leave :: rest => openCalls stack.dropLast rest
  | stack, .note _ :: rest => openCalls stack rest

theorem openCalls_append (stack : List Call) (signals signals' : List Signal) :
    openCalls stack (signals ++ signals') = openCalls (openCalls stack signals) signals' := by
  fun_induction openCalls stack signals with
  | case1 => rfl
  | case2 stack call rest ih => exact ih
  | case3 stack rest ih => exact ih
  | case4 stack e rest ih => exact ih

/-- The calls are left in the opposite order in which they are entered, and at each moment those
that are open, beyond the ones that were before, form a chain that meets `P`. -/
structure Nests (P : List Call → Prop) (signals : List Signal) : Prop where
  closed : ∀ stack, openCalls stack signals = stack
  chain : ∀ stack front, front <+: signals →
    ∃ inner, openCalls stack front = stack ++ inner ∧ P inner

/-- No call is open, or the call is and the ones inside of it form a chain that meets `P`. -/
def Call.Encloses (call : Call) (P : List Call → Prop) (chain : List Call) : Prop :=
  chain = [] ∨ ∃ inner, chain = call :: inner ∧ P inner

namespace Nests

variable {P Q : List Call → Prop} {signals signals' : List Signal}

theorem nil (hP : P []) : Nests P [] where
  closed _ := rfl
  chain stack front hfront := by
    obtain rfl : front = [] := List.prefix_nil.mp hfront
    exact ⟨[], by simp [openCalls], hP⟩

theorem mono (h : Nests P signals) (hPQ : ∀ inner, P inner → Q inner) : Nests Q signals where
  closed := h.closed
  chain stack front hfront := by
    obtain ⟨inner, hopen, hinner⟩ := h.chain stack front hfront
    exact ⟨inner, hopen, hPQ inner hinner⟩

theorem append (h : Nests P signals) (h' : Nests P signals') : Nests P (signals ++ signals') where
  closed stack := by rw [openCalls_append, h.closed, h'.closed]
  chain stack front hfront := by
    obtain ⟨back, hback⟩ := hfront
    -- The moment lies in the first part, or after it and in the second.
    rcases List.append_eq_append_iff.mp hback with ⟨rest, hrest, -⟩ | ⟨front', rfl, hrest⟩
    · exact h.chain stack front ⟨rest, hrest.symm⟩
    · have hfront' : front' <+: signals' := ⟨back, hrest.symm⟩
      rw [openCalls_append, h.closed]
      exact h'.chain stack front' hfront'

theorem note (hP : P []) (e : Event) : Nests P [.note e] where
  closed _ := rfl
  chain stack front hfront := by
    refine ⟨[], ?_, hP⟩
    obtain rfl | ⟨rest, rfl, hrest⟩ := List.prefix_cons_iff.mp hfront
    · simp [openCalls]
    · simp [openCalls, List.prefix_nil.mp hrest]

theorem enclose (h : Nests P signals) (call : Call) :
    Nests (call.Encloses P) (.enter call :: signals ++ [.leave]) where
  closed stack := by simp [openCalls, openCalls_append, h.closed]
  chain stack front hfront := by
    obtain rfl | hfront := List.prefix_concat_iff.mp hfront
    · exact ⟨[], by simp [openCalls, openCalls_append, h.closed], .inl rfl⟩
    obtain rfl | ⟨front', rfl, hfront'⟩ := List.prefix_cons_iff.mp hfront
    · exact ⟨[], by simp [openCalls], .inl rfl⟩
    · obtain ⟨inner, hopen, hinner⟩ := h.chain (stack ++ [call]) front' hfront'
      exact ⟨call :: inner, by simpa [openCalls] using hopen, .inr ⟨inner, rfl, hinner⟩⟩

variable {α β : Type} {r : Run α}

theorem lift (hP : P []) (x : Except Error α) : Nests P (liftM x : Run α).signals := nil hP

theorem bind {f : α → Run β} (h : Nests P r.signals) (hf : ∀ a, Nests P (f a).signals) :
    Nests P (r >>= f).signals := by
  rw [Run.signals_bind]
  cases r.result with
  | error e => simpa using h
  | ok a => exact h.append (hf a)

theorem firstSome (hP : P []) {f : α → Run (Option β)} (hf : ∀ a, Nests P (f a).signals)
    (as : List α) : Nests P (Run.firstSome f as).signals := by
  induction as with
  | nil => exact nil hP
  | cons a as ih =>
    refine (hf a).bind fun b? => ?_
    cases b? with
    | some b => exact nil hP
    | none => exact ih

end Nests

theorem Theory.derive_nests {P : List Call → Prop} (hP : P []) (T : Theory) (conjecture : Formula)
    (premises : Sequence) (rule : InferenceRule) :
    Nests P (T.derive conjecture premises rule).signals := by
  have hextending (ds : List Derivation) : Nests P (T.extending ds).signals := by
    change Nests P ((T.newIn ds).map fun d => .note (.extended d))
    induction T.newIn ds with
    | nil => exact .nil hP
    | cons d ds ih => exact (Nests.note hP (.extended d)).append ih
  unfold Theory.derive
  split
  · exact .nil hP
  · refine (Nests.lift hP _).bind fun t => (hextending _).bind fun T' => ?_
    have hnote : Nests P (Run.note (.derived t)).signals := .note hP _
    exact hnote.bind fun _ => .nil hP

namespace Search

variable {P : List Call → Prop} {settle : List Formula → Run (Option Theory)}

/-! ## One level -/

theorem fail_nests (hP : P []) (T : Theory) (rule? : Option InferenceRule) :
    Nests P (fail T rule?).signals :=
  (Nests.note hP _).bind fun _ => .nil hP

theorem lookUp_nests (hP : P []) (T : Theory) (target : Formula) :
    Nests P (lookUp T target).signals := by
  unfold lookUp
  split
  · exact (Nests.note hP _).bind fun _ => .nil hP
  · exact .nil hP

theorem tryCandidate_nests (hP : P []) (hsettle : ∀ premises, Nests P (settle premises).signals)
    (target : Formula) (rule : InferenceRule) (m : Map) :
    Nests P (tryCandidate settle target rule m).signals := by
  refine (Nests.note hP _).bind fun _ => (Nests.lift hP _).bind fun conclusion => ?_
  split
  · exact .nil hP
  · refine (hsettle _).bind fun W? => ?_
    cases W? with
    | none => exact .nil hP
    | some W => exact (W.derive_nests hP _ _ _).bind fun _ => .nil hP

theorem applyRules_nests (hP : P []) (hsettle : ∀ premises, Nests P (settle premises).signals)
    (T : Theory) (target : Formula) : Nests P (applyRules settle T target).signals := by
  refine Nests.firstSome hP (fun rule => ?_) T.rules
  refine (Nests.lift hP _).bind fun b? => ?_
  cases b? with
  | none => exact .nil hP
  | some b =>
    simp only [firstAssignment_eq_firstSome]
    exact Nests.firstSome hP (tryCandidate_nests hP hsettle target rule) _

/-- A search that goes on when an attempt finds nothing. -/
theorem orElse_nests (hP : P []) {attempt : Run (Option Outcome)} {next : Run Outcome}
    (h : Nests P attempt.signals) (hnext : Nests P next.signals) :
    Nests P (attempt.orElse next).signals := by
  refine h.bind fun o? => ?_
  cases o? with
  | some o => exact .nil hP
  | none => exact hnext

theorem level_nests (hP : P []) {deeper? : Option (List Formula → Run (Option Theory))}
    (hdeeper : ∀ settle ∈ deeper?, ∀ premises, Nests P (settle premises).signals) (depth : Nat)
    (T : Theory) (target : Formula) :
    Nests (Call.Encloses ⟨T, target, depth⟩ P) (level depth deeper? T target).signals := by
  have hsettled (premises : List Formula) : Nests P (settled T premises).signals := .nil hP
  have hrules := applyRules_nests hP hsettled T target
  refine Nests.enclose (orElse_nests hP (lookUp_nests hP T target) (orElse_nests hP hrules ?_)) _
  cases deeper? with
  | none => exact (Nests.note hP .exhausted).bind fun _ => fail_nests hP T none
  | some settle =>
    exact orElse_nests hP (applyRules_nests hP (hdeeper settle rfl) T target) (fail_nests hP T none)

/-! ## Chains of the recursive search -/

/-- A chain of calls inside of searches for the excluded statements, the first of which has `depth`
levels: each call is after a statement that is neither excluded nor valid in its theory, and what it
is after is excluded from then on. -/
inductive Descends : (excluded : List Formula) → (depth : Nat) → List Call → Prop
  | nil {excluded : List Formula} {depth : Nat} : Descends excluded depth []
  | cons {excluded : List Formula} {depth : Nat} {T : Theory} {target : Formula}
      {inner : List Call} (fresh : target ∉ excluded) (unproved : ¬ T.IsValid target)
      (below : Descends (excluded ++ [target]) depth inner) :
      Descends excluded (depth + 1) (⟨T, target, depth + 1⟩ :: inner)

namespace Descends

variable {excluded : List Formula} {depth : Nat} {chain : List Call}

theorem nodup (h : Descends excluded depth chain) (hexcluded : excluded.Nodup) :
    (excluded ++ chain.map (·.target)).Nodup := by
  induction h with
  | nil => simpa using hexcluded
  | @cons excluded _ _ target _ fresh _ _ ih =>
    have hextended : (excluded ++ [target]).Nodup := by
      rw [← List.concat_eq_append, List.nodup_concat]
      exact ⟨fresh, hexcluded⟩
    simpa using ih hextended

theorem length_le (h : Descends excluded depth chain) : chain.length ≤ depth := by
  induction h with
  | nil => exact Nat.zero_le _
  | cons _ _ _ ih => exact Nat.succ_le_succ ih

theorem depth_eq (h : Descends excluded depth chain) {k : Nat} {call : Call}
    (hk : chain[k]? = some call) : call.depth = depth - k := by
  induction h generalizing k with
  | nil => simp at hk
  | cons _ _ _ ih =>
    cases k with
    | zero =>
      obtain rfl := by simpa using hk
      rfl
    | succ k =>
      rw [ih (by simpa using hk)]
      omega

theorem not_isValid (h : Descends excluded depth chain) {call : Call} (hcall : call ∈ chain) :
    ¬ call.theory.IsValid call.target := by
  induction h with
  | nil => simp at hcall
  | cons _ unproved _ ih =>
    rcases List.mem_cons.mp hcall with rfl | hcall
    · exact unproved
    · exact ih hcall

end Descends

theorem establish_nests (hP : P []) {search : Theory → Formula → Run Outcome}
    {excluded : List Formula}
    (hsearch : ∀ T p, p ∉ excluded → ¬ T.IsValid p → Nests P (search T p).signals) (T : Theory)
    (premises : List Formula) : Nests P (establish search excluded T premises).signals := by
  induction premises generalizing T with
  | nil => exact .nil hP
  | cons p ps ih =>
    rw [establish]
    split
    · exact ih T
    next hvalid =>
      split
      · exact .nil hP
      next hexcluded =>
        refine (hsearch T p hexcluded hvalid).bind fun o => ?_
        split
        · exact ih o.theory
        · exact .nil hP

theorem step_eq_within (remaining : Nat) (excluded : List Formula) (T : Theory) (target : Formula) :
    ∃ r, step remaining excluded T target = Run.within ⟨T, target, remaining⟩ r := by
  fun_cases step remaining excluded T target with
  | case1 => exact ⟨_, rfl⟩
  | case2 => exact ⟨_, rfl⟩
  | case3 => exact ⟨_, rfl⟩

/-- Inside of a call there are chains with a level less. -/
theorem step_nests (remaining : Nat) (excluded : List Formula) (T : Theory) (target : Formula) :
    Nests (Call.Encloses ⟨T, target, remaining⟩ (Descends (excluded ++ [target]) (remaining - 1)))
      (step remaining excluded T target).signals := by
  induction remaining generalizing excluded T target with
  | zero => exact level_nests .nil (by simp) 0 T target
  | succ n ih =>
    cases n with
    | zero => exact level_nests .nil (by simp) 1 T target
    | succ n =>
      refine level_nests .nil (fun settle hsettle premises => ?_) (n + 2) T target
      obtain rfl : establish (step (n + 1) (excluded ++ [target])) (excluded ++ [target]) T =
          settle := by simpa using hsettle
      refine establish_nests .nil (fun W p hexcluded hvalid => ?_) T premises
      refine (ih (excluded ++ [target]) W p).mono fun chain hchain => ?_
      rcases hchain with rfl | ⟨inner, rfl, hinner⟩
      · exact .nil
      · exact .cons hexcluded hvalid hinner

/-- At each moment of a recursive search, the calls that are open start with the one for the target.
They are after different statements, the `k`-th has `k` levels less than the first, there are no
more of them than levels, or one if there is no level, and those inside of the first are after
statements that are not valid in the theory they search.  All calls are left in the end. -/
theorem recursive_descends (T : Theory) (target : Formula) (depth : Nat) :
    (∃ inner, (recursive T target depth).signals = .enter ⟨T, target, depth⟩ :: inner ++ [.leave]) ∧
    openCalls [] (recursive T target depth).signals = [] ∧
    ∀ front, front <+: (recursive T target depth).signals →
      (∀ call, (openCalls [] front)[0]? = some call → call = ⟨T, target, depth⟩) ∧
      ((openCalls [] front).map (·.target)).Nodup ∧
      (∀ k call, (openCalls [] front)[k]? = some call → call.depth = depth - k) ∧
      (openCalls [] front).length ≤ max 1 depth ∧
      ∀ k call, 0 < k → (openCalls [] front)[k]? = some call →
        ¬ call.theory.IsValid call.target := by
  have hnests := step_nests depth [] T target
  refine ⟨?_, hnests.closed [], fun front hfront => ?_⟩
  · obtain ⟨r, hr⟩ := step_eq_within depth [] T target
    exact ⟨r.signals, congrArg Run.signals hr⟩
  obtain ⟨chain, hopen, hchain⟩ := hnests.chain [] front hfront
  obtain rfl : openCalls [] front = chain := hopen
  rcases hchain with hnil | ⟨inner, hcons, hinner⟩
  · simp [hnil]
  rw [hcons]
  refine ⟨by simp, hinner.nodup (by simp), fun k call hk => ?_, ?_, fun k call hpos hk => ?_⟩
  · cases k with
    | zero =>
      obtain rfl : Call.mk T target depth = call := by simpa using hk
      rfl
    | succ k =>
      rw [hinner.depth_eq (by simpa using hk)]
      omega
  · have hlength := hinner.length_le
    simp only [List.length_cons]
    omega
  · obtain ⟨k, rfl⟩ : ∃ j, k = j + 1 := Nat.exists_eq_succ_of_ne_zero (by omega)
    exact hinner.not_isValid (List.mem_of_getElem? (by simpa using hk))

open Propositional in
/-- Three statements have to be detached for the atom `p`, and after nine signals the searches for
all of them are open.  The last two are after statements that are not valid. -/
theorem recursive_descends_chain :
    let front := (recursive chain.theory p 3).signals.take 9
    (openCalls [] front).map (fun call => (call.target, call.depth)) =
        [(p, 3), (implies r p, 2), (implies r (implies r p), 1)] ∧
      ((openCalls [] front).map (·.target)).Nodup ∧
      ∀ k call, 0 < k → (openCalls [] front)[k]? = some call →
        ¬ call.theory.IsValid call.target := by
  intro front
  obtain ⟨-, hnodup, -, -, hunproved⟩ :=
    (recursive_descends chain.theory p 3).2.2 front (List.take_prefix 9 _)
  exact ⟨by decide +kernel, hnodup, hunproved⟩

end Search

end Deduction
