import Deduction.Proofs.LoggedRuns
import Deduction.Proofs.SearchSoundness

/-!
# The trace of a search

The records of a recursive search tell how it ended, and what it appended can be read off them.
They also tell of all that was given up on the way: a candidate whose last premise fails has
perhaps appended theorems for its other premises, and these stand in the records too.  So the
theorems of the resulting theory are only some of those that are recorded as derived, in the same
order.

That a theorem is appended and that it is derived are always recorded together (`Paired`).  Deriving
by hand may find the theorem in the theory already and append nothing; a search does not, because
its target is excluded from the searches for the premises (`Adds.not_isValid`).  For the same reason
only the search for the target itself can find it valid beforehand: inner searches are for premises
that are not.

`Run.Reports` is a condition on the value of a run together with its notes.  What a level of the
search reports follows from what the level below it reports, by `Search.step_reports`.
-/

namespace Deduction

/-! ## Notes that come in pairs -/

/-- The theorem that an event reports as derived. -/
def Event.derived? : Event → Option Theorem
  | .derived t => some t
  | _ => none

/-- The theorems that are noted as derived, in order. -/
def derivedIn (L : List Note) : List Theorem := L.filterMap (·.event.derived?)

/-- The event tells of an attempt and not of a derivation. -/
inductive Event.IsAttempt : Event → Prop
  | candidate (rule : InferenceRule) (premises : Sequence) : IsAttempt (.candidate rule premises)
  | failed (rule? : Option InferenceRule) : IsAttempt (.failed rule?)
  | exhausted : IsAttempt .exhausted

/-- A theorem that is noted as appended is noted as derived right after that, in the same call, and
no theorem is noted as derived elsewhere.  Nothing is noted as valid beforehand. -/
inductive Paired : List Note → Prop
  | nil : Paired []
  | attempt {n : Note} {rest : List Note} (h : n.event.IsAttempt) (hrest : Paired rest) :
      Paired (n :: rest)
  | pair {call? : Option Call} {t : Theorem} {rest : List Note} (hrest : Paired rest) :
      Paired (⟨call?, .extended (.proved t)⟩ :: ⟨call?, .derived t⟩ :: rest)

theorem Event.IsAttempt.name_ne {e : Event} (h : e.IsAttempt) :
    e.name ≠ "@exact" ∧ e.name ≠ "@extend" ∧ e.name ≠ "@derived" := by
  cases h <;> simp [name]

namespace Paired

variable {L L' : List Note} {r : Trace.Record} {i : Nat}

theorem append (h : Paired L) (h' : Paired L') : Paired (L ++ L') := by
  induction h with
  | nil => exact h'
  | attempt h _ ih => exact .attempt h ih
  | pair _ ih => exact .pair ih

theorem event_ne_exact [Typesetters] (h : Paired L) (hr : r ∈ L.map Note.record) :
    r.event ≠ "@exact" := by
  induction h with
  | nil => simp at hr
  | attempt h _ ih =>
    rcases List.mem_cons.mp hr with rfl | hr
    · exact h.name_ne.1
    · exact ih hr
  | pair _ ih =>
    obtain rfl | rfl | hr := by simpa using hr
    · simp [Note.record, Event.name]
    · simp [Note.record, Event.name]
    · exact ih (by simpa using hr)

/-- The record of a theorem that is derived follows the one of its being appended, which differs
from it in the name of the event only. -/
theorem preceded [Typesetters] (h : Paired L) (hi : (L.map Note.record)[i]? = some r)
    (hr : r.event = "@derived") :
    ∃ j, i = j + 1 ∧ (L.map Note.record)[j]? = some { r with event := "@extend" } := by
  induction h generalizing i with
  | nil => simp at hi
  | attempt h _ ih =>
    cases i with
    | zero =>
      obtain rfl := Option.some.inj hi
      exact absurd hr h.name_ne.2.2
    | succ i =>
      obtain ⟨j, rfl, hj⟩ := ih hi
      exact ⟨j + 1, rfl, hj⟩
  | pair _ ih =>
    match i, hi with
    | 0, hi =>
      obtain rfl := Option.some.inj hi
      simp [Note.record, Event.name] at hr
    | 1, hi =>
      obtain rfl := Option.some.inj hi
      exact ⟨0, rfl, rfl⟩
    | i + 2, hi =>
      obtain ⟨j, rfl, hj⟩ := ih hi
      exact ⟨j + 2, rfl, hj⟩

theorem followed [Typesetters] (h : Paired L) (hi : (L.map Note.record)[i]? = some r)
    (hr : r.event = "@extend") :
    (L.map Note.record)[i + 1]? = some { r with event := "@derived" } := by
  induction h generalizing i with
  | nil => simp at hi
  | attempt h _ ih =>
    cases i with
    | zero =>
      obtain rfl := Option.some.inj hi
      exact absurd hr h.name_ne.2.1
    | succ i => exact ih hi
  | pair _ ih =>
    match i, hi with
    | 0, hi =>
      obtain rfl := Option.some.inj hi
      rfl
    | 1, hi =>
      obtain rfl := Option.some.inj hi
      simp [Note.record, Event.name] at hr
    | i + 2, hi => exact ih hi

end Paired

/-- The notes come in pairs, and they account for the theorems that lead from `T` to `W`. -/
structure Accounts (T W : Theory) (L : List Note) : Prop where
  paired : Paired L
  kept : ∃ ths, T.FollowedBy ths W ∧ ths.Sublist (derivedIn L)

/-- What is noted in a search for a target that is not valid in `T`, by how it ends.  After all
attempts, the last notes are those of the theorem that states the target or of the failure. -/
inductive Closes (call? : Option Call) (T : Theory) : Outcome → List Note → Prop
  | found {front : List Note} {ths : List Theorem} {t : Theorem} {o : Outcome}
      (paired : Paired front) (followed : T.FollowedBy (ths ++ [t]) o.theory)
      (kept : ths.Sublist (derivedIn front)) (success : o.success = true) :
      Closes call? T o (front ++ [⟨call?, .extended (.proved t)⟩, ⟨call?, .derived t⟩])
  | failed {front : List Note} (paired : Paired front) :
      Closes call? T (.failure T) (front ++ [⟨call?, .failed none⟩])

/-- What is noted in an attempt to find the target.  Only what it finds closes the search. -/
structure Tries (call? : Option Call) (T : Theory) (o? : Option Outcome) (L : List Note) :
    Prop where
  paired : Paired L
  closes : ∀ o ∈ o?, Closes call? T o L

theorem Accounts.refl (T : Theory) : Accounts T T [] :=
  ⟨.nil, [], T.followedBy_nil, List.Sublist.refl []⟩

theorem Accounts.append {T W W' : Theory} {L L' : List Note} (h : Accounts T W L)
    (h' : Accounts W W' L') : Accounts T W' (L ++ L') := by
  obtain ⟨ths, hths, hkept⟩ := h.kept
  obtain ⟨ths', hths', hkept'⟩ := h'.kept
  refine ⟨h.paired.append h'.paired, ths ++ ths', hths.append hths', ?_⟩
  rw [derivedIn, List.filterMap_append]
  exact hkept.append hkept'

variable {call? : Option Call} {T : Theory} {o : Outcome} {L : List Note}

theorem Closes.accounts (h : Closes call? T o L) : Accounts T o.theory L := by
  cases h with
  | found paired followed kept _ =>
    refine ⟨paired.append (.pair .nil), _, followed, ?_⟩
    rw [derivedIn, List.filterMap_append]
    exact kept.append (List.Sublist.refl _)
  | failed paired =>
    exact ⟨paired.append (.attempt (.failed none) .nil), [], T.followedBy_nil, List.nil_sublist _⟩

/-- What was attempted before does not matter. -/
theorem Closes.after {front : List Note} (hfront : Paired front) (h : Closes call? T o L) :
    Closes call? T o (front ++ L) := by
  cases h with
  | found paired followed kept success =>
    rw [← List.append_assoc]
    refine .found (hfront.append paired) followed ?_ success
    rw [derivedIn, List.filterMap_append]
    exact kept.trans (List.sublist_append_right _ _)
  | failed paired =>
    rw [← List.append_assoc]
    exact .failed (hfront.append paired)

/-! ## Runs with a condition on their notes -/

namespace Run

variable {α β : Type} {stack : List Call} {r : Run α} {post : α → List Note → Prop}

/-- If the run ends with a value, the calls of `stack` that were open before are open again, and the
value and the notes meet `post`. -/
def Reports (r : Run α) (stack : List Call) (post : α → List Note → Prop) : Prop :=
  ∀ a, r.result = .ok a → openCalls stack r.signals = stack ∧ post a (notes stack r.signals)

theorem reports_pure {a : α} (h : post a []) : (pure a : Run α).Reports stack post := by
  intro b hb
  obtain rfl : a = b := by simpa using hb
  exact ⟨rfl, h⟩

theorem reports_lift (x : Except Error α) :
    (liftM x : Run α).Reports stack fun a L => x = .ok a ∧ L = [] :=
  fun _ ha => ⟨rfl, ha, rfl⟩

theorem reports_note (e : Event) :
    (note e).Reports stack fun _ L => L = [⟨stack.getLast?, e⟩] :=
  fun _ _ => ⟨rfl, rfl⟩

theorem Reports.mono {post' : α → List Note → Prop} (h : r.Reports stack post)
    (hpost : ∀ a L, post a L → post' a L) : r.Reports stack post' :=
  fun a ha => ⟨(h a ha).1, hpost a _ (h a ha).2⟩

theorem Reports.bind {f : α → Run β} {post' : β → List Note → Prop} (h : r.Reports stack post)
    (hf : ∀ a front, r.result = .ok a → post a front →
      (f a).Reports stack fun b back => post' b (front ++ back)) :
    (r >>= f).Reports stack post' := by
  intro b hb
  obtain ⟨a, ha, hb⟩ := bind_eq_ok.mp hb
  obtain ⟨hopen, hpost⟩ := h a ha
  obtain ⟨hopen', hpost'⟩ := hf a _ ha hpost b hb
  have hsignals : (r >>= f).signals = r.signals ++ (f a).signals := by rw [signals_bind, ha]
  rw [hsignals, openCalls_append, notes_append, hopen]
  exact ⟨hopen', hpost'⟩

theorem Reports.within {call : Call} (h : r.Reports (stack ++ [call]) post) :
    (within call r).Reports stack post := by
  intro a ha
  obtain ⟨hopen, hpost⟩ := h a ha
  change openCalls (stack ++ [call]) (r.signals ++ [.leave]) = stack ∧
    post a (notes (stack ++ [call]) (r.signals ++ [.leave]))
  rw [openCalls_append, notes_append, hopen]
  exact ⟨by simp [openCalls], by simpa [notes] using hpost⟩

/-- Attempts that find nothing note pairs, and one that finds something closes the search. -/
theorem reports_firstSome {f : α → Run (Option Outcome)} {T : Theory}
    (hf : ∀ a, (f a).Reports stack (Tries stack.getLast? T)) (as : List α) :
    (firstSome f as).Reports stack (Tries stack.getLast? T) := by
  induction as with
  | nil => exact reports_pure ⟨.nil, by simp⟩
  | cons a as ih =>
    refine (hf a).bind fun o? front _ hfront => ?_
    cases o? with
    | some o => exact reports_pure (by simpa using hfront)
    | none =>
      refine ih.mono fun o? L hL => ?_
      exact ⟨hfront.paired.append hL.paired, fun o ho => (hL.closes o ho).after hfront.paired⟩

end Run

/-! ## One level -/

/-- Appending a theorem whose statement was not valid is noted. -/
theorem Theory.extending_reports {t : Theorem} (hnew : ¬ T.IsValid t.statement)
    (stack : List Call) :
    (T.extending [.proved t]).Reports stack fun T' L =>
      T.FollowedBy [t] T' ∧ L = [⟨stack.getLast?, .extended (.proved t)⟩] := by
  intro T' hT'
  have happend : T'.derivations = appendNew T.derivations [.proved t] := extend_eq_ok.mp hT'
  have hfollowed := followedBy_of_appendNew hnew happend
  have hsignals : (T.extending [.proved t]).signals = [.note (.extended (.proved t))] := by
    change (T.newIn [.proved t]).map _ = _
    rw [newIn, ← happend, hfollowed, List.drop_left]
    rfl
  rw [hsignals]
  exact ⟨rfl, hfollowed, rfl⟩

theorem Theory.derive_reports {conjecture : Formula} (hnew : ¬ T.IsValid conjecture)
    (premises : Sequence) (rule : InferenceRule) (stack : List Call) :
    (T.derive conjecture premises rule).Reports stack fun (T', t) L =>
      T.FollowedBy [t] T' ∧
        L = [⟨stack.getLast?, .extended (.proved t)⟩, ⟨stack.getLast?, .derived t⟩] := by
  unfold Theory.derive
  split
  · intro a ha
    cases ha
  · refine (Run.reports_lift _).bind fun t front _ hlift => ?_
    obtain ⟨ht, hfront⟩ := hlift
    obtain ⟨rfl, -⟩ := Theorem.ofInference_eq_ok.mp ht
    refine (extending_reports hnew stack).bind fun T' extended _ hextending => ?_
    obtain ⟨hT', hextended⟩ := hextending
    refine (Run.reports_note _).bind fun _ derived _ hderived => Run.reports_pure ⟨hT', ?_⟩
    rw [hfront, hextended, hderived]
    rfl

namespace Search

variable {settle : List Formula → Run (Option Theory)} {excluded : List Formula}
  {target : Formula} {stack : List Call}

/-- The theory that premises are settled in is accounted for. -/
def SettlesNoting (settle : List Formula → Run (Option Theory)) (T : Theory)
    (stack : List Call) : Prop :=
  ∀ premises, (settle premises).Reports stack fun W? L => Paired L ∧ ∀ W ∈ W?, Accounts T W L

theorem settled_noting (T : Theory) (stack : List Call) : SettlesNoting (settled T) T stack := by
  intro premises
  refine Run.reports_pure ⟨.nil, fun W hW => ?_⟩
  split at hW
  · obtain rfl : T = W := by simpa using hW
    exact .refl T
  · simp at hW

theorem tryCandidate_reports (hnew : ¬ T.IsValid target)
    (hsettles : Settles settle (excluded ++ [target]) T) (hsettle : SettlesNoting settle T stack)
    (rule : InferenceRule) (m : Map) :
    (tryCandidate settle target rule m).Reports stack (Tries stack.getLast? T) := by
  refine (Run.reports_note _).bind fun _ noted _ hnoted => ?_
  have hpaired : Paired noted := by
    rw [hnoted]
    exact .attempt (.candidate _ _) .nil
  refine (Run.reports_lift _).bind fun conclusion applied _ ⟨_, happlied⟩ => ?_
  subst happlied
  split
  · exact Run.reports_pure ⟨by simpa using hpaired, by simp⟩
  · refine (hsettle _).bind fun W? settling hW? ⟨hsettling, haccounts⟩ => ?_
    have hfront : Paired (noted ++ settling) := hpaired.append hsettling
    cases W? with
    | none => exact Run.reports_pure ⟨by simpa using hfront, by simp⟩
    | some W =>
      obtain ⟨_, hadds⟩ := hsettles _ W hW?
      have hnewW : ¬ W.IsValid target := hadds.not_isValid hnew
      refine (W.derive_reports hnewW _ rule stack).bind fun (T', t) pair _ ⟨hT', hpair⟩ => ?_
      obtain ⟨ths, hths, hkept⟩ := (haccounts W rfl).kept
      have hcloses : Closes stack.getLast? T (.found T' (.proved t))
          (noted ++ (settling ++ pair)) := by
        rw [hpair]
        exact .after hpaired (.found hsettling (hths.append hT') hkept rfl)
      refine Run.reports_pure ⟨by simpa using hcloses.accounts.paired, fun o ho => ?_⟩
      obtain rfl : Outcome.found T' (.proved t) = o := by simpa using ho
      simpa using hcloses

theorem applyRules_reports (hnew : ¬ T.IsValid target)
    (hsettles : Settles settle (excluded ++ [target]) T) (hsettle : SettlesNoting settle T stack) :
    (applyRules settle T target).Reports stack (Tries stack.getLast? T) := by
  refine Run.reports_firstSome (fun rule => ?_) T.rules
  refine (Run.reports_lift _).bind fun b? front _ ⟨_, hfront⟩ => ?_
  subst hfront
  cases b? with
  | none => exact Run.reports_pure ⟨.nil, by simp⟩
  | some b =>
    simp only [firstAssignment_eq_firstSome]
    exact Run.reports_firstSome (tryCandidate_reports hnew hsettles hsettle rule) _

theorem fail_reports (T : Theory) (stack : List Call) :
    (fail T none).Reports stack (Closes stack.getLast? T) := by
  refine (Run.reports_note _).bind fun _ noted _ hnoted => Run.reports_pure ?_
  rw [hnoted]
  exact .failed .nil

/-- A search that goes on when an attempt finds nothing. -/
theorem reports_orElse {attempt : Run (Option Outcome)} {next : Run Outcome}
    (h : attempt.Reports stack (Tries stack.getLast? T))
    (hnext : next.Reports stack (Closes stack.getLast? T)) :
    (attempt.orElse next).Reports stack (Closes stack.getLast? T) := by
  refine h.bind fun o? front _ ⟨hpaired, hfound⟩ => ?_
  cases o? with
  | some o => exact Run.reports_pure (by simpa using hfound)
  | none => exact hnext.mono fun o L hL => hL.after hpaired

theorem lookUp_reports (hnew : ¬ T.IsValid target) :
    (lookUp T target).Reports stack (Tries stack.getLast? T) := by
  rw [lookUp, Theory.justification?_eq_none.mpr hnew]
  exact Run.reports_pure ⟨.nil, by simp⟩

theorem level_reports {deeper? : Option (List Formula → Run (Option Theory))} {depth : Nat}
    (excluded : List Formula) (hnew : ¬ T.IsValid target)
    (hdeeper : ∀ settle ∈ deeper?, Settles settle (excluded ++ [target]) T ∧
      SettlesNoting settle T (stack ++ [⟨T, target, depth⟩])) :
    (level depth deeper? T target).Reports stack (Closes (some ⟨T, target, depth⟩) T) := by
  have hcall : (stack ++ [Call.mk T target depth]).getLast? = some ⟨T, target, depth⟩ := by simp
  rw [← hcall]
  have hrules := applyRules_reports hnew (settled_settles (excluded ++ [target]) T)
    (settled_noting T (stack ++ [⟨T, target, depth⟩]))
  refine Run.Reports.within (reports_orElse (lookUp_reports hnew) (reports_orElse hrules ?_))
  cases deeper? with
  | none =>
    refine (Run.reports_note .exhausted).bind fun _ noted _ hnoted => ?_
    refine (fail_reports T _).mono fun o L hL => ?_
    rw [hnoted]
    exact .after (.attempt .exhausted .nil) hL
  | some settle =>
    obtain ⟨hsettles, hsettle⟩ := hdeeper settle rfl
    exact reports_orElse (applyRules_reports hnew hsettles hsettle) (fail_reports T _)

/-! ## The recursive search -/

theorem establish_noting {search : Theory → Formula → Run Outcome}
    (hsearch : ∀ T p, p ∉ excluded → ¬ T.IsValid p →
      (search T p).Reports stack fun o L => Accounts T o.theory L) (T : Theory) :
    SettlesNoting (establish search excluded T) T stack := by
  intro premises
  induction premises generalizing T with
  | nil =>
    refine Run.reports_pure ⟨.nil, fun W hW => ?_⟩
    obtain rfl : T = W := by simpa using hW
    exact .refl T
  | cons p ps ih =>
    rw [establish]
    split
    · exact ih T
    next hvalid =>
      split
      · exact Run.reports_pure ⟨.nil, by simp⟩
      next hexcluded =>
        refine (hsearch T p hexcluded hvalid).bind fun o front _ hfront => ?_
        split
        · refine (ih o.theory).mono fun W? L hL => ?_
          exact ⟨hfront.paired.append hL.1, fun W hW => hfront.append (hL.2 W hW)⟩
        · exact Run.reports_pure ⟨by simpa using hfront.paired, by simp⟩

/-- What a level of the search reports follows from what the level below it reports. -/
theorem step_reports {remaining : Nat} (hexcluded : target ∉ excluded)
    (hnew : ¬ T.IsValid target) (stack : List Call) :
    (step remaining excluded T target).Reports stack
      (Closes (some ⟨T, target, remaining⟩) T) := by
  induction remaining generalizing excluded T target stack with
  | zero => exact level_reports excluded hnew (by simp)
  | succ n ih =>
    cases n with
    | zero => exact level_reports excluded hnew (by simp)
    | succ n =>
      rw [step]
      refine level_reports excluded hnew fun settle hsettle => ?_
      obtain rfl : establish (step (n + 1) (excluded ++ [target])) (excluded ++ [target]) T =
          settle := by simpa using hsettle
      refine ⟨establish_settles fun T p o hp h hsuccess => step_finds hp h hsuccess, ?_⟩
      refine establish_noting (fun W p hp hvalid => ?_) T
      exact (ih hp hvalid _).mono fun o L hL => hL.accounts

theorem level_reports_valid {deeper? : Option (List Formula → Run (Option Theory))} {depth : Nat}
    {d : Derivation} (hd : T.justification? target = some d) :
    (level depth deeper? T target).Reports stack fun o L =>
      o.theory = T ∧ L = [⟨some ⟨T, target, depth⟩, .exact d⟩] := by
  have hlookUp : (lookUp T target).Reports (stack ++ [⟨T, target, depth⟩]) fun o? L =>
      o? = some (.found T d) ∧ L = [⟨some ⟨T, target, depth⟩, .exact d⟩] := by
    rw [lookUp, hd]
    refine (Run.reports_note _).bind fun _ noted _ hnoted => Run.reports_pure ⟨rfl, ?_⟩
    simp [hnoted]
  refine Run.Reports.within (hlookUp.bind fun o? front _ ⟨ho, hfront⟩ => ?_)
  rw [ho, hfront]
  exact Run.reports_pure ⟨rfl, rfl⟩

/-- A target that is valid beforehand is noted as such, and nothing else is noted. -/
theorem step_reports_valid {remaining : Nat} (hvalid : T.IsValid target) (stack : List Call) :
    (step remaining excluded T target).Reports stack fun o L =>
      o.theory = T ∧ ∃ d, L = [⟨some ⟨T, target, remaining⟩, .exact d⟩] := by
  obtain ⟨d, hd⟩ : ∃ d, T.justification? target = some d :=
    Option.ne_none_iff_exists'.mp fun hnone => Theory.justification?_eq_none.mp hnone hvalid
  have hlevel (deeper? : Option (List Formula → Run (Option Theory))) :
      (level remaining deeper? T target).Reports stack fun o L =>
        o.theory = T ∧ ∃ d, L = [⟨some ⟨T, target, remaining⟩, .exact d⟩] :=
    (level_reports_valid hd).mono fun o L ⟨ho, hL⟩ => ⟨ho, d, hL⟩
  fun_cases step remaining excluded T target with
  | case1 => exact hlevel _
  | case2 => exact hlevel _
  | case3 => exact hlevel _

end Search

/-! ## Records -/

/-- The theorems in the records of derivations are those that are noted as derived. -/
theorem provedTheorem_derivedIn [Typesetters] (L : List Note) :
    ((L.map Note.record).filter (·.event = "@derived")).map (·.provedTheorem) =
      (derivedIn L).map fun t => some t.formula.text := by
  induction L with
  | nil => rfl
  | cons n L ih =>
    obtain ⟨call?, e⟩ := n
    cases e with
    | derived t => exact congrArg (some t.formula.text :: ·) ih
    | _ => simpa [Note.record, Event.name, derivedIn, Event.derived?] using ih

/-- How the records of a search for a target that is not valid beforehand end. -/
theorem Closes.last [Typesetters] {call : Call} (h : Closes (some call) T o L) :
    ∃ front last, L.map Note.record = front ++ [last] ∧ last.target = some call.target.text ∧
      last.depth = some call.depth ∧ last.event = if o.success then "@derived" else "@fail" := by
  cases h with
  | @found front _ t _ _ _ _ success =>
    refine ⟨front.map Note.record ++ [Note.record ⟨some call, .extended (.proved t)⟩],
      Note.record ⟨some call, .derived t⟩, by simp, rfl, rfl, ?_⟩
    rw [if_pos success]
    rfl
  | @failed front _ =>
    exact ⟨front.map Note.record, Note.record ⟨some call, .failed none⟩, by simp, rfl, rfl, rfl⟩

namespace Search

/-- The records of a recursive search that ends without error.  The last is about the target with
all levels.  If the target was valid beforehand it says so and is the only one; otherwise it says
that the target was derived or that the search failed.  No other record says that something was
valid beforehand.  A record that a theorem is derived stands right behind the same record of its
being appended, and there are no other records of theorems being appended.  The theorems that the
search has appended are recorded as derived in the order in which they stand in the theory. -/
theorem recursive_trace [Typesetters] {T : Theory} {target : Formula} {depth : Nat}
    {o : Outcome} (h : (recursive T target depth).result = .ok o) :
    let records := Trace.recordsOfSignals (recursive T target depth).signals
    (∃ front last, records = front ++ [last] ∧
      last.target = some target.text ∧ last.depth = some depth ∧
      (T.IsValid target → front = [] ∧ last.event = "@exact") ∧
      (¬ T.IsValid target → last.event = if o.success then "@derived" else "@fail") ∧
      ∀ r ∈ front, r.event ≠ "@exact") ∧
    (∀ i r, records[i]? = some r → r.event = "@derived" →
      ∃ j, i = j + 1 ∧ records[j]? = some { r with event := "@extend" }) ∧
    (∀ i r, records[i]? = some r → r.event = "@extend" →
      records[i + 1]? = some { r with event := "@derived" }) ∧
    ∃ ths : List Theorem, T.FollowedBy ths o.theory ∧
      (ths.map fun t => some t.formula.text).Sublist
        ((records.filter (·.event = "@derived")).map (·.provedTheorem)) := by
  intro records
  have hrecords : records = (notes [] (recursive T target depth).signals).map Note.record :=
    Trace.recordsOfSignals_eq _
  by_cases hvalid : T.IsValid target
  · obtain ⟨-, htheory, d, hnotes⟩ := step_reports_valid hvalid [] o h
    have hrecords : records = [Note.record ⟨some ⟨T, target, depth⟩, .exact d⟩] :=
      hrecords.trans (congrArg (List.map Note.record) hnotes)
    have hevent {i : Nat} {r : Trace.Record} (hi : records[i]? = some r) : r.event = "@exact" := by
      obtain rfl := List.mem_singleton.mp (hrecords ▸ List.mem_of_getElem? hi)
      rfl
    refine ⟨⟨[], _, hrecords, rfl, rfl, fun _ => ⟨rfl, rfl⟩, fun hnew => absurd hvalid hnew,
      by simp⟩, fun i r hi hr => ?_, fun i r hi hr => ?_, [], htheory ▸ T.followedBy_nil, by simp⟩
    · simp [hevent hi] at hr
    · simp [hevent hi] at hr
  · obtain ⟨-, hcloses⟩ := step_reports List.not_mem_nil hvalid [] o h
    have haccounts := hcloses.accounts
    obtain ⟨front, last, hlast, htarget, hdepth, hevent⟩ := hcloses.last
    obtain ⟨ths, hths, hkept⟩ := haccounts.kept
    rw [hrecords]
    refine ⟨⟨front, last, hlast, htarget, hdepth, fun h => absurd h hvalid, fun _ => hevent,
      fun r hr => ?_⟩, fun i r hi hr => haccounts.paired.preceded hi hr,
      fun i r hi hr => haccounts.paired.followed hi hr, ths, hths, ?_⟩
    · exact haccounts.paired.event_ne_exact (by rw [hlast]; exact List.mem_append_left _ hr)
    · rw [provedTheorem_derivedIn]
      exact hkept.map _

open Propositional in
/-- The search for the atom `p` gives up on one way and takes the other, by an inner search for one
theorem. -/
theorem recursive_trace_detour :
    let records := Trace.recordsOfSignals (recursive detour.theory p 2).signals
    (records.drop 6).map (fun r => (r.event, r.depth)) =
        [("@fail", some 1), ("@candidate", some 2), ("@candidate", some 1), ("@candidate", some 1),
          ("@extend", some 1), ("@derived", some 1), ("@extend", some 2), ("@derived", some 2)] ∧
      ∃ o, (recursive detour.theory p 2).result = .ok o ∧ ¬ detour.theory.IsValid p ∧
        (∃ front last, records = front ++ [last] ∧ last.target = some p.text ∧
          last.event = "@derived" ∧ ∀ r ∈ front, r.event ≠ "@exact") ∧
        ∃ ths : List Theorem, detour.theory.FollowedBy ths o.theory ∧
          (ths.map fun t => some t.formula.text).Sublist
            ((records.filter (·.event = "@derived")).map (·.provedTheorem)) := by
  intro records
  have hnew : ¬ detour.theory.IsValid p := by decide
  obtain ⟨o, h, hsuccess⟩ : ∃ o, (recursive detour.theory p 2).result = .ok o ∧
      o.success = true := exists_ok_of_success (by decide +kernel)
  obtain ⟨⟨front, last, hrecords, htarget, -, -, hevent, hfront⟩, -, -, hkept⟩ := recursive_trace h
  refine ⟨by decide, o, h, hnew, ⟨front, last, hrecords, htarget, ?_, hfront⟩, hkept⟩
  simpa [hsuccess] using hevent hnew

end Search

end Deduction
