import Deduction.Proofs.NestedCalls
import Deduction.Trace.Logger

/-!
# What a logger keeps of a run

A logger knows spans by number and takes the target and the depth of an event from the span that it
entered last.  Of a run it therefore keeps one record for each event, with the target and the depth
of the innermost call that is open when the event is noted.

`notes` lists the events of a run with these calls, and `Trace.recordsOfSignals_eq` says that the
records are the records of the notes, in order.  Proofs about records of runs are about notes, which
add up along a run as signals do (`notes_append`), and look neither into spans nor into fields.
-/

namespace Deduction

/-! ## Notes -/

/-- An event and the innermost call that was open when it was noted. -/
structure Note where
  call? : Option Call
  event : Event

/-- The events that are noted in the signals, if the calls of `stack` are open before. -/
def notes : (stack : List Call) → List Signal → List Note
  | _, [] => []
  | stack, .enter call :: rest => notes (stack ++ [call]) rest
  | stack, .leave :: rest => notes stack.dropLast rest
  | stack, .note e :: rest => ⟨stack.getLast?, e⟩ :: notes stack rest

theorem notes_append (stack : List Call) (signals signals' : List Signal) :
    notes stack (signals ++ signals') =
      notes stack signals ++ notes (openCalls stack signals) signals' := by
  fun_induction openCalls stack signals with
  | case1 => rfl
  | case2 stack call rest ih => exact ih
  | case3 stack rest ih => exact ih
  | case4 stack e rest ih => exact congrArg (_ :: ·) ih

namespace Event

/-- What the event is called in a record. -/
def name : Event → String
  | .exact _ => "@exact"
  | .candidate _ _ => "@candidate"
  | .derived _ => "@derived"
  | .extended _ => "@extend"
  | .failed _ => "@fail"
  | .exhausted => "@depth"

/-- The rule of an event. -/
def rule? : Event → Option InferenceRule
  | .candidate r _ => some r
  | .failed r? => r?
  | _ => none

/-- The premises of an event. -/
def premises? : Event → Option Sequence
  | .candidate _ ps => some ps
  | _ => none

/-- The derivation that an event is about. -/
def derivation? : Event → Option Derivation
  | .exact d => some d
  | .derived t => some (.proved t)
  | .extended d => some d
  | _ => none

end Event

variable [Typesetters]

/-- The record of a note: its event, in the place where it was noted. -/
def Note.record (n : Note) : Trace.Record where
  event := n.event.name
  target := n.call?.map (·.target.text)
  depth := n.call?.map (·.depth)
  rule := n.event.rule?.map (·.formula.text)
  premises := n.event.premises?.map (·.formula.text)
  provedTheorem := n.event.derivation?.map (·.formula.text)

/-! ## Spans -/

namespace Trace

namespace Logger

/-- The span of a call. -/
def span (call : Call) : Fields := ({} : Fields).recordAll (callFields call)

/-- The logger stands where the calls of `stack` are open: `opened` spans are known to it, and those
that it has entered are the ones of the calls. -/
structure Follows (l : Logger) (opened : Nat) (stack : List Call) : Prop where
  size : l.spans.size = opened
  entered : List.Forall₂ (fun id call => l.spans[id]? = some (span call)) l.stack stack.reverse

variable {l : Logger} {opened : Nat} {stack : List Call}

theorem Follows.enter (h : l.Follows opened stack) (call : Call) :
    ((l.next (.openSpan (callFields call))).next (.enter opened)).Follows (opened + 1)
      (stack ++ [call]) where
  size := by simp [next, h.size]
  entered := by
    rw [List.reverse_concat]
    refine .cons ?_ (h.entered.imp fun id c hid => ?_)
    · simp [next, ← h.size, span]
    · -- The spans that were entered before keep their numbers.
      have hlt : id < l.spans.size := (Array.getElem?_eq_some_iff.mp hid).1
      change (l.spans.push _)[id]? = _
      rw [Array.getElem?_push_lt hlt, ← hid, Array.getElem?_eq_getElem hlt]

theorem Follows.exit (h : l.Follows opened stack) :
    (l.next .exit).Follows opened stack.dropLast where
  size := h.size
  entered := by
    rw [← List.tail_reverse]
    change List.Forall₂ (fun id call => l.spans[id]? = some (span call)) l.stack.tail _
    rcases (List.forall₂_iff _ _ _).mp h.entered with ⟨hids, hcalls⟩ |
      ⟨id, call, ids, calls, -, htail, hids, hcalls⟩
    · simp [hids, hcalls]
    · simpa [hids, hcalls] using htail

theorem Follows.current? (h : l.Follows opened stack) :
    l.current? = stack.getLast?.map span := by
  rw [← List.head?_reverse, Logger.current?]
  rcases (List.forall₂_iff _ _ _).mp h.entered with ⟨hids, hcalls⟩ |
    ⟨id, call, ids, calls, hid, -, hids, hcalls⟩
  · simp [hids, hcalls]
  · simpa [hids, hcalls] using hid

theorem Follows.record? (h : l.Follows opened stack) (e : Event) :
    l.record? (eventFields e) = some (Note.record ⟨stack.getLast?, e⟩) := by
  rw [Logger.record?, h.current?]
  cases stack.getLast? <;> rcases e with d | ⟨r, ps⟩ | t | d | (_ | r) | _ <;> rfl

theorem Follows.records_eq (h : l.Follows opened stack) (signals : List Signal) :
    l.records (instructions opened signals) = (notes stack signals).map Note.record := by
  induction signals generalizing l opened stack with
  | nil => rfl
  | cons signal rest ih =>
    cases signal with
    | enter call => exact ih (h.enter call)
    | leave => exact ih h.exit
    | note e =>
      rw [instructions, records, h.record? e, ih h]
      rfl

end Logger

/-- The records of a run are those of its notes. -/
theorem recordsOfSignals_eq (signals : List Signal) :
    recordsOfSignals signals = (notes [] signals).map Note.record :=
  Logger.Follows.records_eq ⟨rfl, .nil⟩ signals

end Trace

end Deduction
