import Deduction.Search.Run
import Deduction.Trace.Record

/-!
# The logger

A logger turns instructions into records.  Spans are opened with some fields, entered and left
again, and an event takes the target and the depth that it does not have itself from the span that
was entered last and not left.  Fields are recorded in one of three ways, and each field is
recorded in one way only: the name of an event as text, the depth as a number, the other fields as
something shown.  What is recorded in another way is lost.

`Logger.instructions` are the instructions that the signals of a run stand for.  How signals reach a
logger is not part of the library, and the following is assumed of it: a logger receives all
signals of a run, in the order in which they are sent and with nothing in between; a span is opened
and entered when a call starts, and left when the call ends, also by an error; and spans that are
opened get numbers that were not used before.
-/

namespace Deduction.Trace

/-- A field of an event or a span. -/
inductive Field where
  | event
  | target
  | depth
  | rule
  | premises
  | provedTheorem
  /-- A field that no record has. -/
  | other
deriving DecidableEq

/-- How a field is recorded. -/
inductive FieldValue where
  /-- As text. -/
  | text (s : String)
  /-- As something shown. -/
  | shown (s : String)
  /-- As a number. -/
  | number (n : Nat)
deriving DecidableEq

/-- The fields recorded so far. -/
structure Fields where
  event : Option String := none
  target : Option String := none
  depth : Option Nat := none
  rule : Option String := none
  premises : Option String := none
  provedTheorem : Option String := none
deriving DecidableEq

namespace Fields

/-- Records one field. -/
def record (fields : Fields) : Field × FieldValue → Fields
  | (.event, .text s) => { fields with event := s }
  | (.depth, .number n) => { fields with depth := n }
  | (.target, .shown s) => { fields with target := s }
  | (.rule, .shown s) => { fields with rule := s }
  | (.premises, .shown s) => { fields with premises := s }
  | (.provedTheorem, .shown s) => { fields with provedTheorem := s }
  | _ => fields

/-- Records fields in order. -/
def recordAll (fields : Fields) (values : List (Field × FieldValue)) : Fields :=
  values.foldl record fields

/-- The fields of an event inside a span. -/
def inherit (fields span : Fields) : Fields :=
  { fields with target := fields.target <|> span.target, depth := fields.depth <|> span.depth }

end Fields

/-- Something that happens to a logger. -/
inductive Instruction where
  /-- A span is opened.  Spans are numbered from zero. -/
  | openSpan (values : List (Field × FieldValue))
  /-- More is recorded about a span. -/
  | recordSpan (id : Nat) (values : List (Field × FieldValue))
  /-- A span is entered. -/
  | enter (id : Nat)
  /-- The span that was entered last is left. -/
  | exit
  /-- An event happens. -/
  | event (values : List (Field × FieldValue))
deriving DecidableEq

/-- The names of the events that are recorded. -/
def eventNames : List String :=
  ["@exact", "@candidate", "@derived", "@extend", "@fail", "@depth"]

/-- The state of a logger. -/
structure Logger where
  /-- The fields of the spans by number. -/
  spans : Array Fields := #[]
  /-- The spans that are entered, the last first. -/
  stack : List Nat := []

namespace Logger

/-- The fields of the span that was entered last. -/
def current? (l : Logger) : Option Fields := l.stack.head?.bind (l.spans[·]?)

/-- The record of an event, if it has a name that is recorded. -/
def record? (l : Logger) (values : List (Field × FieldValue)) : Option Record := do
  let own := ({} : Fields).recordAll values
  let fields :=
    match l.current? with
    | some span => own.inherit span
    | none => own
  let event ← fields.event
  if event ∈ eventNames then
    some ⟨event, fields.target, fields.depth, fields.rule, fields.premises, fields.provedTheorem⟩
  else none

/-- The state after an instruction. -/
def next (l : Logger) : Instruction → Logger
  | .openSpan values => { l with spans := l.spans.push (({} : Fields).recordAll values) }
  | .recordSpan id values => { l with spans := l.spans.modify id (·.recordAll values) }
  | .enter id => { l with stack := id :: l.stack }
  | .exit => { l with stack := l.stack.tail }
  | .event _ => l

/-- The records that the instructions lead to. -/
def records : Logger → List Instruction → List Record
  | _, [] => []
  | l, .event values :: rest => (l.record? values).toList ++ records l rest
  | l, i :: rest => records (l.next i) rest

/-! ## Runs -/

variable [Typesetters]

/-- The fields that an event is recorded with. -/
def eventFields : Event → List (Field × FieldValue)
  | .exact d => [(.event, .text "@exact"), (.provedTheorem, .shown d.formula.text)]
  | .candidate r ps =>
    [(.event, .text "@candidate"), (.rule, .shown r.formula.text),
      (.premises, .shown ps.formula.text)]
  | .derived t => [(.event, .text "@derived"), (.provedTheorem, .shown t.formula.text)]
  | .extended d => [(.event, .text "@extend"), (.provedTheorem, .shown d.formula.text)]
  | .failed none => [(.event, .text "@fail")]
  | .failed (some r) => [(.event, .text "@fail"), (.rule, .shown r.formula.text)]
  | .exhausted => [(.event, .text "@depth")]

/-- The fields that the span of a call is opened with. -/
def callFields (call : Call) : List (Field × FieldValue) :=
  [(.target, .shown call.target.text), (.depth, .number call.depth)]

/-- The instructions that signals stand for, when `opened` spans are open already: every call has
a span of its own. -/
def instructions (opened : Nat) : List Signal → List Instruction
  | [] => []
  | .enter call :: rest =>
    .openSpan (callFields call) :: .enter opened :: instructions (opened + 1) rest
  | .leave :: rest => .exit :: instructions opened rest
  | .note e :: rest => .event (eventFields e) :: instructions opened rest

end Logger

/-- The records of a fresh logger for the instructions. -/
def recordsOf (instructions : List Instruction) : List Record :=
  ({} : Logger).records instructions

/-- The records of a fresh logger for the signals of a run. -/
def recordsOfSignals [Typesetters] (signals : List Signal) : List Record :=
  recordsOf (Logger.instructions 0 signals)

end Deduction.Trace
