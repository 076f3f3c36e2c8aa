import Deduction.Json.Quote

/-!
# Records

A record is what a logger keeps of one event of a derivation or a search.  It is written as a JSON
object with one member on a line, and members that are missing are left out.
-/

namespace Deduction.Trace

/-- What is kept of an event. -/
structure Record where
  /-- The name of the event. -/
  event : String
  /-- What was searched for. -/
  target : Option String
  /-- How many levels were left. -/
  depth : Option Nat
  /-- The rule that was tried. -/
  rule : Option String
  /-- The premises of the rule. -/
  premises : Option String
  /-- The derivation that was found or appended. -/
  provedTheorem : Option String
deriving DecidableEq

namespace Record

/-- The members of the record's JSON object, in order. -/
def members (r : Record) : List (String × String) :=
  let text (key : String) (value : Option String) :=
    (value.map fun s => (key, Json.quote s)).toList
  ("event", Json.quote r.event) :: text "target" r.target
    ++ (r.depth.map fun n => ("depth", toString n)).toList
    ++ text "rule" r.rule ++ text "premises" r.premises ++ text "theorem" r.provedTheorem

/-- The record as it is written, with the end of the line. -/
def text (r : Record) : String := Json.prettyObject r.members ++ "\n"

end Record

/-- The names of the events of a list of records, each with the number of its records, in the order
of first occurrence. -/
def eventCounts (records : List Record) : List (String × Nat) :=
  let names := records.map (·.event)
  names.eraseDups.map fun name => (name, names.count name)

end Deduction.Trace
