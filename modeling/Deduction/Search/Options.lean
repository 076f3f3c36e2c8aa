import Deduction.Error
import Deduction.Json.Document
import Deduction.Json.Quote

/-!
# Search options

The settings of a recursive search, with their JSON form.  They are read from an object, whose
other members are passed over, or from an array of the settings in order; what is missing keeps its
default.  A number of levels is written without sign, point and exponent and fits into 64 bits.
-/

namespace Deduction

/-- The settings of a recursive search. -/
structure Options where
  /-- The number of levels, that of the target included. -/
  maxDepth : Nat := 3
deriving DecidableEq

namespace Options

/-- The key of the number of levels. -/
def maxDepthKey : String := "max_depth"

/-- The options as a JSON object. -/
def toJson (o : Options) : String := Json.compactObject [(maxDepthKey, toString o.maxDepth)]

/-- The number of a JSON value, if it is a whole number of at most 64 bits. -/
def levels? : Json.Value → Option Nat
  | .number digits =>
    if digits.all Char.isDigit then
      let n := digits.foldl (fun n c => n * 10 + (c.toNat - '0'.toNat)) 0
      if n < UInt64.size then some n else none
    else none
  | _ => none

/-- The number of levels among the members of an object, where it may stand once.  Every key must
be a string of characters. -/
def levelsOfMembers? : List (List Json.Piece × Json.Value) → Option (Option Nat)
  | [] => some none
  | (key, value) :: rest => do
    let key ← Json.decode? key
    let later ← levelsOfMembers? rest
    if key = maxDepthKey.toList then
      match later with
      | some _ => none
      | none => return some (← levels? value)
    else return later

/-- The options that a JSON value stands for. -/
def ofValue? : Json.Value → Option Options
  | .object members => do
    match ← levelsOfMembers? members with
    | some n => return ⟨n⟩
    | none => return {}
  | .array [] => some {}
  | .array [value] => do return ⟨← levels? value⟩
  | _ => none

/-- Reads options from a JSON document. -/
def ofJson (text : String) : Except Error Options :=
  match Json.read? text >>= ofValue? with
  | some o => .ok o
  | none => .error .unreadableOptions

end Options

end Deduction
