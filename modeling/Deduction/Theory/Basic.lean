import Deduction.Signature
import Deduction.Theory.Acceptance

/-!
# Theories

A theory is an accepted list of derivations.  It never changes: extending it yields a new theory
that starts with the derivations of the old one, and only what is new has to be checked
(`Accepted.extend`).
-/

namespace Deduction

/-- A list of derivations in which every theorem cites what stands before it. -/
structure Theory where
  /-- The derivations in order. -/
  derivations : List Derivation
  /-- The list is accepted. -/
  accepted : Accepted derivations
deriving DecidableEq

/-- An accepted list stays accepted when it is continued without duplicates and the check of the
continuation succeeds. -/
theorem Accepted.extend {base ds : List Derivation} (h : Accepted base) (hbase : base <+: ds)
    (hnodup : ds.Nodup) (hcheck : checkFrom ds base.length (ds.drop base.length) = .ok ()) :
    Accepted ds where
  nodup := hnodup
  cites i t hi := by
    obtain ⟨rest, rfl⟩ := hbase
    by_cases hlt : i < base.length
    · rw [List.getElem?_append_left hlt] at hi
      rw [List.take_append_of_le_length (Nat.le_of_lt hlt)]
      exact h.cites i t hi
    · have hle : base.length ≤ i := Nat.le_of_not_lt hlt
      have hrest := checkFrom_eq_ok_iff.mp hcheck (i - base.length) t
      rw [Nat.add_sub_cancel' hle] at hrest
      apply hrest
      rw [List.drop_left, ← hi, List.getElem?_append_right hle]

namespace Theory

@[ext] theorem ext {s t : Theory} (h : s.derivations = t.derivations) : s = t := by
  cases s; cases t; simp_all

/-- The theory without derivations. -/
def empty : Theory := ⟨[], accepted_nil⟩

/-- The theory of a list of derivations, refused if one repeats or a theorem cites what does not
stand before it. -/
def ofList (ds : List Derivation) : Except Error Theory :=
  match henumerate : Derivation.enumerate ds with
  | .error e => .error e
  | .ok _ =>
    match hcheck : checkFrom ds 0 ds with
    | .error e => .error e
    | .ok () =>
      .ok ⟨ds, accepted_nil.extend List.nil_prefix (nodup_of_enumerate henumerate) hcheck⟩

/-- The derivations of `ds` that the theory does not have, in order and without duplicates. -/
def newIn (T : Theory) (ds : List Derivation) : List Derivation :=
  (appendNew T.derivations ds).drop T.derivations.length

/-- The theory followed by the derivations of `ds` that it does not have.  All of them are
enumerated, and only the new ones are checked. -/
def extend (T : Theory) (ds : List Derivation) : Except Error Theory :=
  match henumerate : Derivation.enumerate (appendNew T.derivations ds) with
  | .error e => .error e
  | .ok _ =>
    match hcheck : checkFrom (appendNew T.derivations ds) T.derivations.length (T.newIn ds) with
    | .error e => .error e
    | .ok () =>
      .ok ⟨appendNew T.derivations ds, T.accepted.extend (prefix_appendNew T.derivations ds)
        (nodup_of_enumerate henumerate) hcheck⟩

/-- The theory `S` followed by the derivations of `T` that it does not have. -/
def union (S T : Theory) : Except Error Theory := S.extend T.derivations

/-! ## Contents -/

/-- The axioms in order. -/
def axioms (T : Theory) : List Axiom :=
  T.derivations.filterMap fun
    | .stated a => some a
    | _ => none

/-- The inference rules in order. -/
def rules (T : Theory) : List InferenceRule :=
  T.derivations.filterMap fun
    | .rule r => some r
    | _ => none

/-- The theorems in order. -/
def theorems (T : Theory) : List Theorem :=
  T.derivations.filterMap fun
    | .proved t => some t
    | _ => none

/-- What the axioms and theorems state, in order. -/
def validStatements (T : Theory) : List Formula := T.derivations.filterMap (·.statement?)

/-- An axiom or a theorem states `φ`. -/
def IsValid (T : Theory) (φ : Formula) : Prop := φ ∈ T.validStatements

instance (T : Theory) (φ : Formula) : Decidable (T.IsValid φ) :=
  inferInstanceAs (Decidable (_ ∈ _))

/-- The first derivation that states `φ`. -/
def justification? (T : Theory) (φ : Formula) : Option Derivation :=
  T.derivations.find? fun d => d.statement? = some φ

/-! ## As formulas -/

/-- The formula that stands for the theory. -/
def formula (T : Theory) : Formula := .structural .theory (T.derivations.map (·.formula))

/-- The derivations, one on a line. -/
def text [Typesetters] (T : Theory) : String :=
  "\n".intercalate (T.derivations.map (·.formula.text))

/-- The signature of the connectives of the theory. -/
def signature (T : Theory) : Except SyntaxError Signature := Signature.ofFormula T.formula

/-- Reads a theory from its formula. -/
def ofFormula : Formula → Except Error Theory
  | .node (.structural .theory) ts => do ofList (← Derivation.ofFormulas ts)
  | φ => .error (.ofFormulas (.unreadable (.object .theory) φ))

end Theory

end Deduction
