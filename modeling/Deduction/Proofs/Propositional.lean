import Deduction.Theory.Axiomatization

/-!
# A propositional system

Implication and conjunction over a few atoms, with the rules of detachment and of joining two
statements.  The general theorems of the library are applied to it, each at an input that meets its
hypotheses.  Two small theories beside it do not keep the variables of rules apart from the atoms of
statements and premises.
-/

namespace Deduction

namespace Propositional

/-- No connective here has a style from outside, and any typesetters will do. -/
scoped instance : Typesetters := ⟨fun _ φ => φ.connective.label⟩

/-- An atom. -/
def atom (identity : Nat) (label : String) : Formula := .node (.ofArity identity label 0) []

def p : Formula := atom 0 "P"
def q : Formula := atom 1 "Q"
def r : Formula := atom 2 "R"
def x : Formula := atom 3 "x"
def y : Formula := atom 4 "y"
def s : Formula := atom 7 "S"

/-- The implication from `φ` to `ψ`. -/
def implies (φ ψ : Formula) : Formula := .node (.binaryOperator 5 "implies" "⊃") [φ, ψ]

/-- The conjunction of `φ` and `ψ`. -/
def both (φ ψ : Formula) : Formula := .node (.binaryOperator 6 "and" "∧") [φ, ψ]

/-- Three formulas are sent elsewhere, and each but the first lies inside the one before it. -/
def nested : Map :=
  .ofDistinct [(implies (both p q) q, x), (both p q, y), (p, both x q)] (by decide)

/-- Each key of `nested` occurs here outside of the others. -/
def overlapped : Formula := both (implies (both p q) q) (implies (both p q) p)

/-- From an implication and its first part follows the second. -/
def detachment : InferenceRule where
  transformation := {
    premises := ⟨[implies x y, x]⟩
    conclusion := y
    vars := ⟨[x, y], by decide⟩
    atomic := by decide }

/-- From an implication of `φ` and its first part follows `φ`. -/
def detachmentOf (φ : Formula) : InferenceRule where
  transformation := {
    premises := ⟨[implies x φ, x]⟩
    conclusion := φ
    vars := ⟨[x], by decide⟩
    atomic := by decide }

/-- What `φ` implies follows, so that `φ` counts as given. -/
def discharge (φ : Formula) : InferenceRule where
  transformation := {
    premises := ⟨[implies φ x]⟩
    conclusion := x
    vars := ⟨[x], by decide⟩
    atomic := by decide }

/-- From two statements follows their conjunction. -/
def joining : InferenceRule where
  transformation := {
    premises := ⟨[x, y]⟩
    conclusion := both x y
    vars := ⟨[x, y], by decide⟩
    atomic := by decide }

/-- From a statement, given twice, follows its conjunction with the variable `y`, which no premise
binds. -/
def weakening : InferenceRule where
  transformation := {
    premises := ⟨[x, x]⟩
    conclusion := both x y
    vars := ⟨[x, y], by decide⟩
    atomic := by decide }

/-- From a conjunction whose first part is the atom `r` follows its second part. -/
def projection : InferenceRule where
  transformation := {
    premises := ⟨[both r x]⟩
    conclusion := x
    vars := ⟨[x], by decide⟩
    atomic := by decide }

/-- From a statement follows its conjunction with itself.  The atom `r` is the variable. -/
def doubling : InferenceRule where
  transformation := {
    premises := ⟨[r]⟩
    conclusion := both r r
    vars := ⟨[r], by decide⟩
    atomic := by decide }

/-- Two atoms and an implication are given, with detachment and joining. -/
def axiomatization : Axiomatization where
  derivations :=
    [.stated ⟨p⟩, .stated ⟨q⟩, .stated ⟨implies q r⟩, .rule detachment, .rule joining]
  nodup := by decide
  axiomatic := by decide

/-- The variable of a rule is given as an axiom. -/
def openAxiom : Axiomatization where
  derivations := [.stated ⟨x⟩, .rule detachment]
  nodup := by decide
  axiomatic := by decide

/-- One rule has an atom in its premise that is the variable of the other. -/
def crossed : Axiomatization where
  derivations := [.stated ⟨p⟩, .rule projection, .rule doubling]
  nodup := by decide
  axiomatic := by decide

/-- There are two ways to the atom `p`.  The one by `r` is tried first and takes three steps.  The
one by `s` takes two and passes a statement that implies the atom `q`. -/
def detour : Axiomatization where
  derivations :=
    [.stated ⟨implies r (implies r (implies r p))⟩, .stated ⟨implies s (implies s p)⟩,
      .stated ⟨implies (implies s p) q⟩, .rule (discharge r), .rule (discharge s),
      .rule (detachmentOf q), .rule joining]
  nodup := by decide
  axiomatic := by decide

/-- Three statements have to be detached one after the other to get to the atom `p`. -/
def chain : Axiomatization where
  derivations := [.stated ⟨r⟩, .stated ⟨implies r (implies r (implies r p))⟩, .rule detachment]
  nodup := by decide
  axiomatic := by decide

/-- The implication and its first part are detached. -/
def detached : Theorem := ⟨r, ⟨detachment, ⟨[implies q r, q]⟩⟩, rfl⟩

/-- What was detached is joined with an axiom. -/
def joined : Theorem := ⟨both r p, ⟨joining, ⟨[r, p]⟩⟩, rfl⟩

/-- The system with two theorems, the second of which cites the first. -/
def developed : Theory :=
  (axiomatization.theory.extend [.proved detached, .proved joined]).toOption.get (by decide)

end Propositional

end Deduction
