import Deduction.Formula.Basic

/-!
# The text of a formula

A formula is written from the texts of its terms, in the style of its connective.  One style looks
a level deeper: a map pairs the terms of its domain with those of its codomain.  So writing a
formula yields a `Rendering`, which keeps the texts of the terms beside the text of the whole.

A style that asks for a certain number of terms gives way to the classical one when the formula
has another number.

A connective may also have a style from outside of the library.  What is written in such styles is
given by `Typesetters`, which is a parameter of all texts; a typesetter sees the whole formula, and
nothing is assumed about what it makes of it.
-/

namespace Deduction

/-- What is written for formulas whose style is from outside of the library. -/
class Typesetters where
  /-- The text of a formula in the style of the given number. -/
  typeset : Nat → Formula → String

/-- The text of a formula together with the texts of its terms. -/
structure Rendering where
  /-- The text of the formula. -/
  text : String
  /-- The texts of its terms. -/
  terms : List String

/-- Texts separated by commas. -/
def commaSeparated (texts : List String) : String := ", ".intercalate texts

namespace Connective

/-- The label alone if the connective takes no terms, and otherwise the label followed by the
terms in parentheses. -/
def classicalLayout (c : Connective) (terms : List String) : String :=
  if c.arity.max = some 0 then c.label else s!"{c.label}({commaSeparated terms})"

/-- The layout of a structural kind, on a connective `c` that may be a declared one. -/
def structuredLayout (c : Connective) : Structure → List Rendering → String
  | .sequence, ts => s!"({commaSeparated (ts.map (·.text))})"
  | .enumeration, ts => "\x7b" ++ commaSeparated (ts.map (·.text)) ++ "\x7d"
  | .map, [domain, codomain] =>
    "\x7b" ++ commaSeparated (List.zipWith (· ++ " ↦ " ++ ·) domain.terms codomain.terms) ++ "\x7d"
  | .transformation, [conclusion, _, premises] => premises.text ++ " ⊢ " ++ conclusion.text
  | .statedAxiom, [statement] => "⊢ " ++ statement.text
  | .inferenceRule, [transformation] => "rule " ++ transformation.text
  | .inference, [rule, premises] => premises.text ++ " via " ++ rule.text
  | .provedTheorem, [statement, inference] => s!"⊢ {statement.text} [{inference.text}]"
  | .theory, ts =>
    Structure.theory.label ++ "\x7b" ++ commaSeparated (ts.map (·.text)) ++ "\x7d"
  | .axiomatization, ts =>
    Structure.axiomatization.label ++ "\x7b" ++ commaSeparated (ts.map (·.text)) ++ "\x7d"
  | _, ts => c.classicalLayout (ts.map (·.text))

/-- The text of the formula of connective `c` on `ts`, which are written as `terms` says. -/
def layout [Typesetters] (c : Connective) (ts : List Formula) (terms : List Rendering) : String :=
  match c.style, terms with
  | .custom typesetter, _ => Typesetters.typeset typesetter (.node c ts)
  | .infixed symbol, [left, right] => s!"({left.text} {symbol} {right.text})"
  | .prefixed symbol, [term] => symbol ++ term.text
  | .structured kind, ts => c.structuredLayout kind ts
  | _, ts => c.classicalLayout (ts.map (·.text))

end Connective

namespace Formula

variable [Typesetters]

mutual

/-- Writes a formula after its terms. -/
def render : Formula → Rendering
  | .node c ts =>
    let terms := renderList ts
    ⟨c.layout ts terms, terms.map (·.text)⟩

/-- Writes the formulas of a list. -/
def renderList : List Formula → List Rendering
  | [] => []
  | t :: ts => t.render :: renderList ts

end

/-- The text of a formula. -/
def text (φ : Formula) : String := φ.render.text

theorem renderList_eq_map (ts : List Formula) : renderList ts = ts.map render := by
  induction ts with
  | nil => rfl
  | cons t ts ih => simp [renderList, ih]

/-- The text of a formula is its connective's layout of its terms. -/
theorem text_node (c : Connective) (ts : List Formula) :
    (node c ts).text = c.layout ts (ts.map render) := by
  simp [text, render, renderList_eq_map]

end Formula

end Deduction
