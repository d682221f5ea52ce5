import LiveForm.Selector.Basic
import LiveForm.Value.Basic

/-!
# Operands

The arguments of a formula once its selectors have been read. An operand is one value or a column of
them, and an operator reads it in one of two ways: as exactly one value, or as a list of terms of which
each may be missing. A void value counts as missing in both.
-/

set_option autoImplicit false

namespace LiveForm

/-- An argument of a formula, ready to be computed with. -/
inductive Operand where
  | literal (v : Value)
  /-- The values of the fields that a selector stands for, in match order. The value of a field may not
  be known. -/
  | column (selector : Selector) (values : List (Option Value))

/-- What a formula computes with: a value, or the knowledge that there is none. -/
abbrev Term := Option Value

namespace Operand

/-- The terms that an operand stands for. -/
def terms : Operand → List Term
  | literal v => [v.nonVoid?]
  | column _ values => values.map (·.bind Value.nonVoid?)

/-- The value of an operand that stands for a single one. -/
def single? (o : Operand) : Option Value :=
  match o.terms with
  | [only] => only
  | _ => none

/-- The terms that a list of operands stands for, one operand after the other. -/
def flatten (operands : List Operand) : List Term :=
  operands.flatMap terms

end Operand

namespace Term

/-- The term as a truth value. -/
def bool? (t : Term) : Option Bool :=
  t.bind Value.asBool?

/-- The term as a number. -/
def number? (t : Term) : Option Number :=
  t.bind Value.asNumber?

/-- The term as a text. -/
def text? (t : Term) : Option String :=
  t.bind Value.asText?

end Term

end LiveForm
