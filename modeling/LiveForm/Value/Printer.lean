import LiveForm.Decimal.Shortest
import LiveForm.Text.Quoted
import LiveForm.Value.Basic

/-!
# The text of a value
-/

set_option autoImplicit false

namespace LiveForm.Value

/-- The text that stands for a value in listings. -/
def render : Value → String
  | void => "void"
  | bool true => "true"
  | bool false => "false"
  | int i => toString i.toInt
  | real r => Decimal.render r
  | text s => Text.quoted s

end LiveForm.Value
