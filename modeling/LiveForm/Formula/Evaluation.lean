import LiveForm.Formula.Operand
import LiveForm.Formula.Operator

/-!
# What the operators compute

Each operator is a function of its operands. Where an operator cannot be applied, because an operand is
missing, unknown or of the wrong kind, there is no result; this is no error.
-/

set_option autoImplicit false

namespace LiveForm

/-- Adds up terms, each of which is a number or a truth value. A truth value says whether the number
right behind it counts. The first argument is the sum so far, the second one says whether the next
number counts. -/
def sumFrom (total : Number) (counts : Bool) : List Term → Option Number
  | [] => some total
  | term :: rest =>
    match Term.bool? term with
    | some toggle => sumFrom total toggle rest
    | none =>
      match Term.number? term with
      | some n => sumFrom (if counts then total.add n else total) true rest
      | none => none

/-- The sum of terms, in which truth values switch numbers on and off. -/
def sumTerms (terms : List Term) : Option Number :=
  sumFrom (.int 0) true terms

/-- The product of a number and of terms that are all numbers. -/
def productFrom (product : Number) : List Term → Option Number
  | [] => some product
  | term :: rest =>
    match Term.number? term with
    | some n => productFrom (product.mul n) rest
    | none => none

/-- Adds to a number the values of one column, each of them multiplied unless the condition beside it
holds. -/
def conditionalSumFrom (factor total : Number) : List (Term × Term) → Option Number
  | [] => some total
  | (condition, value) :: rest =>
    match Term.bool? condition, Term.number? value with
    | some holds, some n =>
      conditionalSumFrom factor (total.add (if holds then n else n.mul factor)) rest
    | _, _ => none

/-- Adds to a number how often the two given values stand side by side. The second column is not looked
at where the first one differs. -/
def countPairsFrom (first second : Value) (count : Nat) : List (Term × Term) → Option Nat
  | [] => some count
  | (none, _) :: _ => none
  | (some a, b) :: rest =>
    if a == first then
      match b with
      | none => none
      | some b => countPairsFrom first second (if b == second then count + 1 else count) rest
    else countPairsFrom first second count rest

/-- Cuts a list of terms into two columns of the same length, and puts these side by side. -/
def columns? (terms : List Term) : Option (List (Term × Term)) :=
  if terms.length % 2 = 0 then
    some ((terms.take (terms.length / 2)).zip (terms.drop (terms.length / 2)))
  else none

/-- Limits a quotient as its mode says: not at all, to what is not negative, or to what is not
positive. -/
def limitQuotient? (mode : String) (q : Int64) : Option Int64 :=
  if mode = "any" then some q
  else if mode = "pos" then some (if q < 0 then 0 else q)
  else if mode = "neg" then some (if 0 < q then 0 else q)
  else none

/-- The sizes of creatures, and the modifier that goes with each. -/
def sizeModifiers : List (String × Int64) :=
  [("fine", 8), ("diminutive", 4), ("tiny", 2), ("small", 1), ("medium", 0), ("large", -1),
   ("huge", -2), ("gargantuan", -4), ("colossal", -8)]

/-- The modifier of a size, whose name may be written in upper case. -/
def sizeModifier? (size : String) : Option Int64 :=
  sizeModifiers.lookup size.toLower

namespace Operator

/-- The sum. If the first operand is the word `trunc`, the sum of the others is truncated. -/
def applySum (operands : List Operand) : Option Value :=
  match operands with
  | .literal (.text word) :: rest =>
    if word.toLower = "trunc" then
      (sumTerms (Operand.flatten rest)).map fun total => .ofNumber total.truncate
    else (sumTerms (Operand.flatten operands)).map .ofNumber
  | _ => (sumTerms (Operand.flatten operands)).map .ofNumber

/-- The product. -/
def applyMul (operands : List Operand) : Option Value :=
  (productFrom (.int 1) (Operand.flatten operands)).map .ofNumber

/-- A mode, a divisor and a sum: the floor of the quotient, limited as the mode says. -/
def applyMod : List Operand → Option Value
  | mode :: divisor :: terms => do
    let mode ← Term.text? mode.single?
    let divisor ← Term.number? divisor.single?
    let total ← sumTerms (Operand.flatten terms)
    match total.floorDiv? divisor with
    | some (.int q) => (limitQuotient? mode q).map .int
    | _ => none
  | _ => none

/-- The only term. -/
def applyRef (operands : List Operand) : Option Value :=
  match Operand.flatten operands with
  | [only] => only
  | _ => none

/-- The value of the first selector that ends with a name, or the default if none does. A literal among
the selectors ends the search without a result. -/
def selectByName (name : String) (default : Operand) : List Operand → Option Value
  | [] => default.single?
  | .literal _ :: _ => none
  | .column selector values :: rest =>
    if selector.endsWithName name then (Operand.column selector values).single?
    else selectByName name default rest

/-- A name, a default and selectors: the value of the selector that ends with the name. -/
def applySel : List Operand → Option Value
  | key :: default :: candidates =>
    (Term.text? key.single?).bind fun name => selectByName name default candidates
  | _ => none

/-- A factor and two columns: the sum of the second one, in which the factor applies to those values that
have `false` beside them. -/
def applyCondSumMul : List Operand → Option Value
  | factor :: rest => do
    let factor ← Term.number? factor.single?
    let pairs ← columns? (Operand.flatten rest)
    (conditionalSumFrom factor (.int 0) pairs).map .ofNumber
  | _ => none

/-- Two values and two columns: how often the values stand side by side. -/
def applyCountSpells : List Operand → Option Value
  | level :: status :: rest => do
    let level ← level.single?
    let status ← status.single?
    let pairs ← columns? (Operand.flatten rest)
    (countPairsFrom level status 0 pairs).map fun count => .int (Int64.ofNat count)
  | _ => none

/-- The modifier that goes with a size. -/
def applySizeMod : List Operand → Option Value
  | [size] => ((Term.text? size.single?).bind sizeModifier?).map .int
  | _ => none

/-- The value of an operator for its operands. -/
def apply : Operator → List Operand → Option Value
  | sum => applySum
  | mul => applyMul
  | mod => applyMod
  | ref => applyRef
  | sel => applySel
  | condSumMul => applyCondSumMul
  | countSpells => applyCountSpells
  | sizeMod => applySizeMod

end Operator

end LiveForm
