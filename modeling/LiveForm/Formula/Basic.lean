import LiveForm.Formula.Evaluation
import LiveForm.Registry.Cache
import LiveForm.Text.Blank
import LiveForm.Value.Literal

/-!
# Formulas

A formula is written as words: an operator and its arguments, which are selectors and literals. Reading
it makes the node that it belongs to, its anchor, a consumer of the bindings of its selectors. Its value
is computed from the caches of these bindings and from the values of the cached fields.
-/

set_option autoImplicit false

namespace LiveForm

/-- An argument of a formula. -/
inductive Argument where
  | literal (v : Value)
  | selector (id : BindingId)

/-- A formula whose selectors are bound. -/
structure Formula where
  /-- The node that the formula belongs to. -/
  anchor : NodeId
  /-- The text that the formula was read from. -/
  expression : String
  operator : Operator
  args : List Argument

namespace Formula

/-- The bindings among some arguments, each one once, in the order of the arguments. -/
def bindingsOf (args : List Argument) : List BindingId :=
  (args.filterMap fun
    | .selector id => some id
    | .literal _ => none).eraseDups

/-- The bindings that the formula uses, each one once, in the order of the arguments. -/
def bindings (f : Formula) : List BindingId :=
  bindingsOf f.args

/-- Makes `consumer` a user of some bindings no longer. -/
def releaseAll (r : Registry) (ids : List BindingId) (consumer : NodeId) : Registry :=
  ids.foldl (fun r id => (r.release id consumer).2) r

/-- Makes the anchor a user of no binding any more. Returns the bindings that nobody else uses. -/
def release (f : Formula) (r : Registry) : List BindingId × Registry :=
  ((f.bindings.filter fun id => (r.release id f.anchor).1.isSome),
    releaseAll r f.bindings f.anchor)

/-- Reads the words behind the operator. The third argument holds the arguments read so far. If a selector
is at fault, the bindings of those arguments are given up again. -/
def parseArgs (t : FieldTree) (anchor : NodeId) (read : List Argument) :
    List String → EStateM FormError Registry (List Argument)
  | [] => pure read
  | word :: rest => fun r =>
    if Selector.isSelectorWord word then
      match r.acquire t word anchor anchor with
      | .error e => .error e (releaseAll r (bindingsOf read) anchor)
      | .ok ((id, _), r) => parseArgs t anchor (read ++ [.selector id]) rest r
    else parseArgs t anchor (read ++ [.literal (.ofLiteral word)]) rest r

/-- Reads an expression as the formula of the node `anchor`, which becomes a consumer of the bindings that
the formula uses. -/
def parse (t : FieldTree) (anchor : NodeId) (expression : String) :
    EStateM FormError Registry Formula :=
  match Text.words expression with
  | [] => throw (.emptyFormula (t.path anchor))
  | word :: rest =>
    match Operator.ofName? word with
    | none => throw (.unknownOperator word expression)
    | some operator => do
      let args ← parseArgs t anchor [] rest
      return { anchor, expression, operator, args }

/-- What an argument stands for, by the cache of its binding. There is nothing if the binding is
gone. -/
def operand? (r : Registry) (t : FieldTree) : Argument → Option Operand
  | .literal v => some (.literal v)
  | .selector id =>
    (r.get? id).map fun b => .column b.selector ((b.readings t).map t.authoritative?)

/-- The value of the formula by the caches of its bindings. -/
def evaluateCached (f : Formula) (r : Registry) (t : FieldTree) : Option Value :=
  (f.args.mapM (operand? r t)).bind f.operator.apply

/-- Brings the caches of some bindings up to date. -/
def refreshAll (r : Registry) (t : FieldTree) (ids : List BindingId) (mode : Refresh) : Registry :=
  ids.foldl (fun r id => (r.refresh t id mode).2) r

/-- Brings the caches of the formula's bindings up to date, and returns the value of the formula. -/
def evaluate (f : Formula) (r : Registry) (t : FieldTree) (mode : Refresh) :
    Option Value × Registry :=
  let r := refreshAll r t f.bindings mode
  (f.evaluateCached r t, r)

end Formula

/-- The value that an expression has for a node of a tree when nothing is known but the tree. There is
none if the expression is no formula. -/
def freshValue? (t : FieldTree) (anchor : NodeId) (expression : String) : Option Value :=
  match Formula.parse t anchor expression {} with
  | .ok f r => (f.evaluate r t .fromScratch).1
  | .error _ _ => none

end LiveForm
