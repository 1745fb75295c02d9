import BlockScript.Frame
import BlockScript.Operator
import BlockScript.Ty
/-! Why a program is rejected, and where. -/
namespace BlockScript

inductive TypeError.Cause where
  | missingMain
  | unknownType (name : String)
  | mismatch (expected received : Ty)
  | missingTypeOrValue (name : String)
  | integerOutOfRange (text : String)
  | decimalOutOfRange (text : String)
  | notAList (name : String)
  | emptyList
  | emptyThenBlock
  | finalCaseNotDefault
  | defaultNotLast
  | immutableAssignment (name : String)
  | invalidReceiver
  | invalidOperands (op : Operator) (left right : Ty)
  | resultMismatch (expected received : Ty)
  | scope (error : NameError)
  deriving DecidableEq, Repr

def TypeError.Cause.message : TypeError.Cause → String
  | missingMain => "A main/0 function returning Integer is required."
  | unknownType name => s!"Unknown type `{name}`."
  | mismatch expected received => s!"Expected type {expected.render}, received {received.render}."
  | missingTypeOrValue name => s!"Declaration of `{name}` needs a type or an initial value."
  | integerOutOfRange text => s!"Integer literal {text} does not fit in 32 bits."
  | decimalOutOfRange text => s!"Decimal literal {text} does not fit in a 64-bit float."
  | notAList name => s!"`{name}` is not a list."
  | emptyList => "Cannot infer the element type of an empty list."
  | emptyThenBlock => "IF statement requires at least one statement in its DO block."
  | finalCaseNotDefault => "The final case must be the DEFAULT case with no value."
  | defaultNotLast => "Only the final case may omit its value."
  | immutableAssignment name => s!"Cannot assign to immutable variable `{name}`."
  | invalidReceiver => "Assignment receiver must be a variable or a list element."
  | invalidOperands op left right =>
    s!"Invalid operands for `{op.symbol}`: {left.render} and {right.render}."
  | resultMismatch expected received =>
    s!"Function returns {expected.render}, but RETURN gives {received.render}."
  | scope error => error.message

/-- The causes that two types alone make; their message needs the place. -/
def TypeError.Cause.isUnplaced : TypeError.Cause → Bool
  | mismatch .. | invalidOperands .. | resultMismatch .. => true
  | _ => false

/-- A cause and, where the cause does not name it, the text of the node at fault. -/
structure TypeError where
  cause : TypeError.Cause
  node : Option String
  deriving DecidableEq, Repr

namespace TypeError

def of (cause : Cause) : TypeError := ⟨cause, none⟩

def message (e : TypeError) : String :=
  match e.node with
  | some node => s!"{e.cause.message} In `{node}`."
  | none => e.cause.message

/-- The error seen from an enclosing node: the innermost node that is offered is kept. -/
def within (e : TypeError) (node : String) : TypeError :=
  if e.cause.isUnplaced && e.node.isNone then { e with node := some node } else e

end TypeError

/-- A result of checking. -/
abbrev Checked := Except TypeError

namespace Checked

def fail {α : Type} (cause : TypeError.Cause) : Checked α := .error (.of cause)

/-- A result whose error is placed at a node, unless it has a place. -/
def within {α : Type} (node : Unit → String) (r : Checked α) : Checked α :=
  match r with
  | .ok a => .ok a
  | .error e => .error (e.within (node ()))

def ofNames {α : Type} (r : Except NameError α) : Checked α :=
  match r with
  | .ok a => .ok a
  | .error e => fail (.scope e)

end Checked
end BlockScript
