import BlockScript.Value.Basic
/-! Why an operation has no value. -/
namespace BlockScript

inductive RunError where
  | scope (error : NameError)
  | immutableAssignment (name : String)
  | indexOutOfRange (index : Int) (length : Nat)
  | divisionByZero
  | typeMismatch (expected received : Value.Kind)
  | invalidOperands (op : Operator) (left right : Value.Kind)
  /-- An operand of a power outside the 32-bit range. -/
  | narrowing (value : Int)
  | invalidReceiver
  /-- The sink takes no more. -/
  | output
  deriving DecidableEq, Repr

def RunError.message : RunError → String
  | scope error => error.message
  | immutableAssignment name => s!"Cannot assign to immutable variable `{name}`."
  | indexOutOfRange index length => s!"Index {index} is out of range for a list of length {length}."
  | divisionByZero => "Cannot divide by zero."
  | typeMismatch expected received =>
    s!"Expected type {expected.render}, received {received.render}."
  | invalidOperands op left right =>
    s!"Invalid binary operation: {left.render} {op.symbol} {right.render}"
  | narrowing value => s!"Integer {value} does not fit in 32 bits."
  | invalidReceiver => "Assignment receiver must be a variable or a list element."
  | output => "Failed write output: sink full"

end BlockScript
