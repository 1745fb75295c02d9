/-! Binary operators, their symbols and how tightly they bind. -/
namespace BlockScript

inductive Operator where
  | and
  | or
  | less
  | lessEqual
  | greater
  | greaterEqual
  | equal
  | notEqual
  | add
  | subtract
  | multiply
  | divide
  | power
  deriving DecidableEq, Repr

namespace Operator

/-- Operators of one level associate to the left. -/
inductive Level where
  | logical
  | comparison
  | additive
  | multiplicative
  deriving DecidableEq, Repr

def symbol : Operator → String
  | and => "&&"
  | or => "||"
  | less => "<"
  | lessEqual => "<="
  | greater => ">"
  | greaterEqual => ">="
  | equal => "=="
  | notEqual => "!="
  | add => "+"
  | subtract => "-"
  | multiply => "*"
  | divide => "/"
  | power => "^"

def ofSymbol? : String → Option Operator
  | "&&" => some and
  | "||" => some or
  | "<" => some less
  | "<=" => some lessEqual
  | ">" => some greater
  | ">=" => some greaterEqual
  | "==" => some equal
  | "!=" => some notEqual
  | "+" => some add
  | "-" => some subtract
  | "*" => some multiply
  | "/" => some divide
  | "^" => some power
  | _ => none

def level : Operator → Level
  | and | or => .logical
  | less | lessEqual | greater | greaterEqual | equal | notEqual => .comparison
  | add | subtract => .additive
  | multiply | divide | power => .multiplicative

/-- The comparisons that need an order. -/
def isOrdering : Operator → Bool
  | less | lessEqual | greater | greaterEqual => true
  | _ => false

theorem ofSymbol?_symbol (op : Operator) : ofSymbol? op.symbol = some op := by
  cases op <;> rfl

end Operator
end BlockScript
