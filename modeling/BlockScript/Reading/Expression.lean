import BlockScript.Reading.Basic
import BlockScript.Reading.Literal
/-! Reading expressions: four levels of operators that associate to the left, over operands that are
literals, names, elements, calls and expressions in parentheses. -/
namespace BlockScript.Reader

/-- Take the next token if it is an operator of this level. -/
def acceptOperator (level : Operator.Level) : Reader (Option Operator) := do
  match ← peek with
  | some token =>
    if token.kind == .operator then
      match Operator.ofSymbol? token.text with
      | some op =>
        if op.level == level then
          skip
          return some op
        else return none
      | none => return none
    else return none
  | none => return none

/-- The operators of one level after a left operand, at most as many as there are tokens ahead. -/
def operators (level : Operator.Level) (operand : Reader Expr) (left : Expr) :
    List Token → Reader Expr
  | [] => return left
  | _ :: ahead => do
    match ← acceptOperator level with
    | some op =>
      let right ← operand
      operators level operand (.binary op left right none) ahead
    | none => return left

/-- Operands joined by the operators of one level. -/
def joined (level : Operator.Level) (operand : Reader Expr) : Reader Expr := do
  let left ← operand
  bounded (operators level operand left)

/-- Expressions separated by commas up to a closing token, at least one. -/
def items (item : Reader Expr) (closing : String) (cause : ReadError.Cause) :
    List Token → Reader (List Expr)
  | [] => throw .expectedExpression
  | _ :: ahead => do
    let first ← item
    if ← accept closing then return [first]
    else
      expect "," cause
      return first :: (← items item closing cause ahead)

/-- Expressions separated by commas after the opening token. -/
def arguments (item : Reader Expr) (closing : String) (cause : ReadError.Cause) :
    Reader (List Expr) := do
  if ← accept closing then return []
  else bounded (items item closing cause)

/-- What follows a name decides between a call, an element and a variable. -/
def named (expression : Reader Expr) (name : String) : Reader Expr := do
  if ← accept "(" then
    return .call name (← arguments expression ")" .expectedCloseParenthesis) none none
  else if ← accept "[" then
    let index ← expression
    expect "]" .expectedCloseBracket
    return .element name index none none
  else return .ref name none none

/-- Take the token of a literal whose text has a value. -/
def literal (value : Option Literal) (cause : ReadError.Cause) : Reader Expr :=
  match value with
  | some v => do
    skip
    return .literal v none
  | none => throw cause

/-- An operand. The only keywords among the operands are literals. -/
def operand (expression : Reader Expr) : Reader Expr := do
  match ← peek with
  | none => throw .expectedExpression
  | some token =>
    let cs := token.text.toList
    match token.kind with
    | .integer => literal ((Literal.readInteger? cs).map .integer) .invalidNumber
    | .decimal => literal ((Literal.readDecimal? cs).map .decimal) .invalidNumber
    | .character => literal ((Literal.readCharacter? cs).map .character) .invalidCharacter
    | .string => literal (some (.string (Literal.readString cs))) .invalidExpression
    | .identifier =>
      if token.is "NIL" then literal (some .nil) .invalidExpression
      else if token.is "TRUE" then literal (some (.boolean true)) .invalidExpression
      else if token.is "FALSE" then literal (some (.boolean false)) .invalidExpression
      else if token.isKeyword then throw .invalidExpression
      else
        skip
        named expression token.text
    | .operator =>
      if token.is "(" then
        skip
        let inner ← expression
        expect ")" .expectedCloseParenthesis
        return .group inner none
      else throw .invalidExpression

/-- One expression, given the rule for the expressions inside it. -/
def expressionRule (expression : Reader Expr) : Reader Expr :=
  joined .logical (joined .comparison (joined .additive (joined .multiplicative
    (operand expression))))

def expression : Reader Expr := bounded (recursive expressionRule)

end BlockScript.Reader
