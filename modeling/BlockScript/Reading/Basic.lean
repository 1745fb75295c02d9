import BlockScript.Token.Basic
/-! Rules that take tokens off the front of a list. A failed rule stops at the token it cannot go on
with, so a failure is placed by what is left. -/
namespace BlockScript

/-- What a rule misses or cannot use. -/
inductive ReadError.Cause where
  | globalAfterFunction
  | expectedDeclaration
  | expectedGlobal
  | expectedListName
  | expectedTypeName
  | expectedListEquals
  | expectedOpenBracket
  | expectedCloseBracket
  | expectedSemicolon
  | expectedVariableName
  | expectedValueName
  | expectedInitialValue
  | expectedFun
  | expectedFunctionName
  | expectedOpenParenthesis
  | expectedCloseParenthesis
  | expectedParameterName
  | expectedParameterColon
  | expectedParameterType
  | expectedParameterEnd
  | expectedFunctionDo
  | expectedFunctionEnd
  | expectedIfDo
  | expectedIfEnd
  | expectedElseEnd
  | expectedCaseColon
  | expectedDefault
  | expectedSwitchEnd
  | expectedWhileDo
  | expectedWhileEnd
  | expectedExpression
  | invalidExpression
  | invalidNumber
  | invalidCharacter
  /-- The receiver starts at the given byte. -/
  | invalidReceiver (start : Nat)
  deriving DecidableEq, Repr

def ReadError.Cause.message : ReadError.Cause → String
  | globalAfterFunction => "Globals cannot come after functions."
  | expectedDeclaration => "Expected global or function declaration."
  | expectedGlobal => "Expected LIST, VAR or VAL."
  | expectedListName => "Expected list name."
  | expectedTypeName => "Expected type name."
  | expectedListEquals => "Expected `=` after list name."
  | expectedOpenBracket => "Expected `[`."
  | expectedCloseBracket => "Expected `]`."
  | expectedSemicolon => "Expected `;`."
  | expectedVariableName => "Expected variable name."
  | expectedValueName => "Expected value name."
  | expectedInitialValue => "Expected `=`, a VAL must be initialized."
  | expectedFun => "Expected FUN."
  | expectedFunctionName => "Expected function name."
  | expectedOpenParenthesis => "Expected `(`."
  | expectedCloseParenthesis => "Expected `)`."
  | expectedParameterName => "Expected parameter name."
  | expectedParameterColon => "Expected `:` after parameter name."
  | expectedParameterType => "Expected parameter type."
  | expectedParameterEnd => "Expected `,` or `)`."
  | expectedFunctionDo => "Expected function DO."
  | expectedFunctionEnd => "Expected function END."
  | expectedIfDo => "Expected if DO."
  | expectedIfEnd => "Expected if END."
  | expectedElseEnd => "Expected if else END."
  | expectedCaseColon => "Expected case `:`."
  | expectedDefault => "Expected switch DEFAULT."
  | expectedSwitchEnd => "Expected switch END."
  | expectedWhileDo => "Expected while DO."
  | expectedWhileEnd => "Expected while END."
  | expectedExpression => "Expected expression."
  | invalidExpression => "Invalid expression."
  | invalidNumber => "Invalid number literal."
  | invalidCharacter => "Invalid character literal."
  | invalidReceiver _ => "Invalid assignment receiver."

/-- A violated rule and the byte where it is noticed. -/
structure ReadError where
  cause : ReadError.Cause
  offset : Nat
  deriving DecidableEq, Repr

def ReadError.message (e : ReadError) : String := s!"offset {e.offset}: {e.cause.message}"

/-- A rule: it takes tokens, and on failure leaves the one it could not use in front. -/
abbrev Reader := EStateM ReadError.Cause (List Token)

namespace Reader

/-- The next token, left in place. -/
def peek : Reader (Option Token) := do return (← get).head?

/-- Whether the next token has this text, left in place. -/
def at? (text : String) : Reader Bool := do return (← peek).any (·.is text)

def skip : Reader Unit := modify List.tail

/-- Take the next token if it has this text. -/
def accept (text : String) : Reader Bool := do
  if ← at? text then
    skip
    return true
  else return false

/-- Take the next token, which must have this text. -/
def expect (text : String) (cause : ReadError.Cause) : Reader Unit := do
  unless ← accept text do throw cause

/-- Take a name, which is an identifier but no keyword. -/
def expectName (cause : ReadError.Cause) : Reader String := do
  match ← peek with
  | some token =>
    if token.isName then
      skip
      return token.text
    else throw cause
  | none => throw cause

/-- A rule that repeats or refers to itself at most once for each token that is left. -/
def bounded {α : Type} (rule : List Token → Reader α) : Reader α := do rule (← get)

/-- A rule that refers to itself. It does so only after it took a token, so when the bound is used up
no token is left, and there is no expression either. -/
def recursive {α : Type} (rule : Reader α → Reader α) : List Token → Reader α
  | [] => throw .expectedExpression
  | _ :: ahead => rule (recursive rule ahead)

/-- The byte at which a failure is reported: the next token's first, or the last token's end. -/
def offsetOf (stop : Nat) (cause : ReadError.Cause) (rest : List Token) : Nat :=
  match cause, rest with
  | .invalidReceiver start, _ => start
  | _, token :: _ => token.offset
  | _, [] => stop

/-- Apply a rule to what is left of a token list that ends at the given byte. -/
def runFrom {α : Type} (stop : Nat) (rule : Reader α) (rest : List Token) :
    Except ReadError (α × List Token) :=
  match rule rest with
  | .ok value rest' => .ok (value, rest')
  | .error cause rest' => .error ⟨cause, offsetOf stop cause rest'⟩

end Reader

/-- The end of the last token. -/
def Token.lastStop (tokens : List Token) : Nat := (tokens.getLast?.map Token.stop).getD 0

/-- Apply a rule to a token list. -/
def Reader.run {α : Type} (rule : Reader α) (tokens : List Token) :
    Except ReadError (α × List Token) :=
  rule.runFrom (Token.lastStop tokens) tokens

end BlockScript
