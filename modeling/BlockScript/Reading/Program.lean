import BlockScript.Reading.Expression
/-! Reading statements, globals, functions and programs. Keywords and punctuation are told by their
text, whatever the class of the token. -/
namespace BlockScript.Reader

/-- The keywords that end a block; the rule that opened it takes them. -/
def blockEnds : List String := ["END", "ELSE", "CASE", "DEFAULT"]

/-- The annotation of a name with a type. -/
def typeName? : Reader (Option String) := do
  if ← accept ":" then return some (← expectName .expectedTypeName) else return none

def initial? : Reader (Option Expr) := do
  if ← accept "=" then return some (← expression) else return none

/-- Statements up to a keyword that ends the block or the end of the input. -/
def statements (statement : Reader Stmt) : List Token → Reader (List Stmt)
  | [] => return []
  | _ :: ahead => do
    match ← peek with
    | some token =>
      if blockEnds.contains token.text then return []
      else
        let first ← statement
        return first :: (← statements statement ahead)
    | none => return []

def blockOf (statement : Reader Stmt) : Reader (List Stmt) := bounded (statements statement)

/-- A declaration after `LET`. -/
def declaration : Reader Stmt := do
  let name ← expectName .expectedVariableName
  let typeName ← typeName?
  let value ← initial?
  expect ";" .expectedSemicolon
  return .declaration name typeName value none

/-- A condition after `IF`, with its blocks. -/
def ifElse (block : Reader (List Stmt)) : Reader Stmt := do
  let condition ← expression
  expect "DO" .expectedIfDo
  let thenBlock ← block
  if ← accept "ELSE" then
    let elseBlock ← block
    expect "END" .expectedElseEnd
    return .ifElse condition thenBlock elseBlock
  else
    expect "END" .expectedIfEnd
    return .ifElse condition thenBlock []

/-- The arms of a switch; the last is the default. -/
def cases (block : Reader (List Stmt)) : List Token → Reader (List Case)
  | [] => throw .expectedDefault
  | _ :: ahead => do
    if ← accept "CASE" then
      let value ← expression
      expect ":" .expectedCaseColon
      let body ← block
      return .mk (some value) body :: (← cases block ahead)
    else
      expect "DEFAULT" .expectedDefault
      return [.mk none (← block)]

/-- A switch after `SWITCH`. -/
def switch (block : Reader (List Stmt)) : Reader Stmt := do
  let condition ← expression
  let arms ← bounded (cases block)
  expect "END" .expectedSwitchEnd
  return .switch condition arms

/-- A loop after `WHILE`. -/
def loop (block : Reader (List Stmt)) : Reader Stmt := do
  let condition ← expression
  expect "DO" .expectedWhileDo
  let body ← block
  expect "END" .expectedWhileEnd
  return .loop condition body

/-- An expression or, before an equals sign, the receiver of an assignment. -/
def expressionOrAssignment : Reader Stmt := do
  let start := ((← peek).map Token.offset).getD 0
  let first ← expression
  if ← at? "=" then
    if first.receiver?.isNone then throw (.invalidReceiver start)
    skip
    let value ← expression
    expect ";" .expectedSemicolon
    return .assignment first value
  else
    expect ";" .expectedSemicolon
    return .expression first

/-- One statement, given the rule for the statements inside it. -/
def statementRule (statement : Reader Stmt) : Reader Stmt := do
  if ← accept "LET" then declaration
  else if ← accept "IF" then ifElse (blockOf statement)
  else if ← accept "SWITCH" then switch (blockOf statement)
  else if ← accept "WHILE" then loop (blockOf statement)
  else if ← accept "RETURN" then
    let value ← expression
    expect ";" .expectedSemicolon
    return .ret value
  else expressionOrAssignment

def statement : Reader Stmt := bounded (recursive statementRule)

def block : Reader (List Stmt) := blockOf statement

/-- A list after `LIST`. -/
def listGlobal : Reader Global := do
  let name ← expectName .expectedListName
  let typeName ← typeName?
  expect "=" .expectedListEquals
  expect "[" .expectedOpenBracket
  let values ← arguments expression "]" .expectedCloseBracket
  expect ";" .expectedSemicolon
  return ⟨name, typeName, true, some (.list values none), none⟩

/-- A mutable global after `VAR`. -/
def mutableGlobal : Reader Global := do
  let name ← expectName .expectedVariableName
  let typeName ← typeName?
  let value ← initial?
  expect ";" .expectedSemicolon
  return ⟨name, typeName, true, value, none⟩

/-- An immutable global after `VAL`. -/
def immutableGlobal : Reader Global := do
  let name ← expectName .expectedValueName
  let typeName ← typeName?
  expect "=" .expectedInitialValue
  let value ← expression
  expect ";" .expectedSemicolon
  return ⟨name, typeName, false, some value, none⟩

def global : Reader Global := do
  if ← accept "LIST" then listGlobal
  else if ← accept "VAR" then mutableGlobal
  else if ← accept "VAL" then immutableGlobal
  else throw .expectedGlobal

/-- Parameters with their type names, at least one, up to the closing parenthesis. -/
def parameterList : List Token → Reader (List (String × String))
  | [] => throw .expectedParameterName
  | _ :: ahead => do
    let name ← expectName .expectedParameterName
    expect ":" .expectedParameterColon
    let typeName ← expectName .expectedParameterType
    if ← accept ")" then return [(name, typeName)]
    else
      expect "," .expectedParameterEnd
      return (name, typeName) :: (← parameterList ahead)

def parameters : Reader (List (String × String)) := do
  if ← accept ")" then return [] else bounded parameterList

def function : Reader Function := do
  expect "FUN" .expectedFun
  let name ← expectName .expectedFunctionName
  expect "(" .expectedOpenParenthesis
  let parameters ← parameters
  let resultTypeName ← typeName?
  expect "DO" .expectedFunctionDo
  let body ← block
  expect "END" .expectedFunctionEnd
  return ⟨name, parameters.map (·.1), parameters.map (·.2), resultTypeName, body, none⟩

/-- Whether a global comes next. -/
def atGlobal : Reader Bool := do
  return (← at? "LIST") || (← at? "VAR") || (← at? "VAL")

def globals : List Token → Reader (List Global)
  | [] => return []
  | _ :: ahead => do
    if ← atGlobal then
      let first ← global
      return first :: (← globals ahead)
    else return []

/-- Functions up to the end of the input. -/
def functions : List Token → Reader (List Function)
  | [] => return []
  | _ :: ahead => do
    if (← peek).isNone then return []
    else if ← at? "FUN" then
      let first ← function
      return first :: (← functions ahead)
    else if ← atGlobal then throw .globalAfterFunction
    else throw .expectedDeclaration

/-- A whole program: every global before every function. -/
def program : Reader Program := do
  let globals ← bounded globals
  let functions ← bounded functions
  return ⟨globals, functions⟩

end BlockScript.Reader
