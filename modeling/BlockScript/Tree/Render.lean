import BlockScript.Tree.Basic
/-! The text of a tree, in the form that reads back to the same tree. Slots leave no trace in it. -/
namespace BlockScript

/-- A character inside quotes. -/
def escape (c : Char) : List Char :=
  match c with
  | '\x08' => ['\\', 'b']
  | '\n' => ['\\', 'n']
  | '\r' => ['\\', 'r']
  | '\t' => ['\\', 't']
  | '\'' => ['\\', '\'']
  | '"' => ['\\', '"']
  | '\\' => ['\\', '\\']
  | c => [c]

def Literal.render : Literal → String
  | nil => "NIL"
  | boolean true => "TRUE"
  | boolean false => "FALSE"
  | integer value => value.repr
  | decimal value => value.render
  | character value => String.ofList ('\'' :: escape value ++ ['\''])
  | string value => String.ofList ('"' :: value.toList.flatMap escape ++ ['"'])

def commaSeparated (texts : List String) : String := ", ".intercalate texts

mutual
def Expr.render : Expr → String
  | .literal value _ => value.render
  | .group inner _ => "(" ++ inner.render ++ ")"
  | .binary op left right _ => left.render ++ " " ++ op.symbol ++ " " ++ right.render
  | .ref name _ _ => name
  | .element name index _ _ => name ++ "[" ++ index.render ++ "]"
  | .call name arguments _ _ => name ++ "(" ++ commaSeparated (Expr.renderAll arguments) ++ ")"
  | .list values _ => "[" ++ commaSeparated (Expr.renderAll values) ++ "]"

def Expr.renderAll : List Expr → List String
  | [] => []
  | e :: es => e.render :: Expr.renderAll es
end

/-- The annotation of a name with a type. -/
def renderTypeName : Option String → String
  | some name => ": " ++ name
  | none => ""

def renderInitial : Option Expr → String
  | some value => " = " ++ value.render
  | none => ""

mutual
def Stmt.render : Stmt → String
  | .expression value => value.render ++ ";"
  | .declaration name typeName value _ =>
    "LET " ++ name ++ renderTypeName typeName ++ renderInitial value ++ ";"
  | .assignment receiver value => receiver.render ++ " = " ++ value.render ++ ";"
  | .ifElse condition thenBlock elseBlock =>
    "IF " ++ condition.render ++ " DO" ++ Stmt.renderBlock thenBlock ++
      (if elseBlock.isEmpty then "" else " ELSE" ++ Stmt.renderBlock elseBlock) ++ " END"
  | .switch condition cases => "SWITCH " ++ condition.render ++ Case.renderAll cases ++ " END"
  | .loop condition body => "WHILE " ++ condition.render ++ " DO" ++ Stmt.renderBlock body ++ " END"
  | .ret value => "RETURN " ++ value.render ++ ";"

/-- Each statement of a block follows a blank. -/
def Stmt.renderBlock : List Stmt → String
  | [] => ""
  | s :: ss => " " ++ s.render ++ Stmt.renderBlock ss

def Case.render : Case → String
  | .mk (some value) body => "CASE " ++ value.render ++ ":" ++ Stmt.renderBlock body
  | .mk none body => "DEFAULT" ++ Stmt.renderBlock body

def Case.renderAll : List Case → String
  | [] => ""
  | c :: cs => " " ++ c.render ++ Case.renderAll cs
end

/-- A list is told by its initial value; a variable without one is mutable or not. -/
def Global.keyword (g : Global) : String :=
  if g.value.any Expr.isList then "LIST" else if g.mutable then "VAR" else "VAL"

def Global.render (g : Global) : String :=
  g.keyword ++ " " ++ g.name ++ renderTypeName g.typeName ++ renderInitial g.value ++ ";"

def Function.render (f : Function) : String :=
  let parameters := f.parameters.zipWith (fun name type => name ++ ": " ++ type) f.parameterTypeNames
  "FUN " ++ f.name ++ "(" ++ commaSeparated parameters ++ ")" ++ renderTypeName f.resultTypeName ++
    " DO" ++ Stmt.renderBlock f.body ++ " END"

/-- One line for each global and function. -/
def Program.render (p : Program) : String :=
  String.join ((p.globals.map Global.render ++ p.functions.map Function.render).map (· ++ "\n"))

end BlockScript
