import BlockScript.Frame
import BlockScript.Number.Decimal
import BlockScript.Operator
import BlockScript.Ty
/-! Programs as trees. A tree as read has empty slots; a checked tree holds in them the type of every
expression and the binding or signature of every name. -/
namespace BlockScript

inductive Literal where
  | nil
  | boolean (value : Bool)
  | integer (value : Int)
  | decimal (value : Decimal)
  | character (value : Char)
  | string (value : String)
  deriving DecidableEq, Repr

inductive Expr where
  | literal (value : Literal) (ty : Option Ty)
  /-- An expression in parentheses. -/
  | group (inner : Expr) (ty : Option Ty)
  | binary (op : Operator) (left right : Expr) (ty : Option Ty)
  /-- A variable. -/
  | ref (name : String) (binding : Option (Binding Ty)) (ty : Option Ty)
  /-- An element of a list variable. -/
  | element (name : String) (index : Expr) (binding : Option (Binding Ty)) (ty : Option Ty)
  | call (name : String) (arguments : List Expr) (signature : Option Signature) (ty : Option Ty)
  /-- The initial value of a list. -/
  | list (values : List Expr) (ty : Option Ty)

mutual
inductive Stmt where
  | expression (value : Expr)
  | declaration (name : String) (typeName : Option String) (value : Option Expr)
      (binding : Option (Binding Ty))
  /-- A reader only makes receivers that are a variable or an element of one. -/
  | assignment (receiver value : Expr)
  | ifElse (condition : Expr) (thenBlock elseBlock : List Stmt)
  | switch (condition : Expr) (cases : List Case)
  | loop (condition : Expr) (body : List Stmt)
  | ret (value : Expr)

/-- One arm of a switch; an arm without a value is taken for every value. -/
inductive Case where
  | mk (value : Option Expr) (body : List Stmt)
end

/-- A variable or list at the top of a program. -/
structure Global where
  name : String
  typeName : Option String
  mutable : Bool
  value : Option Expr
  binding : Option (Binding Ty)

structure Function where
  name : String
  parameters : List String
  parameterTypeNames : List String
  resultTypeName : Option String
  body : List Stmt
  signature : Option Signature

/-- A whole program; its globals come before its functions. -/
structure Program where
  globals : List Global
  functions : List Function

/-- The type slot of an expression. -/
def Expr.ty : Expr → Option Ty
  | literal _ ty | group _ ty | binary _ _ _ ty | ref _ _ ty | element _ _ _ ty | call _ _ _ ty
  | list _ ty => ty

def Expr.isList : Expr → Bool
  | list .. => true
  | _ => false

/-- The variable that an assignment to this expression changes. Only a variable or an element of one
can be assigned to. -/
def Expr.receiver? : Expr → Option String
  | ref x _ _ | element x _ _ _ => some x
  | _ => none

def Case.value : Case → Option Expr
  | mk value _ => value

def Case.body : Case → List Stmt
  | mk _ body => body

namespace Function

def arity (f : Function) : Nat := f.parameters.length

/-- A program starts at its function `main` without parameters that returns an integer. -/
def isMain (f : Function) : Bool :=
  f.name == "main" && f.parameters.isEmpty && f.resultTypeName == some "Integer"

end Function
end BlockScript
