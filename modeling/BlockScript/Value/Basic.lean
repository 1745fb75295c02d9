import BlockScript.Tree.Render
/-! Values, their text and their equality. -/
namespace BlockScript

inductive Value where
  | nil
  | boolean (value : Bool)
  | integer (value : Int)
  | decimal (value : Decimal)
  | character (value : Char)
  | string (value : String)
  | list (elements : List Value)

namespace Value

def ofLiteral : Literal → Value
  | .nil => nil
  | .boolean b => boolean b
  | .integer n => integer n
  | .decimal d => decimal d
  | .character c => character c
  | .string s => string s

/-- The kind of a value; all lists are of one kind. -/
inductive Kind where
  | nil
  | boolean
  | integer
  | decimal
  | character
  | string
  | list
  deriving DecidableEq, Repr

def Kind.render : Kind → String
  | .nil => "Nil"
  | .boolean => "Boolean"
  | .integer => "Integer"
  | .decimal => "Decimal"
  | .character => "Character"
  | .string => "String"
  | .list => "List"

def kind : Value → Kind
  | nil => .nil
  | boolean _ => .boolean
  | integer _ => .integer
  | decimal _ => .decimal
  | character _ => .character
  | string _ => .string
  | list _ => .list

mutual
/-- The text that is printed and that joins strings; characters and strings stand without quotes. -/
def render : Value → String
  | nil => "NIL"
  | boolean b => if b then "true" else "false"
  | integer n => n.repr
  | decimal d => d.render
  | character c => c.toString
  | string s => s
  | list vs => "[" ++ commaSeparated (renderAll vs) ++ "]"

def renderAll : List Value → List String
  | [] => []
  | v :: vs => v.render :: renderAll vs
end

mutual
/-- Values of different kinds differ; lists are compared element by element. -/
def equal : Value → Value → Bool
  | nil, nil => true
  | boolean a, boolean b => a == b
  | integer a, integer b => a == b
  | decimal a, decimal b => a.equal b
  | character a, character b => a == b
  | string a, string b => a == b
  | list as, list bs => equalAll as bs
  | _, _ => false

def equalAll : List Value → List Value → Bool
  | [], [] => true
  | a :: as, b :: bs => a.equal b && equalAll as bs
  | _, _ => false
end

end Value
end BlockScript
