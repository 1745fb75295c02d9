import BlockScript.Tree.Basic
/-! Equality of trees, slots included, with decimals compared as numbers. -/
namespace BlockScript

def Literal.equal : Literal → Literal → Bool
  | .decimal a, .decimal b => a.equal b
  | a, b => a == b

mutual
def Expr.equal : Expr → Expr → Bool
  | .literal a t, .literal b u => a.equal b && t == u
  | .group a t, .group b u => a.equal b && t == u
  | .binary op a c t, .binary op' b d u => op == op' && a.equal b && c.equal d && t == u
  | .ref x b t, .ref y c u => x == y && b == c && t == u
  | .element x a b t, .element y a' c u => x == y && a.equal a' && b == c && t == u
  | .call f as s t, .call g bs s' u => f == g && Expr.equalAll as bs && s == s' && t == u
  | .list as t, .list bs u => Expr.equalAll as bs && t == u
  | _, _ => false

def Expr.equalAll : List Expr → List Expr → Bool
  | [], [] => true
  | a :: as, b :: bs => a.equal b && Expr.equalAll as bs
  | _, _ => false
end

def Expr.equalOption : Option Expr → Option Expr → Bool
  | none, none => true
  | some a, some b => a.equal b
  | _, _ => false

mutual
def Stmt.equal : Stmt → Stmt → Bool
  | .expression a, .expression b => a.equal b
  | .declaration x t a b, .declaration y u a' c =>
    x == y && t == u && Expr.equalOption a a' && b == c
  | .assignment r a, .assignment q b => r.equal q && a.equal b
  | .ifElse a t e, .ifElse b t' e' => a.equal b && Stmt.equalBlock t t' && Stmt.equalBlock e e'
  | .switch a cs, .switch b ds => a.equal b && Case.equalAll cs ds
  | .loop a s, .loop b t => a.equal b && Stmt.equalBlock s t
  | .ret a, .ret b => a.equal b
  | _, _ => false

def Stmt.equalBlock : List Stmt → List Stmt → Bool
  | [], [] => true
  | a :: as, b :: bs => a.equal b && Stmt.equalBlock as bs
  | _, _ => false

def Case.equal : Case → Case → Bool
  | .mk v s, .mk w t => Expr.equalOption v w && Stmt.equalBlock s t

def Case.equalAll : List Case → List Case → Bool
  | [], [] => true
  | a :: as, b :: bs => a.equal b && Case.equalAll as bs
  | _, _ => false
end

def Global.equal (a b : Global) : Bool :=
  a.name == b.name && a.typeName == b.typeName && a.mutable == b.mutable &&
    Expr.equalOption a.value b.value && a.binding == b.binding

def Function.equal (a b : Function) : Bool :=
  a.name == b.name && a.parameters == b.parameters &&
    a.parameterTypeNames == b.parameterTypeNames && a.resultTypeName == b.resultTypeName &&
    Stmt.equalBlock a.body b.body && a.signature == b.signature

def Program.equal (a b : Program) : Bool :=
  a.globals.length == b.globals.length && a.functions.length == b.functions.length &&
    (a.globals.zipWith Global.equal b.globals).all id &&
    (a.functions.zipWith Function.equal b.functions).all id

end BlockScript
