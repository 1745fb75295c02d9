import BlockScript.Reading.Program
/-! The grammar, as relations between trees and the tokens that spell them. -/
namespace BlockScript

namespace Token

/-- The operator that a token stands for between two operands. -/
def operator? (t : Token) : Option Operator :=
  if t.kind == .operator then Operator.ofSymbol? t.text else none

/-- The literal that a token stands for. -/
def literal? (t : Token) : Option Literal :=
  match t.kind with
  | .integer => (Literal.readInteger? t.text.toList).map .integer
  | .decimal => (Literal.readDecimal? t.text.toList).map .decimal
  | .character => (Literal.readCharacter? t.text.toList).map .character
  | .string => some (.string (Literal.readString t.text.toList))
  | .identifier =>
    if t.is "NIL" then some .nil
    else if t.is "TRUE" then some (.boolean true)
    else if t.is "FALSE" then some (.boolean false)
    else none
  | .operator => none

end Token

/-- The place of a level among the four, the tightest first. -/
def Operator.Level.height : Operator.Level → Nat
  | multiplicative => 1
  | additive => 2
  | comparison => 3
  | logical => 4

def Operator.height (op : Operator) : Nat := op.level.height

mutual
/-- An expression whose operators outside of parentheses have at most the given height. -/
inductive Expr.Spells : Nat → Expr → List Token → Prop
  | primary {e ts} (h : Expr.Primary e ts) : Expr.Spells 0 e ts
  | chain {k l e ts us} (hl : Expr.Spells k l ts) (h : Expr.Tail k l e us) :
    Expr.Spells (k + 1) e (ts ++ us)

/-- What an operand becomes with the operators of the next height after it, which associate to the
left. -/
inductive Expr.Tail : Nat → Expr → Expr → List Token → Prop
  | nil {k e} : Expr.Tail k e e []
  | cons {k l r e op o ts us} (ho : Token.operator? o = some op) (hk : op.height = k + 1)
    (hr : Expr.Spells k r ts) (h : Expr.Tail k (.binary op l r none) e us) :
    Expr.Tail k l e (o :: (ts ++ us))

inductive Expr.Primary : Expr → List Token → Prop
  | literal {t v} (h : Token.literal? t = some v) : Expr.Primary (.literal v none) [t]
  | group {o e ts c} (ho : Token.is o "(" = true) (h : Expr.Spells 4 e ts)
    (hc : Token.is c ")" = true) : Expr.Primary (.group e none) (o :: (ts ++ [c]))
  | ref {x} (hx : Token.isName x = true) : Expr.Primary (.ref x.text none none) [x]
  | element {x o i ts c} (hx : Token.isName x = true) (ho : Token.is o "[" = true)
    (h : Expr.Spells 4 i ts) (hc : Token.is c "]" = true) :
    Expr.Primary (.element x.text i none none) (x :: o :: (ts ++ [c]))
  | call {x o es ts c} (hx : Token.isName x = true) (ho : Token.is o "(" = true)
    (h : Expr.Arguments es ts) (hc : Token.is c ")" = true) :
    Expr.Primary (.call x.text es none none) (x :: o :: (ts ++ [c]))

/-- Expressions separated by commas, maybe none. -/
inductive Expr.Arguments : List Expr → List Token → Prop
  | nil : Expr.Arguments [] []
  | items {es ts} (h : Expr.Items es ts) : Expr.Arguments es ts

inductive Expr.Items : List Expr → List Token → Prop
  | one {e ts} (h : Expr.Spells 4 e ts) : Expr.Items [e] ts
  | cons {e ts c es us} (h : Expr.Spells 4 e ts) (hc : Token.is c "," = true)
    (hs : Expr.Items es us) : Expr.Items (e :: es) (ts ++ c :: us)
end

/-- The annotation of a name with a type, if there is one. -/
inductive TypeLabel : Option String → List Token → Prop
  | none : TypeLabel none []
  | some {c x} (hc : Token.is c ":" = true) (hx : Token.isName x = true) : TypeLabel (some x.text) [c,x]

/-- An initial value, if there is one. -/
inductive Initial : Option Expr → List Token → Prop
  | none : Initial none []
  | some {o e ts} (ho : Token.is o "=" = true) (h : e.Spells 4 ts) : Initial (some e) (o :: ts)

mutual
inductive Stmt.Spells : Stmt → List Token → Prop
  | expression {e ts s} (h : Expr.Spells 4 e ts) (hs : Token.is s ";" = true) :
    Stmt.Spells (.expression e) (ts ++ [s])
  | assignment {r ts o e us s} (hr : Expr.Spells 4 r ts) (hx : r.receiver?.isSome = true)
    (ho : Token.is o "=" = true) (h : Expr.Spells 4 e us) (hs : Token.is s ";" = true) :
    Stmt.Spells (.assignment r e) (ts ++ o :: (us ++ [s]))
  | declaration {l x a ts v us s} (hl : Token.is l "LET" = true) (hx : Token.isName x = true)
    (ha : TypeLabel a ts) (hv : Initial v us) (hs : Token.is s ";" = true) :
    Stmt.Spells (.declaration x.text a v none) (l :: x :: (ts ++ (us ++ [s])))
  | ifOnly {i c ts d a us n} (hi : Token.is i "IF" = true) (hc : Expr.Spells 4 c ts)
    (hd : Token.is d "DO" = true) (ha : Stmt.Block a us) (hn : Token.is n "END" = true) :
    Stmt.Spells (.ifElse c a []) (i :: (ts ++ d :: (us ++ [n])))
  | ifElse {i c ts d a us l b vs n} (hi : Token.is i "IF" = true) (hc : Expr.Spells 4 c ts)
    (hd : Token.is d "DO" = true) (ha : Stmt.Block a us) (hl : Token.is l "ELSE" = true)
    (hb : Stmt.Block b vs) (hn : Token.is n "END" = true) :
    Stmt.Spells (.ifElse c a b) (i :: (ts ++ d :: (us ++ l :: (vs ++ [n]))))
  | switch {s c ts cs us n} (hs : Token.is s "SWITCH" = true) (hc : Expr.Spells 4 c ts)
    (h : Case.Arms cs us) (hn : Token.is n "END" = true) :
    Stmt.Spells (.switch c cs) (s :: (ts ++ (us ++ [n])))
  | loop {w c ts d a us n} (hw : Token.is w "WHILE" = true) (hc : Expr.Spells 4 c ts)
    (hd : Token.is d "DO" = true) (ha : Stmt.Block a us) (hn : Token.is n "END" = true) :
    Stmt.Spells (.loop c a) (w :: (ts ++ d :: (us ++ [n])))
  | ret {r e ts s} (hr : Token.is r "RETURN" = true) (h : Expr.Spells 4 e ts)
    (hs : Token.is s ";" = true) : Stmt.Spells (.ret e) (r :: (ts ++ [s]))

inductive Stmt.Block : List Stmt → List Token → Prop
  | nil : Stmt.Block [] []
  | cons {s ts ss us} (h : Stmt.Spells s ts) (hs : Stmt.Block ss us) : Stmt.Block (s :: ss) (ts ++ us)

/-- Arms with values and after them the default. -/
inductive Case.Arms : List Case → List Token → Prop
  | default {d a ts} (hd : Token.is d "DEFAULT" = true) (h : Stmt.Block a ts) :
    Case.Arms [.mk none a] (d :: ts)
  | value {c e ts o a us cs vs} (hc : Token.is c "CASE" = true) (he : Expr.Spells 4 e ts)
    (ho : Token.is o ":" = true) (ha : Stmt.Block a us) (h : Case.Arms cs vs) :
    Case.Arms (.mk (some e) a :: cs) (c :: (ts ++ o :: (us ++ vs)))
end

inductive Global.Spells : Global → List Token → Prop
  | list {l x a ts o b es us c s} (hl : Token.is l "LIST" = true) (hx : Token.isName x = true)
    (ha : TypeLabel a ts) (ho : Token.is o "=" = true) (hb : Token.is b "[" = true)
    (h : Expr.Arguments es us) (hc : Token.is c "]" = true) (hs : Token.is s ";" = true) :
    Global.Spells ⟨x.text,a,true,some (.list es none),none⟩ (l :: x :: (ts ++ o :: b :: (us ++ [c,s])))
  | mutable {l x a ts v us s} (hl : Token.is l "VAR" = true) (hx : Token.isName x = true)
    (ha : TypeLabel a ts) (hv : Initial v us) (hs : Token.is s ";" = true) :
    Global.Spells ⟨x.text,a,true,v,none⟩ (l :: x :: (ts ++ (us ++ [s])))
  | immutable {l x a ts o e us s} (hl : Token.is l "VAL" = true) (hx : Token.isName x = true)
    (ha : TypeLabel a ts) (ho : Token.is o "=" = true) (h : Expr.Spells 4 e us)
    (hs : Token.is s ";" = true) :
    Global.Spells ⟨x.text,a,false,some e,none⟩ (l :: x :: (ts ++ o :: (us ++ [s])))

/-- Parameters with their types, separated by commas, at least one. -/
inductive Function.Parameters : List (String × String) → List Token → Prop
  | one {x c t} (hx : Token.isName x = true) (hc : Token.is c ":" = true)
    (ht : Token.isName t = true) : Function.Parameters [(x.text,t.text)] [x,c,t]
  | cons {x c t o ps ts} (hx : Token.isName x = true) (hc : Token.is c ":" = true)
    (ht : Token.isName t = true) (ho : Token.is o "," = true) (h : Function.Parameters ps ts) :
    Function.Parameters ((x.text,t.text) :: ps) (x :: c :: t :: o :: ts)

inductive Function.Spells : Function → List Token → Prop
  | mk {f x o ps ts c a us d b vs n} (hf : Token.is f "FUN" = true) (hx : Token.isName x = true)
    (ho : Token.is o "(" = true) (hp : (ps = [] ∧ ts = []) ∨ Function.Parameters ps ts)
    (hc : Token.is c ")" = true) (ha : TypeLabel a us) (hd : Token.is d "DO" = true)
    (hb : Stmt.Block b vs) (hn : Token.is n "END" = true) :
    Function.Spells ⟨x.text,ps.map (·.1),ps.map (·.2),a,b,none⟩
      (f :: x :: o :: (ts ++ c :: (us ++ d :: (vs ++ [n]))))

/-- Items one after the other. -/
inductive Sequence {α : Type} (P : α → List Token → Prop) : List α → List Token → Prop
  | nil : Sequence P [] []
  | cons {a ts as us} (h : P a ts) (hs : Sequence P as us) : Sequence P (a :: as) (ts ++ us)

/-- Globals and after them functions. -/
def Program.Spells (p : Program) (ts : List Token) : Prop :=
  ∃ us vs, ts = us ++ vs ∧ Sequence Global.Spells p.globals us ∧
    Sequence Function.Spells p.functions vs

end BlockScript
