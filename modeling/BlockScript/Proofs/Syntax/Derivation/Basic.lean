import BlockScript.Proofs.Syntax.Grammar
import Mathlib.Data.List.Basic
/-! Derivations of the grammar as trees of tokens, with one type for each nonterminal and one
constructor for each alternative:

```
source      → global* function* ;
global      → "LIST" NAME label "=" "[" arguments "]" ";" | "VAR" NAME label initial ";"
            | "VAL" NAME label "=" level₄ ";" ;
function    → "FUN" NAME "(" parameters? ")" label "DO" block "END" ;
parameters  → NAME ":" NAME ( "," parameters )? ;
label       → ( ":" NAME )? ;
initial     → ( "=" level₄ )? ;
block       → statement* ;
statement   → "LET" NAME label initial ";" | "IF" level₄ "DO" block else "END"
            | "SWITCH" level₄ arms "DEFAULT" block "END" | "WHILE" level₄ "DO" block "END"
            | "RETURN" level₄ ";" | level₄ initial ";" ;
arms        → ( "CASE" level₄ ":" block )* ;
else        → ( "ELSE" block )? ;
level₀      → LITERAL | "(" level₄ ")" | NAME suffix ;
levelₖ₊₁    → levelₖ ( operatorₖ levelₖ )* ;
suffix      → ( "(" arguments ")" | "[" level₄ "]" )? ;
arguments   → ( level₄ ( "," level₄ )* )? ;
```

The levels are primary, multiplicative, additive, comparison and logical. -/
namespace BlockScript

/-- What the grammar tells a token by. -/
inductive Terminal where
  /-- A keyword or a sign, which stands for itself. -/
  | word (text : String)
  /-- An identifier that is no keyword. -/
  | name
  /-- A number, a character, a string, or one of the keywords that are expressions. -/
  | literal
  deriving DecidableEq

def Token.terminal (t : Token) : Terminal :=
  match t.kind with
  | .operator => .word t.text
  | .identifier =>
    if t.text ∈ ["NIL","TRUE","FALSE"] then .literal
    else if t.text ∈ Token.keywords then .word t.text
    else .name
  | .integer | .decimal | .character | .string => .literal

namespace Grammar

/-- A token that one of the terminals admits. -/
@[ext]
structure Leaf (xs : List Terminal) where
  token : Token
  mem : token.terminal ∈ xs

abbrev Word (text : String) := Leaf [.word text]

abbrev Name := Leaf [.name]

/-- The operators between the operands of a height. -/
def operators : Nat → List Terminal
  | 0 => [.word "*",.word "/",.word "^"]
  | 1 => [.word "+",.word "-"]
  | 2 => [.word "<",.word "<=",.word ">",.word ">=",.word "==",.word "!="]
  | 3 => [.word "&&",.word "||"]
  | _ => []

mutual
inductive Level : Nat → Type
  | primary (p : Primary) : Level 0
  | chain {k : Nat} (first : Level k) (rest : Rest k) : Level (k + 1)

/-- The operators of a level with the operands after them. -/
inductive Rest : Nat → Type
  | nil {k : Nat} : Rest k
  | cons {k : Nat} (op : Leaf (operators k)) (next : Level k) (rest : Rest k) : Rest k

inductive Primary : Type
  | literal (t : Leaf [.literal])
  | group (o : Word "(") (e : Level 4) (c : Word ")")
  | name (x : Name) (s : Suffix)

inductive Suffix : Type
  | none
  | call (o : Word "(") (es : Arguments) (c : Word ")")
  | element (o : Word "[") (e : Level 4) (c : Word "]")

inductive Arguments : Type
  | none
  | some (es : Items)

inductive Items : Type
  | one (e : Level 4)
  | cons (e : Level 4) (c : Word ",") (es : Items)
end

inductive Label : Type
  | none
  | some (c : Word ":") (x : Name)

inductive Initial : Type
  | none
  | some (o : Word "=") (e : Level 4)

mutual
inductive Statement : Type
  | declaration (l : Word "LET") (x : Name) (a : Label) (v : Initial) (s : Word ";")
  | ifElse (i : Word "IF") (c : Level 4) (d : Word "DO") (b : Block) (e : Else) (n : Word "END")
  | switch (s : Word "SWITCH") (c : Level 4) (arms : Arms) (d : Word "DEFAULT") (b : Block)
      (n : Word "END")
  | loop (w : Word "WHILE") (c : Level 4) (d : Word "DO") (b : Block) (n : Word "END")
  | ret (r : Word "RETURN") (e : Level 4) (s : Word ";")
  | expression (e : Level 4) (v : Initial) (s : Word ";")

inductive Block : Type
  | nil
  | cons (first : Statement) (rest : Block)

inductive Arms : Type
  | nil
  | cons (c : Word "CASE") (e : Level 4) (o : Word ":") (b : Block) (rest : Arms)

inductive Else : Type
  | none
  | some (l : Word "ELSE") (b : Block)
end

inductive Global : Type
  | list (l : Word "LIST") (x : Name) (a : Label) (o : Word "=") (b : Word "[") (es : Arguments)
      (c : Word "]") (s : Word ";")
  | mutable (l : Word "VAR") (x : Name) (a : Label) (v : Initial) (s : Word ";")
  | immutable (l : Word "VAL") (x : Name) (a : Label) (o : Word "=") (e : Level 4) (s : Word ";")

inductive Parameters : Type
  | one (x : Name) (c : Word ":") (y : Name)
  | cons (x : Name) (c : Word ":") (y : Name) (o : Word ",") (ps : Parameters)

inductive Function : Type
  | mk (f : Word "FUN") (x : Name) (o : Word "(") (ps : Option Parameters) (c : Word ")")
      (a : Label) (d : Word "DO") (b : Block) (n : Word "END")

structure Source where
  globals : List Global
  functions : List Function

/-! ### The tokens at the leaves -/

mutual
def Level.yield {k : Nat} : Level k → List Token
  | .primary p => p.yield
  | .chain first rest => first.yield ++ rest.yield

def Rest.yield {k : Nat} : Rest k → List Token
  | .nil => []
  | .cons op next rest => op.token :: (next.yield ++ rest.yield)

def Primary.yield : Primary → List Token
  | .literal t => [t.token]
  | .group o e c => o.token :: (e.yield ++ [c.token])
  | .name x s => x.token :: s.yield

def Suffix.yield : Suffix → List Token
  | .none => []
  | .call o es c => o.token :: (es.yield ++ [c.token])
  | .element o e c => o.token :: (e.yield ++ [c.token])

def Arguments.yield : Arguments → List Token
  | .none => []
  | .some es => es.yield

def Items.yield : Items → List Token
  | .one e => e.yield
  | .cons e c es => e.yield ++ c.token :: es.yield
end

def Label.yield : Label → List Token
  | none => []
  | some c x => [c.token,x.token]

def Initial.yield : Initial → List Token
  | none => []
  | some o e => o.token :: e.yield

mutual
def Statement.yield : Statement → List Token
  | .declaration l x a v s => l.token :: x.token :: (a.yield ++ (v.yield ++ [s.token]))
  | .ifElse i c d b e n => i.token :: (c.yield ++ d.token :: (b.yield ++ (e.yield ++ [n.token])))
  | .switch s c arms d b n =>
    s.token :: (c.yield ++ (arms.yield ++ d.token :: (b.yield ++ [n.token])))
  | .loop w c d b n => w.token :: (c.yield ++ d.token :: (b.yield ++ [n.token]))
  | .ret r e s => r.token :: (e.yield ++ [s.token])
  | .expression e v s => e.yield ++ (v.yield ++ [s.token])

def Block.yield : Block → List Token
  | .nil => []
  | .cons first rest => first.yield ++ rest.yield

def Arms.yield : Arms → List Token
  | .nil => []
  | .cons c e o b rest => c.token :: (e.yield ++ o.token :: (b.yield ++ rest.yield))

def Else.yield : Else → List Token
  | .none => []
  | .some l b => l.token :: b.yield
end

def Global.yield : Global → List Token
  | list l x a o b es c s =>
    l.token :: x.token :: (a.yield ++ o.token :: b.token :: (es.yield ++ [c.token,s.token]))
  | mutable l x a v s => l.token :: x.token :: (a.yield ++ (v.yield ++ [s.token]))
  | immutable l x a o e s => l.token :: x.token :: (a.yield ++ o.token :: (e.yield ++ [s.token]))

def Parameters.yield : Parameters → List Token
  | one x c y => [x.token,c.token,y.token]
  | cons x c y o ps => x.token :: c.token :: y.token :: o.token :: ps.yield

def Function.yield : Function → List Token
  | mk f x o ps c a d b n => f.token :: x.token :: o.token ::
      (ps.elim [] Parameters.yield ++ c.token :: (a.yield ++ d.token :: (b.yield ++ [n.token])))

def Source.yield (d : Source) : List Token :=
  d.globals.flatMap Global.yield ++ d.functions.flatMap Function.yield

end Grammar

/-! ### The program that a derivation denotes -/

namespace Token
variable {t : Token} {s : String}

lemma text_of_terminal (h : t.terminal = .word s) : t.text = s := by
  unfold terminal at h
  split at h
  · cases h; rfl
  · split at h
    · cases h
    · split at h
      · cases h; rfl
      · cases h
  all_goals cases h

/-- The value of a literal. Each text that is cut off as a literal has one. -/
def value (t : Token) : Literal := t.literal?.getD .nil

end Token

namespace Grammar

lemma operators_spec {k : Nat} {x : Terminal} (h : x ∈ operators k) :
    ∃ op : Operator, op.height = k + 1 ∧ x = .word op.symbol := by
  match k with
  | 0 =>
    simp only [operators,List.mem_cons,List.not_mem_nil,or_false] at h
    rcases h with rfl | rfl | rfl
    exacts [⟨.multiply,rfl,rfl⟩,⟨.divide,rfl,rfl⟩,⟨.power,rfl,rfl⟩]
  | 1 =>
    simp only [operators,List.mem_cons,List.not_mem_nil,or_false] at h
    rcases h with rfl | rfl
    exacts [⟨.add,rfl,rfl⟩,⟨.subtract,rfl,rfl⟩]
  | 2 =>
    simp only [operators,List.mem_cons,List.not_mem_nil,or_false] at h
    rcases h with rfl | rfl | rfl | rfl | rfl | rfl
    exacts [⟨.less,rfl,rfl⟩,⟨.lessEqual,rfl,rfl⟩,⟨.greater,rfl,rfl⟩,⟨.greaterEqual,rfl,rfl⟩,
      ⟨.equal,rfl,rfl⟩,⟨.notEqual,rfl,rfl⟩]
  | 3 =>
    simp only [operators,List.mem_cons,List.not_mem_nil,or_false] at h
    rcases h with rfl | rfl
    exacts [⟨.and,rfl,rfl⟩,⟨.or,rfl,rfl⟩]
  | k + 4 => cases h

lemma Leaf.operator_spec {k : Nat} (o : Leaf (operators k)) :
    ∃ op, Operator.ofSymbol? o.token.text = some op ∧ op.height = k + 1 := by
  obtain ⟨op,hk,ht⟩ := operators_spec o.mem
  exact ⟨op,by rw [Token.text_of_terminal ht,Operator.ofSymbol?_symbol],hk⟩

def Leaf.operator {k : Nat} (o : Leaf (operators k)) : Operator :=
  (Operator.ofSymbol? o.token.text).get (by
    obtain ⟨op,hop,_⟩ := o.operator_spec
    rw [hop]
    rfl)

mutual
def Level.tree {k : Nat} : Level k → Expr
  | .primary p => p.tree
  | .chain first rest => rest.tree first.tree

/-- Operators of one level associate to the left: each takes all before it as its left operand. -/
def Rest.tree {k : Nat} : Rest k → Expr → Expr
  | .nil, left => left
  | .cons op next rest, left => rest.tree (.binary op.operator left next.tree none)

def Primary.tree : Primary → Expr
  | .literal t => .literal t.token.value none
  | .group _ e _ => .group e.tree none
  | .name x s => s.tree x.token.text

def Suffix.tree : Suffix → String → Expr
  | .none, x => .ref x none none
  | .call _ es _, x => .call x es.trees none none
  | .element _ e _, x => .element x e.tree none none

def Arguments.trees : Arguments → List Expr
  | .none => []
  | .some es => es.trees

def Items.trees : Items → List Expr
  | .one e => [e.tree]
  | .cons e _ es => e.tree :: es.trees
end

def Label.name? : Label → Option String
  | none => .none
  | some _ x => .some x.token.text

def Initial.tree? : Initial → Option Expr
  | none => .none
  | some _ e => .some e.tree

mutual
def Statement.tree : Statement → Stmt
  | .declaration _ x a v _ => .declaration x.token.text a.name? v.tree? none
  | .ifElse _ c _ b e _ => .ifElse c.tree b.trees e.trees
  | .switch _ c arms _ b _ => .switch c.tree (arms.trees ++ [.mk none b.trees])
  | .loop _ c _ b _ => .loop c.tree b.trees
  | .ret _ e _ => .ret e.tree
  | .expression e .none _ => .expression e.tree
  | .expression e (.some _ v) _ => .assignment e.tree v.tree

def Block.trees : Block → List Stmt
  | .nil => []
  | .cons first rest => first.tree :: rest.trees

def Arms.trees : Arms → List Case
  | .nil => []
  | .cons _ e _ b rest => .mk (some e.tree) b.trees :: rest.trees

def Else.trees : Else → List Stmt
  | .none => []
  | .some _ b => b.trees
end

def Global.tree : Global → BlockScript.Global
  | list _ x a _ _ es _ _ => ⟨x.token.text,a.name?,true,some (.list es.trees none),none⟩
  | mutable _ x a v _ => ⟨x.token.text,a.name?,true,v.tree?,none⟩
  | immutable _ x a _ e _ => ⟨x.token.text,a.name?,false,some e.tree,none⟩

def Parameters.pairs : Parameters → List (String × String)
  | one x _ y => [(x.token.text,y.token.text)]
  | cons x _ y _ ps => (x.token.text,y.token.text) :: ps.pairs

def Function.tree : Function → BlockScript.Function
  | mk _ x _ ps _ a _ b _ =>
    let pairs := ps.elim [] Parameters.pairs
    ⟨x.token.text,pairs.map (·.1),pairs.map (·.2),a.name?,b.trees,none⟩

def Source.tree (d : Source) : Program := ⟨d.globals.map Global.tree,d.functions.map Function.tree⟩

/-! ### Assignments -/

/-- The expression is a variable or an element of one, and nothing else. -/
def Level.isPlace {k : Nat} : Level k → Bool
  | .primary (.name _ .none) | .primary (.name _ (.element ..)) => true
  | .chain first .nil => first.isPlace
  | _ => false

mutual
/-- What stands on the left of an equality sign is a variable or an element of one. -/
def Statement.AssignsPlaces : Statement → Prop
  | .expression e (.some ..) _ => e.isPlace = true
  | .ifElse _ _ _ b e _ => b.AssignsPlaces ∧ e.AssignsPlaces
  | .switch _ _ arms _ b _ => arms.AssignsPlaces ∧ b.AssignsPlaces
  | .loop _ _ _ b _ => b.AssignsPlaces
  | _ => True

def Block.AssignsPlaces : Block → Prop
  | .nil => True
  | .cons first rest => first.AssignsPlaces ∧ rest.AssignsPlaces

def Arms.AssignsPlaces : Arms → Prop
  | .nil => True
  | .cons _ _ _ b rest => b.AssignsPlaces ∧ rest.AssignsPlaces

def Else.AssignsPlaces : Else → Prop
  | .none => True
  | .some _ b => b.AssignsPlaces
end

def Function.AssignsPlaces : Function → Prop
  | mk _ _ _ _ _ _ _ b _ => b.AssignsPlaces

def Source.AssignsPlaces (d : Source) : Prop := ∀ f ∈ d.functions, f.AssignsPlaces

end Grammar
end BlockScript
