import BlockScript.Proofs.Lexing.Spelling
import BlockScript.Proofs.Syntax.WellFormed
/-! The classes and texts of the tokens that a tree is written with, in their order. -/
namespace BlockScript

def Literal.form (v : Literal) : Form := (v.kind,v.render)

mutual
def Expr.forms : Expr → List Form
  | .literal v _ => [v.form]
  | .group e _ => .mark "(" :: (e.forms ++ [.mark ")"])
  | .binary op l r _ => l.forms ++ .mark op.symbol :: r.forms
  | .ref x _ _ => [.word x]
  | .element x i _ _ => .word x :: .mark "[" :: (i.forms ++ [.mark "]"])
  | .call f es _ _ => .word f :: .mark "(" :: (Expr.formsAll es ++ [.mark ")"])
  | .list es _ => .mark "[" :: (Expr.formsAll es ++ [.mark "]"])

/-- Commas stand between expressions. -/
def Expr.formsAll : List Expr → List Form
  | [] => []
  | [e] => e.forms
  | e :: d :: es => e.forms ++ .mark "," :: Expr.formsAll (d :: es)
end

def labelForms : Option String → List Form
  | some x => [.mark ":",.word x]
  | none => []

def initialForms : Option Expr → List Form
  | some e => .mark "=" :: e.forms
  | none => []

mutual
/-- Without a statement in it an `ELSE` is not written. -/
def Stmt.forms : Stmt → List Form
  | .expression e => e.forms ++ [.mark ";"]
  | .declaration x a v _ => .word "LET" :: .word x :: (labelForms a ++ (initialForms v ++ [.mark ";"]))
  | .assignment r e => r.forms ++ .mark "=" :: (e.forms ++ [.mark ";"])
  | .ifElse c a b => .word "IF" :: (c.forms ++ .word "DO" :: (Stmt.formsBlock a ++
      ((if b.isEmpty then [] else .word "ELSE" :: Stmt.formsBlock b) ++ [.word "END"])))
  | .switch c cs => .word "SWITCH" :: (c.forms ++ (Case.formsAll cs ++ [.word "END"]))
  | .loop c a => .word "WHILE" :: (c.forms ++ .word "DO" :: (Stmt.formsBlock a ++ [.word "END"]))
  | .ret e => .word "RETURN" :: (e.forms ++ [.mark ";"])

def Stmt.formsBlock : List Stmt → List Form
  | [] => []
  | s :: ss => s.forms ++ Stmt.formsBlock ss

def Case.formsAll : List Case → List Form
  | [] => []
  | .mk (some e) a :: cs =>
    .word "CASE" :: (e.forms ++ .mark ":" :: (Stmt.formsBlock a ++ Case.formsAll cs))
  | .mk none a :: cs => .word "DEFAULT" :: (Stmt.formsBlock a ++ Case.formsAll cs)
end

def Global.forms (g : Global) : List Form :=
  .word g.keyword :: .word g.name :: (labelForms g.typeName ++ (initialForms g.value ++ [.mark ";"]))

def Function.parameterForms : List (String × String) → List Form
  | [] => []
  | [(x,t)] => [.word x,.mark ":",.word t]
  | (x,t) :: p :: ps => .word x :: .mark ":" :: .word t :: .mark "," :: Function.parameterForms (p :: ps)

def Function.forms (f : Function) : List Form :=
  .word "FUN" :: .word f.name :: .mark "(" ::
    (Function.parameterForms (f.parameters.zip f.parameterTypeNames) ++ .mark ")" ::
      (labelForms f.resultTypeName ++ .word "DO" :: (Stmt.formsBlock f.body ++ [.word "END"])))

def Program.forms (p : Program) : List Form :=
  p.globals.flatMap Global.forms ++ p.functions.flatMap Function.forms

/-- The names and the types of parameters, side by side again. -/
lemma Function.zip_parameters (ps : List (String × String)) : (ps.map (·.1)).zip (ps.map (·.2)) = ps := by
  rw [List.zip_map']
  exact List.map_id ps

namespace Token
variable {t : Token}

lemma form_of_isName (h : t.isName = true) : t.form = .word t.text := by
  simp only [isName,Bool.and_eq_true,beq_iff_eq] at h
  rw [form,h.1,Form.word]

lemma form_of_operator {op : Operator} (h : t.operator? = some op) : t.form = .mark op.symbol := by
  obtain ⟨hk,ht⟩ := operator?_spec h
  rw [form,hk,ht,Form.mark]

end Token
end BlockScript
