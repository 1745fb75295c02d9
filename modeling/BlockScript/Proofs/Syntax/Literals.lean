import BlockScript.Tree.Equal
import Mathlib.Tactic.Lemma
/-! Trees with other literals in the places of theirs. If literals of one number get one literal, equality
of trees becomes identity. -/
namespace BlockScript

section
variable (f : Literal → Literal)

mutual
def Expr.mapLiterals : Expr → Expr
  | .literal v t => .literal (f v) t
  | .group e t => .group (e.mapLiterals) t
  | .binary op l r t => .binary op l.mapLiterals r.mapLiterals t
  | .ref x b t => .ref x b t
  | .element x i b t => .element x i.mapLiterals b t
  | .call g es s t => .call g (Expr.mapLiteralsAll es) s t
  | .list es t => .list (Expr.mapLiteralsAll es) t

def Expr.mapLiteralsAll : List Expr → List Expr
  | [] => []
  | e :: es => e.mapLiterals :: Expr.mapLiteralsAll es
end

mutual
def Stmt.mapLiterals : Stmt → Stmt
  | .expression e => .expression (e.mapLiterals f)
  | .declaration x a v b => .declaration x a (v.map (Expr.mapLiterals f)) b
  | .assignment r e => .assignment (r.mapLiterals f) (e.mapLiterals f)
  | .ifElse c a b => .ifElse (c.mapLiterals f) (Stmt.mapLiteralsBlock a) (Stmt.mapLiteralsBlock b)
  | .switch c cs => .switch (c.mapLiterals f) (Case.mapLiteralsAll cs)
  | .loop c a => .loop (c.mapLiterals f) (Stmt.mapLiteralsBlock a)
  | .ret e => .ret (e.mapLiterals f)

def Stmt.mapLiteralsBlock : List Stmt → List Stmt
  | [] => []
  | s :: ss => s.mapLiterals :: Stmt.mapLiteralsBlock ss

def Case.mapLiteralsAll : List Case → List Case
  | [] => []
  | .mk v a :: cs => .mk (v.map (Expr.mapLiterals f)) (Stmt.mapLiteralsBlock a) :: Case.mapLiteralsAll cs
end

def Global.mapLiterals (g : Global) : Global := { g with value := g.value.map (Expr.mapLiterals f) }

def Function.mapLiterals (g : Function) : Function := { g with body := Stmt.mapLiteralsBlock f g.body }

def Program.mapLiterals (p : Program) : Program :=
  ⟨p.globals.map (Global.mapLiterals f),p.functions.map (Function.mapLiterals f)⟩

end

/-! ### The same literals -/

mutual
lemma Expr.mapLiterals_id (e : Expr) : e.mapLiterals id = e := by
  cases e with
  | literal v t => rfl
  | group e t => rw [mapLiterals,Expr.mapLiterals_id e]
  | binary op l r t => rw [mapLiterals,Expr.mapLiterals_id l,Expr.mapLiterals_id r]
  | ref x b t => rfl
  | element x i b t => rw [mapLiterals,Expr.mapLiterals_id i]
  | call g es s t => rw [mapLiterals,Expr.mapLiteralsAll_id es]
  | list es t => rw [mapLiterals,Expr.mapLiteralsAll_id es]

lemma Expr.mapLiteralsAll_id (es : List Expr) : Expr.mapLiteralsAll id es = es := by
  cases es with
  | nil => rfl
  | cons e es => rw [mapLiteralsAll,Expr.mapLiterals_id e,Expr.mapLiteralsAll_id es]
end

lemma Expr.map_mapLiterals_id (v : Option Expr) : v.map (Expr.mapLiterals id) = v := by
  cases v with
  | none => rfl
  | some e => rw [Option.map_some,e.mapLiterals_id]

mutual
lemma Stmt.mapLiterals_id (s : Stmt) : s.mapLiterals id = s := by
  cases s with
  | expression e => rw [Stmt.mapLiterals,e.mapLiterals_id]
  | declaration x a v b => rw [Stmt.mapLiterals,Expr.map_mapLiterals_id]
  | assignment r e => rw [Stmt.mapLiterals,r.mapLiterals_id,e.mapLiterals_id]
  | ifElse c a b =>
    rw [Stmt.mapLiterals,c.mapLiterals_id,Stmt.mapLiteralsBlock_id a,Stmt.mapLiteralsBlock_id b]
  | switch c cs => rw [Stmt.mapLiterals,c.mapLiterals_id,Case.mapLiteralsAll_id cs]
  | loop c a => rw [Stmt.mapLiterals,c.mapLiterals_id,Stmt.mapLiteralsBlock_id a]
  | ret e => rw [Stmt.mapLiterals,e.mapLiterals_id]

lemma Stmt.mapLiteralsBlock_id (ss : List Stmt) : Stmt.mapLiteralsBlock id ss = ss := by
  cases ss with
  | nil => rfl
  | cons s ss => rw [Stmt.mapLiteralsBlock,Stmt.mapLiterals_id s,Stmt.mapLiteralsBlock_id ss]

lemma Case.mapLiteralsAll_id (cs : List Case) : Case.mapLiteralsAll id cs = cs := by
  cases cs with
  | nil => rfl
  | cons c cs =>
    obtain ⟨v,a⟩ := c
    rw [Case.mapLiteralsAll,Expr.map_mapLiterals_id,Stmt.mapLiteralsBlock_id a,Case.mapLiteralsAll_id cs]
end

lemma Program.mapLiterals_id (p : Program) : p.mapLiterals id = p := by
  have hg : Global.mapLiterals id = id := funext fun g => by
    rw [Global.mapLiterals,Expr.map_mapLiterals_id,id]
  have hf : Function.mapLiterals id = id := funext fun g => by
    rw [Function.mapLiterals,Stmt.mapLiteralsBlock_id,id]
  rw [mapLiterals,hg,hf,List.map_id,List.map_id]

/-! ### Equal literals -/

/-- Equal literals, and no others, are sent to one literal. -/
def Literal.Canonical (f : Literal → Literal) : Prop := ∀ v w : Literal, v.equal w = true ↔ f v = f w

section
variable {f : Literal → Literal}

mutual
lemma Expr.equal_iff (hf : Literal.Canonical f) (a b : Expr) :
    a.equal b = true ↔ a.mapLiterals f = b.mapLiterals f := by
  cases a with
  | literal v t => cases b <;> simp [equal,mapLiterals,hf _ _]
  | group e t =>
    cases b with
    | group d u => simp [equal,mapLiterals,Expr.equal_iff hf e d]
    | _ => simp [equal,mapLiterals]
  | binary op l r t =>
    cases b with
    | binary op' l' r' u =>
      simp [equal,mapLiterals,Expr.equal_iff hf l l',Expr.equal_iff hf r r',and_assoc]
    | _ => simp [equal,mapLiterals]
  | ref x s t => cases b <;> simp [equal,mapLiterals,and_assoc]
  | element x i s t =>
    cases b with
    | element y j s' u => simp [equal,mapLiterals,Expr.equal_iff hf i j,and_assoc]
    | _ => simp [equal,mapLiterals]
  | call g es s t =>
    cases b with
    | call g' ds s' u => simp [equal,mapLiterals,Expr.equalAll_iff hf es ds,and_assoc]
    | _ => simp [equal,mapLiterals]
  | list es t =>
    cases b with
    | list ds u => simp [equal,mapLiterals,Expr.equalAll_iff hf es ds]
    | _ => simp [equal,mapLiterals]

lemma Expr.equalAll_iff (hf : Literal.Canonical f) (as bs : List Expr) :
    Expr.equalAll as bs = true ↔ Expr.mapLiteralsAll f as = Expr.mapLiteralsAll f bs := by
  cases as with
  | nil => cases bs <;> simp [equalAll,mapLiteralsAll]
  | cons a as =>
    cases bs with
    | nil => simp [equalAll,mapLiteralsAll]
    | cons b bs => simp [equalAll,mapLiteralsAll,Expr.equal_iff hf a b,Expr.equalAll_iff hf as bs]
end

lemma Expr.equalOption_iff (hf : Literal.Canonical f) (v w : Option Expr) :
    Expr.equalOption v w = true ↔ v.map (Expr.mapLiterals f) = w.map (Expr.mapLiterals f) := by
  cases v <;> cases w <;> simp [equalOption,Expr.equal_iff hf]

mutual
lemma Stmt.equal_iff (hf : Literal.Canonical f) (a b : Stmt) :
    a.equal b = true ↔ a.mapLiterals f = b.mapLiterals f := by
  cases a with
  | expression e => cases b <;> simp [Stmt.equal,Stmt.mapLiterals,Expr.equal_iff hf]
  | declaration x t v s => cases b <;> simp [Stmt.equal,Stmt.mapLiterals,Expr.equalOption_iff hf,and_assoc]
  | assignment r e => cases b <;> simp [Stmt.equal,Stmt.mapLiterals,Expr.equal_iff hf]
  | ifElse c s t =>
    cases b with
    | ifElse d s' t' =>
      simp [Stmt.equal,Stmt.mapLiterals,Expr.equal_iff hf,Stmt.equalBlock_iff hf s s',
        Stmt.equalBlock_iff hf t t',and_assoc]
    | _ => simp [Stmt.equal,Stmt.mapLiterals]
  | switch c cs =>
    cases b with
    | switch d ds => simp [Stmt.equal,Stmt.mapLiterals,Expr.equal_iff hf,Case.equalAll_iff hf cs ds]
    | _ => simp [Stmt.equal,Stmt.mapLiterals]
  | loop c s =>
    cases b with
    | loop d t => simp [Stmt.equal,Stmt.mapLiterals,Expr.equal_iff hf,Stmt.equalBlock_iff hf s t]
    | _ => simp [Stmt.equal,Stmt.mapLiterals]
  | ret e => cases b <;> simp [Stmt.equal,Stmt.mapLiterals,Expr.equal_iff hf]

lemma Stmt.equalBlock_iff (hf : Literal.Canonical f) (as bs : List Stmt) :
    Stmt.equalBlock as bs = true ↔ Stmt.mapLiteralsBlock f as = Stmt.mapLiteralsBlock f bs := by
  cases as with
  | nil => cases bs <;> simp [Stmt.equalBlock,Stmt.mapLiteralsBlock]
  | cons a as =>
    cases bs with
    | nil => simp [Stmt.equalBlock,Stmt.mapLiteralsBlock]
    | cons b bs =>
      simp [Stmt.equalBlock,Stmt.mapLiteralsBlock,Stmt.equal_iff hf a b,Stmt.equalBlock_iff hf as bs]

lemma Case.equalAll_iff (hf : Literal.Canonical f) (as bs : List Case) :
    Case.equalAll as bs = true ↔ Case.mapLiteralsAll f as = Case.mapLiteralsAll f bs := by
  cases as with
  | nil =>
    cases bs with
    | nil => simp [Case.equalAll,Case.mapLiteralsAll]
    | cons b bs =>
      obtain ⟨w,t⟩ := b
      simp [Case.equalAll,Case.mapLiteralsAll]
  | cons a as =>
    obtain ⟨v,s⟩ := a
    cases bs with
    | nil => simp [Case.equalAll,Case.mapLiteralsAll]
    | cons b bs =>
      obtain ⟨w,t⟩ := b
      simp [Case.equalAll,Case.equal,Case.mapLiteralsAll,Expr.equalOption_iff hf,Stmt.equalBlock_iff hf s t,
        Case.equalAll_iff hf as bs]
end

lemma Global.equal_iff (hf : Literal.Canonical f) (a b : Global) :
    a.equal b = true ↔ a.mapLiterals f = b.mapLiterals f := by
  simp [equal,mapLiterals,Expr.equalOption_iff hf,and_assoc]

lemma Function.equal_iff (hf : Literal.Canonical f) (a b : Function) :
    a.equal b = true ↔ a.mapLiterals f = b.mapLiterals f := by
  simp [equal,mapLiterals,Stmt.equalBlock_iff hf,and_assoc]

lemma all_zipWith_iff {α β : Type} {test : α → α → Bool} {g : α → β}
    (h : ∀ a b, test a b = true ↔ g a = g b) (as bs : List α) :
    as.length = bs.length ∧ (as.zipWith test bs).all id = true ↔ as.map g = bs.map g := by
  induction as generalizing bs with
  | nil => cases bs <;> simp
  | cons a as ih =>
    cases bs with
    | nil => simp
    | cons b bs => simp [← ih bs,h,and_left_comm]

theorem Program.equal_iff (hf : Literal.Canonical f) (p q : Program) :
    p.equal q = true ↔ p.mapLiterals f = q.mapLiterals f := by
  rw [mapLiterals,mapLiterals,Program.mk.injEq,← all_zipWith_iff (Global.equal_iff hf),
    ← all_zipWith_iff (Function.equal_iff hf)]
  simp only [equal,Bool.and_eq_true,beq_iff_eq]
  rw [and_assoc,and_and_and_comm]

end
end BlockScript
