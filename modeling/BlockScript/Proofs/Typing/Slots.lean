import BlockScript.Proofs.Typing.Rules
/-! The slots of a tree: a tree without them, and a tree in which each holds what the rules derive
at its place. -/
namespace BlockScript

/-! ### Empty slots -/

mutual
/-- The expression as it was read. -/
def Expr.bare : Expr → Expr
  | .literal v _ => .literal v none
  | .group e _ => .group e.bare none
  | .binary op l r _ => .binary op l.bare r.bare none
  | .ref x _ _ => .ref x none none
  | .element x i _ _ => .element x i.bare none none
  | .call f es _ _ => .call f (Expr.bareAll es) none none
  | .list es _ => .list (Expr.bareAll es) none

def Expr.bareAll : List Expr → List Expr
  | [] => []
  | e :: es => e.bare :: Expr.bareAll es
end

mutual
def Stmt.bare : Stmt → Stmt
  | .expression e => .expression e.bare
  | .declaration x typeName value _ => .declaration x typeName (value.map Expr.bare) none
  | .assignment receiver e => .assignment receiver.bare e.bare
  | .ifElse c thenBlock elseBlock =>
    .ifElse c.bare (Stmt.bareBlock thenBlock) (Stmt.bareBlock elseBlock)
  | .switch c cases => .switch c.bare (Case.bareAll cases)
  | .loop c body => .loop c.bare (Stmt.bareBlock body)
  | .ret e => .ret e.bare

def Stmt.bareBlock : List Stmt → List Stmt
  | [] => []
  | s :: ss => s.bare :: Stmt.bareBlock ss

def Case.bareAll : List Case → List Case
  | [] => []
  | .mk value body :: cs => .mk (value.map Expr.bare) (Stmt.bareBlock body) :: Case.bareAll cs
end

def Global.bare (g : Global) : Global := { g with value := g.value.map Expr.bare, binding := none }

def Function.bare (f : Function) : Function :=
  { f with body := Stmt.bareBlock f.body, signature := none }

def Program.bare (p : Program) : Program :=
  ⟨p.globals.map Global.bare,p.functions.map Function.bare⟩

/-! ### Filled slots -/

/-- The slot of an expression holds its type, and it has no other. -/
def Expr.Carries (Γ : Context) (e : Expr) : Prop :=
  ∃ t, e.ty = some t ∧ ∀ u, e.HasType Γ u ↔ u = t

mutual
/-- Every expression inside carries its type, every variable its binding and every call the
signature of its function. -/
def Expr.Filled (Γ : Context) : Expr → Prop
  | .literal v s => Carries Γ (.literal v s)
  | .group e s => Carries Γ (.group e s) ∧ e.Filled Γ
  | .binary op l r s => Carries Γ (.binary op l r s) ∧ l.Filled Γ ∧ r.Filled Γ
  | .ref x slot s => Carries Γ (.ref x slot s) ∧ ∃ b, slot = some b ∧ Γ.Binds x b
  | .element x i slot s =>
    Carries Γ (.element x i slot s) ∧ (∃ b, slot = some b ∧ Γ.Binds x b) ∧ i.Filled Γ
  | .call f es slot s =>
    Carries Γ (.call f es slot s) ∧ (∃ g, slot = some g ∧ Γ.Knows f es.length g) ∧
      Expr.AllFilled Γ es
  | .list es s => Carries Γ (.list es s) ∧ Expr.AllFilled Γ es

def Expr.AllFilled (Γ : Context) : List Expr → Prop
  | [] => True
  | e :: es => e.Filled Γ ∧ Expr.AllFilled Γ es
end

/-- The names in sight after a statement with filled slots. -/
def Stmt.after (Γ : Context) : Stmt → Context
  | .declaration _ _ _ (some b) => Γ.bind b
  | _ => Γ

mutual
def Stmt.Filled (Γ : Context) : Stmt → Prop
  | .expression e => e.Filled Γ
  | .declaration x typeName value slot =>
    (∃ t, slot = some ⟨x,t,true⟩ ∧ ∀ u, Expr.Declares Γ typeName value u ↔ u = t) ∧
      ∀ e ∈ value, e.Filled Γ
  | .assignment receiver e => receiver.Filled Γ ∧ e.Filled Γ
  | .ifElse c thenBlock elseBlock =>
    c.Filled Γ ∧ Stmt.BlockFilled Γ.enter thenBlock ∧ Stmt.BlockFilled Γ.enter elseBlock
  | .switch c cases => c.Filled Γ ∧ Case.AllFilled Γ cases
  | .loop c body => c.Filled Γ ∧ Stmt.BlockFilled Γ.enter body
  | .ret e => e.Filled Γ

def Stmt.BlockFilled (Γ : Context) : List Stmt → Prop
  | [] => True
  | s :: ss => s.Filled Γ ∧ Stmt.BlockFilled (s.after Γ) ss

def Case.AllFilled (Γ : Context) : List Case → Prop
  | [] => True
  | .mk value body :: cs =>
    (∀ e ∈ value, e.Filled Γ) ∧ Stmt.BlockFilled Γ.enter body ∧ Case.AllFilled Γ cs
end

/-- The initial value of a global of some type. The list of a list global is of the global's type,
which a declared element type may make wider than its own. -/
def Global.InitialFilled (Γ : Context) (t : Ty) : Option Expr → Prop
  | some (.list es s) => s = some t ∧ Expr.AllFilled Γ es
  | value => ∀ e ∈ value, e.Filled Γ

def Global.Filled (Γ : Context) (g : Global) : Prop :=
  ∃ t, g.binding = some ⟨g.name,t,g.mutable⟩ ∧ (∀ u, g.HasType Γ u ↔ u = t) ∧
    Global.InitialFilled Γ t g.value

/-- Every global is filled among the names before it; the last context has all of them. -/
inductive Global.AllFilled : Context → List Global → Context → Prop
  | nil {Γ} : AllFilled Γ [] Γ
  | cons {Γ Δ g gs b} (h : g.Filled Γ) (hb : g.binding = some b) (hs : AllFilled (Γ.bind b) gs Δ) :
      AllFilled Γ (g :: gs) Δ

def Function.Filled (Γ : Context) (f : Function) : Prop :=
  ∃ s, f.signature = some s ∧ f.Declares s ∧ Stmt.BlockFilled (f.inside Γ s) f.body

/-- Every slot of a program holds what the rules derive there. -/
def Program.Filled (names : Frame Ty Signature) (p : Program) : Prop :=
  ∃ Γ ss Δ, Global.AllFilled (.ofFrame names) p.globals Γ ∧
    Function.AllDeclared Γ p.functions ss Δ ∧ ∀ f ∈ p.functions, f.Filled Δ

end BlockScript
