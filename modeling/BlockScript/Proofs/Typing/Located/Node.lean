import BlockScript.Proofs.Blocks.Checked
/-! The nodes at which errors are placed: which node the check of another one comes to, and which errors
come from a node's own rule. In both, all that the rule has visited before is typed. -/
namespace BlockScript

/-- The expression is typed, and its value may be stored at the type. -/
def Expr.Accepted (Γ : Context) (e : Expr) (t : Ty) : Prop :=
  ∃ e' u, e.check Γ = .ok (e',u) ∧ t.accepts u = true

/-- The type that the elements of a list fit which come first, and the next one has to fit: the declared
type, or else that of the first element. -/
inductive Expr.Expects (Γ : Context) : Option Ty → List Expr → Option Ty → Prop
  | nil {d : Option Ty} : Expects Γ d [] d
  | cons {d d' : Option Ty} {e e' : Expr} {es : List Expr} {u : Ty} (h : e.check Γ = .ok (e',u))
      (ha : ∀ t ∈ d, t.accepts u = true) (hs : Expects Γ (some (d.getD u)) es d') : Expects Γ d (e :: es) d'

/-- An arm that is checked as one before the last. -/
structure Case.Passed (Γ : Context) (result t : Ty) (c : Case) : Prop where
  value : ∃ e, c.value = some e ∧ e.Accepted Γ t
  body : ∃ body, Stmt.checkBlock Γ.enter result c.body = .ok body

/-- An expression, statement or global among the names in sight of it. -/
inductive Node where
  | expr (Γ : Context) (e : Expr)
  | stmt (Γ : Context) (result : Ty) (s : Stmt)
  | global (Γ : Context) (g : Global)

namespace Node

def render : Node → String
  | expr _ e => e.render
  | stmt _ _ s => s.render
  | global _ g => g.render

def Fails : Node → TypeError → Prop
  | expr Γ e,err => e.check Γ = .error err
  | stmt Γ result s,err => s.check Γ result = .error err
  | global Γ g,err => g.checkValue Γ = .error err

/-- The check of a node comes to the check of another one, with all before it typed. -/
inductive Comes : Node → Node → Prop
  | group {Γ e s} : Comes (expr Γ (.group e s)) (expr Γ e)
  | left {Γ op l r s} : Comes (expr Γ (.binary op l r s)) (expr Γ l)
  | right {Γ op l l' r s t} (hl : l.check Γ = .ok (l',t)) : Comes (expr Γ (.binary op l r s)) (expr Γ r)
  | index {Γ x i slot s b t} (hb : Γ.lookupVariable x = .ok b) (ht : b.value.element? = some t) :
    Comes (expr Γ (.element x i slot s)) (expr Γ i)
  | argument {Γ f slot s g before e after ts t ts'}
      (hf : Γ.lookupFunction f (before ++ e :: after).length = .ok g) (hp : g.parameters = ts ++ t :: ts')
      (hs : List.Forall₂ (Expr.Accepted Γ) before ts) :
    Comes (expr Γ (.call f (before ++ e :: after) slot s)) (expr Γ e)
  | element {Γ before e after s d} (hs : Expr.Expects Γ none before d) :
    Comes (expr Γ (.list (before ++ e :: after) s)) (expr Γ e)
  | expression {Γ result e} : Comes (stmt Γ result (.expression e)) (expr Γ e)
  | initial {Γ result x typeName e slot} (hn : ∀ n ∈ typeName, ∃ t, Ty.ofName? n = some t) :
    Comes (stmt Γ result (.declaration x typeName (some e) slot)) (expr Γ e)
  | receiver {Γ result r e x} (hx : r.receiver? = some x) :
    Comes (stmt Γ result (.assignment r e)) (expr Γ r)
  | assigned {Γ result r r' t e x} (hx : r.receiver? = some x) (hr : r.check Γ = .ok (r',t))
      (hm : Γ.requireMutable x = .ok ()) : Comes (stmt Γ result (.assignment r e)) (expr Γ e)
  | condition {Γ result c thenBlock elseBlock} :
    Comes (stmt Γ result (.ifElse c thenBlock elseBlock)) (expr Γ c)
  | thenBlock {Γ Δ result c c' before before' s after elseBlock} (hc : c.check Γ = .ok (c',.boolean))
      (hs : Stmt.Leads result Γ.enter before before' Δ) :
    Comes (stmt Γ result (.ifElse c (before ++ s :: after) elseBlock)) (stmt Δ result s)
  | elseBlock {Γ Δ result c c' thenBlock then' before before' s after} (hc : c.check Γ = .ok (c',.boolean))
      (hn : thenBlock ≠ []) (ht : Stmt.checkBlock Γ.enter result thenBlock = .ok then')
      (hs : Stmt.Leads result Γ.enter before before' Δ) :
    Comes (stmt Γ result (.ifElse c thenBlock (before ++ s :: after))) (stmt Δ result s)
  | scrutinee {Γ result c cs} : Comes (stmt Γ result (.switch c cs)) (expr Γ c)
  | armValue {Γ result c c' t earlier e body later} (hc : c.check Γ = .ok (c',t))
      (hp : ∀ d ∈ earlier, d.Passed Γ result t) (hl : later ≠ []) :
    Comes (stmt Γ result (.switch c (earlier ++ .mk (some e) body :: later))) (expr Γ e)
  | armBody {Γ Δ result c c' t earlier e before before' s after later} (hc : c.check Γ = .ok (c',t))
      (hp : ∀ d ∈ earlier, d.Passed Γ result t) (hl : later ≠ []) (he : e.Accepted Γ t)
      (hs : Stmt.Leads result Γ.enter before before' Δ) :
    Comes (stmt Γ result (.switch c (earlier ++ .mk (some e) (before ++ s :: after) :: later)))
      (stmt Δ result s)
  | defaultBody {Γ Δ result c c' t earlier before before' s after} (hc : c.check Γ = .ok (c',t))
      (hp : ∀ d ∈ earlier, d.Passed Γ result t) (hs : Stmt.Leads result Γ.enter before before' Δ) :
    Comes (stmt Γ result (.switch c (earlier ++ [.mk none (before ++ s :: after)]))) (stmt Δ result s)
  | guard {Γ result c body} : Comes (stmt Γ result (.loop c body)) (expr Γ c)
  | loopBody {Γ Δ result c c' before before' s after} (hc : c.check Γ = .ok (c',.boolean))
      (hs : Stmt.Leads result Γ.enter before before' Δ) :
    Comes (stmt Γ result (.loop c (before ++ s :: after))) (stmt Δ result s)
  | returned {Γ result e} : Comes (stmt Γ result (.ret e)) (expr Γ e)
  | globalElement {Γ g before e after s d d'} (hv : g.value = some (.list (before ++ e :: after) s))
      (hd : g.typeName.mapM Ty.named = .ok d) (hs : Expr.Expects Γ d before d') :
    Comes (global Γ g) (expr Γ e)
  | globalInitial {Γ g e} (hv : g.value = some e) (hl : e.isList = false)
      (hn : ∀ n ∈ g.typeName, ∃ t, Ty.ofName? n = some t) : Comes (global Γ g) (expr Γ e)

/-- The rule of a node itself finds types that do not fit. -/
inductive Raises : Node → TypeError.Cause → Prop
  | operands {Γ op l l' a r r' b s cause} (hl : l.check Γ = .ok (l',a)) (hr : r.check Γ = .ok (r',b))
      (h : op.type a b = .error (.of cause)) : Raises (expr Γ (.binary op l r s)) cause
  | index {Γ x i i' u slot s b t} (hb : Γ.lookupVariable x = .ok b) (ht : b.value.element? = some t)
      (hi : i.check Γ = .ok (i',u)) (h : Ty.integer.accepts u = false) :
    Raises (expr Γ (.element x i slot s)) (.mismatch .integer u)
  | argument {Γ f slot s g before e e' u after ts t ts'}
      (hf : Γ.lookupFunction f (before ++ e :: after).length = .ok g) (hp : g.parameters = ts ++ t :: ts')
      (hs : List.Forall₂ (Expr.Accepted Γ) before ts) (he : e.check Γ = .ok (e',u))
      (h : t.accepts u = false) : Raises (expr Γ (.call f (before ++ e :: after) slot s)) (.mismatch t u)
  | element {Γ before e e' u after s t} (hs : Expr.Expects Γ none before (some t))
      (he : e.check Γ = .ok (e',u)) (h : t.accepts u = false) :
    Raises (expr Γ (.list (before ++ e :: after) s)) (.mismatch t u)
  | initial {Γ result x n t e e' u slot} (hn : Ty.ofName? n = some t) (he : e.check Γ = .ok (e',u))
      (h : t.accepts u = false) :
    Raises (stmt Γ result (.declaration x (some n) (some e) slot)) (.mismatch t u)
  | assigned {Γ result r r' t e e' u x} (hx : r.receiver? = some x) (hr : r.check Γ = .ok (r',t))
      (hm : Γ.requireMutable x = .ok ()) (he : e.check Γ = .ok (e',u)) (h : t.accepts u = false) :
    Raises (stmt Γ result (.assignment r e)) (.mismatch t u)
  | condition {Γ result c c' u thenBlock elseBlock} (hc : c.check Γ = .ok (c',u))
      (h : Ty.boolean.accepts u = false) :
    Raises (stmt Γ result (.ifElse c thenBlock elseBlock)) (.mismatch .boolean u)
  | armValue {Γ result c c' t earlier e e' u body later} (hc : c.check Γ = .ok (c',t))
      (hp : ∀ d ∈ earlier, d.Passed Γ result t) (hl : later ≠ []) (he : e.check Γ = .ok (e',u))
      (h : t.accepts u = false) :
    Raises (stmt Γ result (.switch c (earlier ++ .mk (some e) body :: later))) (.mismatch t u)
  | guard {Γ result c c' u body} (hc : c.check Γ = .ok (c',u)) (h : Ty.boolean.accepts u = false) :
    Raises (stmt Γ result (.loop c body)) (.mismatch .boolean u)
  | returned {Γ result e e' u} (he : e.check Γ = .ok (e',u)) (h : u ≠ result) :
    Raises (stmt Γ result (.ret e)) (.resultMismatch result u)
  | globalElement {Γ g before e e' u after s d t} (hv : g.value = some (.list (before ++ e :: after) s))
      (hd : g.typeName.mapM Ty.named = .ok d) (hs : Expr.Expects Γ d before (some t))
      (he : e.check Γ = .ok (e',u)) (h : t.accepts u = false) : Raises (global Γ g) (.mismatch t u)
  | globalInitial {Γ g n t e e' u} (hv : g.value = some e) (hl : e.isList = false)
      (hn : g.typeName = some n) (ht : Ty.ofName? n = some t) (he : e.check Γ = .ok (e',u))
      (h : t.accepts u = false) : Raises (global Γ g) (.mismatch t u)

/-- One node lies in another one, with all that is checked before it typed. -/
abbrev Reaches : Node → Node → Prop := Relation.ReflTransGen Comes

end Node
end BlockScript
