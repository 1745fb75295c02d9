import BlockScript.Typing.Program
import Mathlib.Data.List.Forall2
/-! The typing rules as relations on trees; what the slots hold plays no part. -/
namespace BlockScript

/-- What a name stands for in nested frames: its meaning in the innermost frame that binds it. -/
inductive Frame.Sees {α β γ : Type} (find : Frame α β → Option γ) : List (Frame α β) → γ → Prop
  | here {f fs c} (h : find f = some c) : Sees find (f :: fs) c
  | outside {f fs c} (h : find f = none) (hs : Sees find fs c) : Sees find (f :: fs) c

namespace Context

def Binds (Γ : Context) (x : String) (b : Binding Ty) : Prop :=
  Frame.Sees (·.findVariable x) Γ.frames b

def Knows (Γ : Context) (f : String) (arity : Nat) (s : Signature) : Prop :=
  Frame.Sees (·.findFunction f arity) Γ.frames s

/-- One more name in the innermost frame. -/
def bind (Γ : Context) (b : Binding Ty) : Context :=
  ⟨{ Γ.current with bindings := b :: Γ.current.bindings },Γ.enclosing⟩

def declare (Γ : Context) (f : Function) (s : Signature) : Context :=
  ⟨{ Γ.current with functions := ⟨f.name,f.arity,s⟩ :: Γ.current.functions },Γ.enclosing⟩

end Context

/-- A value of the second type may be stored where the first is expected. -/
inductive Ty.Assignable : Ty → Ty → Prop
  | any {t} : Assignable .any t
  | comparable {t} (h : t ∈ [integer,decimal,character,string]) : Assignable .comparable t
  | same {t} (h : t ≠ .comparable) : Assignable t t

/-- Integers have 32 bits. -/
inductive Literal.HasType : Literal → Ty → Prop
  | nil : HasType .nil .nil
  | boolean {b} : HasType (.boolean b) .boolean
  | integer {n : Int} (h : -2147483648 ≤ n ∧ n ≤ 2147483647) : HasType (.integer n) .integer
  | decimal {d : Decimal} (h : d.isFinite = true) : HasType (.decimal d) .decimal
  | character {c} : HasType (.character c) .character
  | string {s} : HasType (.string s) .string

mutual
inductive Expr.HasType (Γ : Context) : Expr → Ty → Prop
  | literal {v t s} (h : v.HasType t) : HasType Γ (.literal v s) t
  | group {e t s} (h : HasType Γ e t) : HasType Γ (.group e s) t
  | logical {op l r s} (ho : op = .and ∨ op = .or) (hl : HasType Γ l .boolean)
      (hr : HasType Γ r .boolean) : HasType Γ (.binary op l r s) .boolean
  | ordering {op l r s a b} (ho : op.isOrdering = true) (hl : HasType Γ l a) (hr : HasType Γ r b)
      (ha : Ty.comparable.Assignable a) (hb : Ty.comparable.Assignable b) :
      HasType Γ (.binary op l r s) .boolean
  | equality {op l r s a b} (ho : op = .equal ∨ op = .notEqual) (hl : HasType Γ l a)
      (hr : HasType Γ r b) : HasType Γ (.binary op l r s) .boolean
  /-- A string on either side takes anything on the other. -/
  | joining {l r s a b} (hl : HasType Γ l a) (hr : HasType Γ r b) (h : a = .string ∨ b = .string) :
      HasType Γ (.binary .add l r s) .string
  | arithmetic {op l r s t} (ho : op ∈ [Operator.add,.subtract,.multiply,.divide])
      (ht : t = .integer ∨ t = .decimal) (hl : HasType Γ l t) (hr : HasType Γ r t) :
      HasType Γ (.binary op l r s) t
  | power {l r s} (hl : HasType Γ l .integer) (hr : HasType Γ r .integer) :
      HasType Γ (.binary .power l r s) .integer
  | ref {x b slot s} (h : Γ.Binds x b) : HasType Γ (.ref x slot s) b.value
  | element {x b i slot s t} (h : Γ.Binds x b) (hb : b.value = .list t)
      (hi : HasType Γ i .integer) : HasType Γ (.element x i slot s) t
  | call {f es g slot s} (h : Γ.Knows f es.length g) (hs : Fit Γ es g.parameters) :
      HasType Γ (.call f es slot s) g.result
  /-- The first element gives the type of all. -/
  | list {e es t s} (h : HasType Γ e t) (hs : Fit Γ es (List.replicate es.length t)) :
      HasType Γ (.list (e :: es) s) (.list t)

/-- As many expressions as types, each of a type that may be stored at its own. -/
inductive Expr.Fit (Γ : Context) : List Expr → List Ty → Prop
  | nil : Fit Γ [] []
  | cons {e es t ts u} (h : HasType Γ e u) (ha : t.Assignable u) (hs : Fit Γ es ts) :
      Fit Γ (e :: es) (t :: ts)
end

/-- The type of a name that is declared with the name of a type, an initial value, or both. -/
inductive Expr.Declares (Γ : Context) : Option String → Option Expr → Ty → Prop
  | typed {n t} (h : Ty.ofName? n = some t) : Declares Γ (some n) none t
  | initial {e t} (h : e.HasType Γ t) : Declares Γ none (some e) t
  | both {n e t u} (h : Ty.ofName? n = some t) (he : e.HasType Γ u) (ha : t.Assignable u) :
      Declares Γ (some n) (some e) t

mutual
/-- A statement in a function with a result type, and the names after it. -/
inductive Stmt.Typed (result : Ty) : Context → Stmt → Context → Prop
  | expression {Γ e t} (h : Expr.HasType Γ e t) : Stmt.Typed result Γ (.expression e) Γ
  | declaration {Γ : Context} {x typeName value slot t} (h : Expr.Declares Γ typeName value t)
      (hx : Γ.current.findVariable x = none) :
      Stmt.Typed result Γ (.declaration x typeName value slot) (Γ.bind ⟨x,t,true⟩)
  | assignment {Γ : Context} {r e : Expr} {x b t u} (hx : r.receiver? = some x)
      (hr : r.HasType Γ t) (hb : Γ.Binds x b) (hm : b.mutable = true) (he : e.HasType Γ u)
      (ha : t.Assignable u) : Stmt.Typed result Γ (.assignment r e) Γ
  | ifElse {Γ : Context} {c : Expr} {thenBlock elseBlock} (hc : c.HasType Γ .boolean)
      (hn : thenBlock ≠ []) (ht : Stmt.BlockTyped result Γ.enter thenBlock)
      (he : Stmt.BlockTyped result Γ.enter elseBlock) :
      Stmt.Typed result Γ (.ifElse c thenBlock elseBlock) Γ
  | switch {Γ c t cs} (hc : Expr.HasType Γ c t) (hs : Case.AllTyped result Γ t cs) :
      Stmt.Typed result Γ (.switch c cs) Γ
  | loop {Γ : Context} {c : Expr} {body} (hc : c.HasType Γ .boolean)
      (hb : Stmt.BlockTyped result Γ.enter body) : Stmt.Typed result Γ (.loop c body) Γ
  | ret {Γ e} (h : Expr.HasType Γ e result) : Stmt.Typed result Γ (.ret e) Γ

inductive Stmt.BlockTyped (result : Ty) : Context → List Stmt → Prop
  | nil {Γ} : Stmt.BlockTyped result Γ []
  | cons {Γ Δ s ss} (h : Stmt.Typed result Γ s Δ) (hs : Stmt.BlockTyped result Δ ss) :
      Stmt.BlockTyped result Γ (s :: ss)

/-- Arms with values that fit the condition, and one without at the end. -/
inductive Case.AllTyped (result : Ty) : Context → Ty → List Case → Prop
  | default {Γ : Context} {t body} (h : Stmt.BlockTyped result Γ.enter body) :
      Case.AllTyped result Γ t [.mk none body]
  | arm {Γ : Context} {e : Expr} {t u body cs} (he : e.HasType Γ u) (ha : t.Assignable u)
      (hb : Stmt.BlockTyped result Γ.enter body) (hs : Case.AllTyped result Γ t cs) :
      Case.AllTyped result Γ t (.mk (some e) body :: cs)
end

/-- A list with a declared element type takes its elements at that type; any other global is like a
declaration. -/
inductive Global.HasType (Γ : Context) (g : Global) : Ty → Prop
  | list {n t es s} (hv : g.value = some (.list es s)) (hn : g.typeName = some n)
      (h : Ty.ofName? n = some t) (hs : Expr.Fit Γ es (List.replicate es.length t)) :
      HasType Γ g (.list t)
  | initial {t} (hv : ∀ n es s, g.typeName = some n → g.value ≠ some (.list es s))
      (h : Expr.Declares Γ g.typeName g.value t) : HasType Γ g t

/-- Globals in order, and the names after them. -/
inductive Global.AllTyped : Context → List Global → Context → Prop
  | nil {Γ} : AllTyped Γ [] Γ
  | cons {Γ Δ g gs t} (h : g.HasType Γ t) (hx : Γ.current.findVariable g.name = none)
      (hs : AllTyped (Γ.bind ⟨g.name,t,g.mutable⟩) gs Δ) : AllTyped Γ (g :: gs) Δ

/-- The signature that a function's text declares; without a result type it returns nil. -/
structure Function.Declares (f : Function) (s : Signature) : Prop where
  parameters : List.Forall₂ (fun n t => Ty.ofName? n = some t) f.parameterTypeNames s.parameters
  result : f.resultTypeName.elim (some .nil) Ty.ofName? = some s.result

/-- Functions with their signatures, and the names after all of them. -/
inductive Function.AllDeclared : Context → List Function → List Signature → Context → Prop
  | nil {Γ} : AllDeclared Γ [] [] Γ
  | cons {Γ Δ f fs s ss} (h : f.Declares s) (hx : Γ.current.findFunction f.name f.arity = none)
      (hs : AllDeclared (Γ.declare f s) fs ss Δ) : AllDeclared Γ (f :: fs) (s :: ss) Δ

/-- The names in sight of a body: the parameters stand in one frame with its own declarations. -/
def Function.inside (Γ : Context) (f : Function) (s : Signature) : Context :=
  (f.bindings s).foldl Context.bind Γ.enter

structure Function.Typed (Γ : Context) (f : Function) (s : Signature) : Prop where
  parameters : f.parameters.Nodup
  body : Stmt.BlockTyped s.result (f.inside Γ s) f.body

/-- The globals see the names from outside, and the bodies see every global and function. -/
def Program.Typed (names : Frame Ty Signature) (p : Program) : Prop :=
  ∃ Γ ss Δ, Global.AllTyped (.ofFrame names) p.globals Γ ∧
    Function.AllDeclared Γ p.functions ss Δ ∧ List.Forall₂ (Function.Typed Δ) p.functions ss

def Program.HasMain (p : Program) : Prop :=
  ∃ f ∈ p.functions, f.name = "main" ∧ f.parameters = [] ∧ f.resultTypeName = some "Integer"

end BlockScript
