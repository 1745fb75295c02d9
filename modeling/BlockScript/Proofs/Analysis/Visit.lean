import BlockScript.Proofs.Scopes.Chain
import BlockScript.Typing.Program
/-! Checking a tree in place. A visit writes the slots of the node it is given one after the other,
so a node that is rejected keeps those written before the error. The names in sight are held in one
stack of scopes, which grows and shrinks with the blocks. -/
namespace BlockScript

/-- What a visit comes to, and the node as it leaves it. -/
@[ext]
structure Visit (ν α : Type) where
  node : ν
  verdict : Checked α

/-- The scopes of an analyzer: names with their types, functions with their signatures. -/
abbrev Names := Environment Ty Signature

namespace Visit
variable {μ ν α β : Type}

/-- The visit of a part of a node, with the part put back in its place. -/
def into (put : μ → ν) (v : Visit μ α) : Visit ν α := ⟨put v.node, v.verdict⟩

/-- Visit a part of a node and go on with the visited part. An error ends the visit of the node,
with the part put back in its place. -/
def andThen (v : Visit μ α) (put : μ → ν) (next : μ → α → Visit ν β) : Visit ν β :=
  match v.verdict with
  | .ok a => next v.node a
  | .error e => ⟨put v.node, .error e⟩

/-- A step that writes no slot of the node. -/
def check (r : Checked α) (node : ν) (next : α → Visit ν β) : Visit ν β :=
  match r with
  | .ok a => next a
  | .error e => ⟨node, .error e⟩

/-- An error is placed at the node as the visit leaves it, unless it has a place. -/
def within (render : ν → String) (v : Visit ν α) : Visit ν α :=
  ⟨v.node, v.verdict.within fun _ => render v.node⟩

/-- A visit in a new scope, which is closed on every path. -/
def inScope (parent : Nat) (names : Names) (visit : Nat → Names → Visit (ν × Names) α) :
    Visit (ν × Names) α :=
  (visit names.depth (names.inner parent)).into fun n => (n.1, n.2.pop names.depth)

/-- Visit the nodes of a list in order, each with the names that the one before it leaves. -/
def all (visit : ν → Names → Visit (ν × Names) Unit) :
    List ν → Names → Visit (List ν × Names) Unit
  | [], names => ⟨([], names), .ok ()⟩
  | n :: ns, names =>
    (visit n names).andThen (fun m => (m.1 :: ns, m.2)) fun n _ =>
      (all visit ns n.2).into fun ms => (n.1 :: ms.1, ms.2)

end Visit

/-! ### Expressions -/

/-- Write the slot of an expression that holds its type. -/
def Expr.setTy (t : Ty) : Expr → Expr
  | .literal v _ => .literal v t
  | .group e _ => .group e t
  | .binary op l r _ => .binary op l r t
  | .ref x slot _ => .ref x slot t
  | .element x i slot _ => .element x i slot t
  | .call f es slot _ => .call f es slot t
  | .list es _ => .list es t

/-- The type found for an expression is written into it; an error may be placed at it. -/
def Visit.settle (v : Visit Expr Ty) : Visit Expr Ty :=
  match v.verdict with
  | .ok t => ⟨v.node.setTy t, .ok t⟩
  | .error e => ⟨v.node, .error (e.within v.node.render)⟩

section
variable (names : Names) (scope : Nat)

mutual
/-- Find the type of an expression. The slot of a name is written after the rest of its node has
been checked. -/
def Expr.visit (e : Expr) : Visit Expr Ty :=
  Visit.settle <|
    match e with
    | .literal v s => ⟨.literal v s, v.type⟩
    | .group e s => e.visit.into (.group · s)
    | .binary op l r s =>
      l.visit.andThen (.binary op · r s) fun l left =>
      r.visit.andThen (.binary op l · s) fun r right =>
      ⟨.binary op l r s, op.type left right⟩
    | .ref x slot s =>
      .check (.ofNames (names.lookupVariable scope x)) (.ref x slot s) fun b =>
      ⟨.ref x b s, .ok b.value⟩
    | .element x i slot s =>
      .check (.ofNames (names.lookupVariable scope x)) (.element x i slot s) fun b =>
      match b.value.element? with
      | none => ⟨.element x i slot s, .fail (.notAList x)⟩
      | some t =>
        i.visit.andThen (.element x · slot s) fun i index =>
        .check (Ty.require .integer index) (.element x i slot s) fun _ =>
        ⟨.element x i b s, .ok t⟩
    | .call f es slot s =>
      .check (.ofNames (names.lookupFunction scope f es.length)) (.call f es slot s) fun g =>
      (Expr.visitArguments es g.parameters).andThen (.call f · slot s) fun es _ =>
      ⟨.call f es g s, .ok g.result⟩
    | .list es s =>
      (Expr.visitElements none es).andThen (.list · s) fun es t =>
      ⟨.list es s, .ok (.list t)⟩

/-- Arguments against the types of their parameters; what one of the lists has more of the other is
left as it is. -/
def Expr.visitArguments : List Expr → List Ty → Visit (List Expr) Unit
  | e :: es, t :: ts =>
    e.visit.andThen (· :: es) fun e received =>
    .check (t.require received) (e :: es) fun _ =>
    (Expr.visitArguments es ts).into (e :: ·)
  | es, _ => ⟨es, .ok ()⟩

/-- Elements against the expected type or else the first element's. -/
def Expr.visitElements (expected : Option Ty) : List Expr → Visit (List Expr) Ty
  | [] =>
    match expected with
    | some t => ⟨[], .ok t⟩
    | none => ⟨[], .fail .emptyList⟩
  | e :: es =>
    e.visit.andThen (· :: es) fun e received =>
    match expected with
    | some t =>
      .check (t.require received) (e :: es) fun _ =>
      (Expr.visitElements (some t) es).into (e :: ·)
    | none => (Expr.visitElements (some received) es).into (e :: ·)
end

/-- The initial value of a declaration, and the type of what is declared. -/
def Expr.visitInitial (name : String) (typeName : Option String) (value : Option Expr) :
    Visit (Option Expr) Ty :=
  match typeName, value with
  | none, none => ⟨none, .fail (.missingTypeOrValue name)⟩
  | some n, none => ⟨none, Ty.named n⟩
  | none, some e => (e.visit names scope).into some
  | some n, some e =>
    .check (Ty.named n) (some e) fun declared =>
    (e.visit names scope).andThen some fun e t =>
    .check (declared.require t) (some e) fun _ =>
    ⟨some e, .ok declared⟩

end

/-! ### Statements -/

/-- A name that is assigned to must be bound as mutable. -/
def Environment.requireMutable (names : Names) (scope : Nat) (x : String) : Checked Unit := do
  let b ← Checked.ofNames (names.lookupVariable scope x)
  if b.mutable then return () else .fail (.immutableAssignment x)

mutual
/-- Check a statement. A declaration adds its name to the scope, nothing else does. -/
def Stmt.visit (scope : Nat) (result : Ty) (s : Stmt) (names : Names) : Visit (Stmt × Names) Unit :=
  Visit.within (fun n => n.1.render) <|
    match s with
    | .expression e =>
      (e.visit names scope).andThen (fun e => (.expression e, names)) fun e _ =>
      ⟨(.expression e, names), .ok ()⟩
    | .declaration x typeName value slot =>
      (Expr.visitInitial names scope x typeName value).andThen
        (fun value => (.declaration x typeName value slot, names)) fun value t =>
      let b : Binding Ty := ⟨x, t, true⟩
      .check (.ofNames (names.defineVariable scope b))
        (.declaration x typeName value slot, names) fun names =>
      ⟨(.declaration x typeName value b, names), .ok ()⟩
    | .assignment receiver e =>
      match receiver.receiver? with
      | none => ⟨(.assignment receiver e, names), .fail .invalidReceiver⟩
      | some x =>
        (receiver.visit names scope).andThen (fun r => (.assignment r e, names)) fun receiver t =>
        .check (names.requireMutable scope x) (.assignment receiver e, names) fun _ =>
        (e.visit names scope).andThen (fun e => (.assignment receiver e, names)) fun e received =>
        ⟨(.assignment receiver e, names), t.require received⟩
    | .ifElse c thenBlock elseBlock =>
      (c.visit names scope).andThen (fun c => (.ifElse c thenBlock elseBlock, names)) fun c t =>
      .check (Ty.require .boolean t) (.ifElse c thenBlock elseBlock, names) fun _ =>
      if thenBlock.isEmpty then ⟨(.ifElse c thenBlock elseBlock, names), .fail .emptyThenBlock⟩
      else
        (Visit.inScope scope names fun inner => Stmt.visitBlock inner result thenBlock).andThen
          (fun n => (.ifElse c n.1 elseBlock, n.2)) fun m _ =>
        (Visit.inScope scope m.2 fun inner => Stmt.visitBlock inner result elseBlock).into
          fun n => (.ifElse c m.1 n.1, n.2)
    | .switch c cases =>
      (c.visit names scope).andThen (fun c => (.switch c cases, names)) fun c t =>
      (Case.visitAll scope result t cases names).into fun n => (.switch c n.1, n.2)
    | .loop c body =>
      (c.visit names scope).andThen (fun c => (.loop c body, names)) fun c t =>
      .check (Ty.require .boolean t) (.loop c body, names) fun _ =>
      (Visit.inScope scope names fun inner => Stmt.visitBlock inner result body).into
        fun n => (.loop c n.1, n.2)
    | .ret e =>
      (e.visit names scope).andThen (fun e => (.ret e, names)) fun e received =>
      ⟨(.ret e, names),
        if received = result then .ok () else .fail (.resultMismatch result received)⟩

def Stmt.visitBlock (scope : Nat) (result : Ty) :
    List Stmt → Names → Visit (List Stmt × Names) Unit
  | [], names => ⟨([], names), .ok ()⟩
  | s :: ss, names =>
    (s.visit scope result names).andThen (fun n => (n.1 :: ss, n.2)) fun m _ =>
    (Stmt.visitBlock scope result ss m.2).into fun n => (m.1 :: n.1, n.2)

/-- The layout of an arm is looked at when its turn comes. -/
def Case.visitAll (scope : Nat) (result condition : Ty) :
    List Case → Names → Visit (List Case × Names) Unit
  | [], names => ⟨([], names), .fail .finalCaseNotDefault⟩
  | [.mk value body], names =>
    match value with
    | some e => ⟨([.mk (some e) body], names), .fail .finalCaseNotDefault⟩
    | none =>
      (Visit.inScope scope names fun inner => Stmt.visitBlock inner result body).into
        fun n => ([.mk none n.1], n.2)
  | .mk value body :: d :: cs, names =>
    match value with
    | none => ⟨(.mk none body :: d :: cs, names), .fail .defaultNotLast⟩
    | some e =>
      (e.visit names scope).andThen (fun e => (.mk (some e) body :: d :: cs, names)) fun e t =>
      .check (condition.require t) (.mk (some e) body :: d :: cs, names) fun _ =>
      (Visit.inScope scope names fun inner => Stmt.visitBlock inner result body).andThen
        (fun n => (.mk (some e) n.1 :: d :: cs, n.2)) fun m _ =>
      (Case.visitAll scope result condition (d :: cs) m.2).into
        fun n => (.mk (some e) m.1 :: n.1, n.2)
end

/-! ### Programs -/

/-- The elements of a list are checked against the declared type, and the list is written to be of
their type. -/
def Global.visitValue (scope : Nat) (g : Global) (names : Names) : Visit (Option Expr) Ty :=
  Visit.within (fun value => { g with value := value }.render) <|
    match g.value with
    | some (.list es s) =>
      .check (g.typeName.mapM Ty.named) (some (.list es s)) fun declared =>
      (Expr.visitElements names scope declared es).andThen (fun es => some (.list es s)) fun es t =>
      ⟨some (.list es (Ty.list t)), .ok (.list t)⟩
    | value => Expr.visitInitial names scope g.name g.typeName value

def Global.visit (scope : Nat) (g : Global) (names : Names) : Visit (Global × Names) Unit :=
  (g.visitValue scope names).andThen (fun value => ({ g with value := value }, names)) fun value t =>
  let b : Binding Ty := ⟨g.name, t, g.mutable⟩
  .check (.ofNames (names.defineVariable scope b)) ({ g with value := value }, names) fun names =>
  ⟨({ g with value := value, binding := b }, names), .ok ()⟩

/-- The signature that a function's text names is declared, and left in its slot. -/
def Function.visitSignature (scope : Nat) (f : Function) (names : Names) :
    Visit (Function × Names) Unit :=
  .check f.declared (f, names) fun s =>
  .check (.ofNames (names.defineFunction scope f.name f.arity s)) (f, names) fun names =>
  ⟨({ f with signature := s }, names), .ok ()⟩

/-- Bind names in one scope, in order. -/
def Environment.defineAll (names : Names) (scope : Nat) : List (Binding Ty) → Except NameError Names
  | [] => .ok names
  | b :: bs => do (← names.defineVariable scope b).defineAll scope bs

/-- The body of a function is checked against the signature in its slot. -/
def Function.visitBody (scope : Nat) (f : Function) (names : Names) : Visit (Function × Names) Unit :=
  match f.signature with
  | none => ⟨(f, names), .fail (.scope (.undefinedFunction f.name f.arity))⟩
  | some s =>
    Visit.inScope scope names fun inner names =>
      .check (.ofNames (names.defineAll inner (f.bindings s))) (f, names) fun names =>
      (Stmt.visitBlock inner s.result f.body names).into fun n => ({ f with body := n.1 }, n.2)

/-- All signatures are declared before any body is looked at. -/
def Program.visit (p : Program) (names : Names) : Visit (Program × Names) Unit :=
  if p.functions.any Function.isMain then
    (Visit.all (Global.visit Environment.root) p.globals names).andThen
      (fun n => (⟨n.1, p.functions⟩, n.2)) fun gs _ =>
    (Visit.all (Function.visitSignature Environment.root) p.functions gs.2).andThen
      (fun n => (⟨gs.1, n.1⟩, n.2)) fun fs _ =>
    (Visit.all (Function.visitBody Environment.root) fs.1 fs.2).into fun n => (⟨gs.1, n.1⟩, n.2)
  else ⟨(p, names), .fail .missingMain⟩

/-- An analyzer with the names that every program is checked against, and those that the last
program has left. -/
structure Analyzer where
  prelude : Names
  names : Names

namespace Analyzer

def new (prelude : Names) : Analyzer := ⟨prelude, prelude⟩

/-- Every program is checked against a fresh copy of the prelude. -/
def analyze (a : Analyzer) (p : Program) : Analyzer × Visit Program Unit :=
  let v := p.visit a.prelude
  ({ a with names := v.node.2 }, v.into (·.1))

/-- The analyzer after it has been given some programs, accepted or not. -/
def after (a : Analyzer) (history : List Program) : Analyzer :=
  history.foldl (fun a p => (a.analyze p).1) a

end Analyzer
end BlockScript
