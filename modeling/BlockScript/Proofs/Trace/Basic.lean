import BlockScript.Execution.Evaluate
import BlockScript.Proofs.Scopes.Chain
import BlockScript.Typing.Program
/-! Runs that keep a record of every moment they pass through, and beside the values in scope the
bindings that the checked tree holds for their declarations. -/
namespace BlockScript

/-- What a run does at a moment. -/
inductive Action where
  | opened
  | bound (name : String)
  | evaluating (e : Expr)
  | evaluated (e : Expr) (value : Value)
  /-- Both operands have values, and the operator is applied next. -/
  | operating (op : Operator) (left right : Expr) (a b : Value)
  /-- A variable is looked up for an occurrence of its name, which holds the given slot. -/
  | accessing (name : String) (slot : Option (Binding Ty))
  | executing (s : Stmt)
  | executed (s : Stmt) (completion : Completion)

/-- A point of a run: what happens, the running scope, the machine, and for each name in scope the
binding of its declaration. -/
structure Moment where
  action : Action
  scope : Nat
  machine : Machine
  declared : Environment Ty Signature

/-- A machine with its record; the latest moment comes first. -/
structure Watch where
  machine : Machine
  declared : Environment Ty Signature
  past : List Moment

abbrev Traced := EStateM Halt Watch

/-- Bind a name in a scope without a look at the names there; an empty slot binds nothing. -/
def Environment.declare {α β : Type} (env : Environment α β) (scope : Nat)
    (slot : Option (Binding α)) : Environment α β :=
  ⟨env.scopes.modify scope fun s => { s with frame.bindings := slot.toList ++ s.frame.bindings }⟩

namespace Traced
variable {α : Type}

/-- How calls are made: from a scope, by name, with arguments. -/
abbrev Caller := Nat → String → List Value → Traced Value

/-- A step of the machine. -/
def lift (r : Run α) : Traced α := fun w =>
  match r w.machine with
  | .ok a m => .ok a { w with machine := m }
  | .error e m => .error e { w with machine := m }

def note (scope : Nat) (action : Action) : Traced Unit :=
  modify fun w => { w with past := ⟨action,scope,w.machine,w.declared⟩ :: w.past }

/-- A step between two moments. The second is missing when the step fails. -/
def around (scope : Nat) (before : Action) (after : α → Action) (x : Traced α) : Traced α := do
  note scope before
  let a ← x
  note scope (after a)
  return a

def define (scope : Nat) (name : String) (value : Value) (mutable : Bool)
    (slot : Option (Binding Ty)) : Traced Unit := do
  lift (Run.defineVariable scope name value mutable)
  modify fun w => { w with declared := w.declared.declare scope slot }
  note scope (.bound name)

/-- Bind parameters to arguments in order, beside the bindings of their declarations. -/
def defineAll (scope : Nat) : List (String × Value) → List (Binding Ty) → Traced Unit
  | [], _ => pure ()
  | (name,value) :: rest, slots => do
    define scope name value false slots.head?
    defineAll scope rest slots.tail

def assign (scope : Nat) (name : String) (slot : Option (Binding Ty)) (index : Option Value)
    (value : Value) : Traced Unit := do
  note scope (.accessing name slot)
  lift (Run.assign scope name index value)

end Traced

/-- The record goes on when a scope is closed. -/
def Watch.close (w : Watch) (scope : Nat) : Watch :=
  { w with
    machine := { w.machine with environment := w.machine.environment.pop scope }
    declared := w.declared.pop scope }

namespace Traced
variable {α : Type}

def inChild (parent : Nat) (body : Nat → Traced α) : Traced α := fun w =>
  match w.machine.environment.push parent with
  | .error e => .error (.failed (.scope e)) w
  | .ok (scope,env) =>
    match (note scope .opened *> body scope)
      { w with machine := { w.machine with environment := env }, declared := w.declared.inner parent } with
    | .ok a w => .ok a (w.close scope)
    | .error e w => .error e (w.close scope)

def repeatWhile (condition : Traced Bool) (body : Traced Completion) : Nat → Traced Completion
  | 0 => throw .outOfFuel
  | n + 1 => do
    if ← condition then
      match ← body with
      | .normal => repeatWhile condition body n
      | .returned v => return .returned v
    else return .normal

end Traced

mutual
def Expr.trace (call : Traced.Caller) (scope : Nat) (e : Expr) : Traced Value :=
  Traced.around scope (.evaluating e) (.evaluated e) <|
    match e with
    | .literal v _ => pure (.ofLiteral v)
    | .group e _ => e.trace call scope
    | .binary op l r _ => do
      let a ← l.trace call scope
      if ← Traced.lift (op.isDecided a) then return .boolean true
      else
        let b ← r.trace call scope
        Traced.note scope (.operating op l r a b)
        Traced.lift (Run.ofResult (a.operate op b))
    | .ref x slot _ => do
      Traced.note scope (.accessing x slot)
      return (← Traced.lift (Run.lookupVariable scope x)).value
    | .element x i slot _ => do
      let index ← i.trace call scope
      Traced.note scope (.accessing x slot)
      let b ← Traced.lift (Run.lookupVariable scope x)
      Traced.lift (Run.ofResult (b.value.element index))
    | .call f es _ _ => do
      let arguments ← Expr.traceAll call scope es
      call scope f arguments
    | .list es _ => do return .list (← Expr.traceAll call scope es)

def Expr.traceAll (call : Traced.Caller) (scope : Nat) : List Expr → Traced (List Value)
  | [] => pure []
  | e :: es => do
    let v ← e.trace call scope
    return v :: (← Expr.traceAll call scope es)
end

def Expr.traceBoolean (call : Traced.Caller) (scope : Nat) (e : Expr) : Traced Bool := do
  Traced.lift (Run.ofResult (← e.trace call scope).toBoolean)

def Expr.traceInitial (call : Traced.Caller) (scope : Nat) : Option Expr → Traced Value
  | some e => e.trace call scope
  | none => pure .nil

def Case.traceTaken (call : Traced.Caller) (scope : Nat) (value : Value) :
    Option Expr → Traced Bool
  | some e => do return (← e.trace call scope).equal value
  | none => pure true

mutual
def Stmt.trace (call : Traced.Caller) (rounds scope : Nat) (s : Stmt) : Traced Completion :=
  Traced.around scope (.executing s) (.executed s) <|
    match s with
    | .expression e => do
      let _ ← e.trace call scope
      return .normal
    | .declaration x _ value slot => do
      let v ← Expr.traceInitial call scope value
      Traced.define scope x v true slot
      return .normal
    | .assignment (.ref x slot _) e => do
      let v ← e.trace call scope
      Traced.assign scope x slot none v
      return .normal
    | .assignment (.element x i slot _) e => do
      let index ← i.trace call scope
      let v ← e.trace call scope
      Traced.assign scope x slot (some index) v
      return .normal
    | .assignment _ _ => Traced.lift (Run.fail .invalidReceiver)
    | .ifElse c thenBlock elseBlock => do
      if ← c.traceBoolean call scope then
        Traced.inChild scope fun inner => Stmt.traceBlock call rounds inner thenBlock
      else Traced.inChild scope fun inner => Stmt.traceBlock call rounds inner elseBlock
    | .switch c cases => do
      let v ← c.trace call scope
      Case.traceFirst call rounds scope v cases
    | .loop c body =>
      Traced.repeatWhile (c.traceBoolean call scope)
        (Traced.inChild scope fun inner => Stmt.traceBlock call rounds inner body) rounds
    | .ret e => do return .returned (← e.trace call scope)

def Stmt.traceBlock (call : Traced.Caller) (rounds scope : Nat) : List Stmt → Traced Completion
  | [] => pure .normal
  | s :: ss => do
    match ← s.trace call rounds scope with
    | .normal => Stmt.traceBlock call rounds scope ss
    | .returned v => return .returned v

def Case.traceFirst (call : Traced.Caller) (rounds scope : Nat) (value : Value) :
    List Case → Traced Completion
  | [] => pure .normal
  | .mk v body :: cs => do
    if ← Case.traceTaken call scope value v then
      Traced.inChild scope fun inner => Stmt.traceBlock call rounds inner body
    else Case.traceFirst call rounds scope value cs
end

/-- The bindings that a checked function holds for its parameters. -/
def Function.slots (f : Function) : List (Binding Ty) :=
  (f.signature.map f.bindings).getD []

/-- The functions of a frame with those that checked functions declare in front. -/
def Frame.declareFunctions {α : Type} (frame : Frame α Signature) (fs : List Function) :
    Frame α Signature :=
  fs.foldl (fun frame f =>
    { frame with functions := (f.signature.map (⟨f.name,f.arity,·⟩)).toList ++ frame.functions }) frame

namespace Traced

def call : Nat → Caller
  | 0 => fun _ _ _ => throw .outOfFuel
  | n + 1 => fun scope name arguments => do
    match ← lift (Run.lookupFunction scope name arguments.length) with
    | .print => lift (Run.print arguments)
    | .declared f home =>
      inChild home fun inner => do
        defineAll inner (f.parameters.zip arguments) f.slots
        match ← Stmt.traceBlock (call n) n inner f.body with
        | .returned v => return v
        | .normal => return .nil

def loadGlobals (fuel : Nat) : List Global → Traced Unit
  | [] => pure ()
  | g :: gs => do
    let v ← Expr.traceInitial (call fuel) Environment.root g.value
    define Environment.root g.name v g.mutable g.binding
    loadGlobals fuel gs

/-- Load a program for which the names from outside have the given types. -/
def load (names : Frame Ty Signature) (fuel : Nat) (p : Program) : Traced Unit := do
  modify fun w =>
    { w with machine.environment := .ofRoot w.machine.prelude, declared := .ofRoot names }
  loadGlobals fuel p.globals
  lift (Run.loadFunctions p.functions)
  modify fun w =>
    { w with declared := ⟨w.declared.scopes.modify Environment.root fun s =>
      { s with frame := s.frame.declareFunctions p.functions }⟩ }

def program (names : Frame Ty Signature) (fuel : Nat) (p : Program) : Traced Value := do
  load names fuel p
  call fuel Environment.root "main" []

end Traced

/-- The outcome and the record of a run of a checked program on a fresh machine. -/
def Program.watch (fuel : Nat) (p : Program) (sink : Sink) : EStateM.Result Halt Watch Value :=
  Traced.program Program.standardNames fuel p
    ⟨.new Machine.standardNames sink,.ofRoot Program.standardNames,[]⟩

def Watch.final {α : Type} : EStateM.Result Halt Watch α → Watch
  | .ok _ w => w
  | .error _ w => w

/-- Every moment of a run of a checked program, the latest first. -/
def Program.moments (fuel : Nat) (p : Program) (sink : Sink) : List Moment :=
  (Watch.final (p.watch fuel sink)).past

end BlockScript
