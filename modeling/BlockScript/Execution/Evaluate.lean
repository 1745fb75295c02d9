import BlockScript.Execution.Machine
/-! Evaluating expressions and executing statements. Both follow the tree; only calls and loop rounds
use up fuel. -/
namespace BlockScript

/-- How calls are made: from a scope, by name, with arguments. -/
abbrev Caller := Nat → String → List Value → Run Value

/-- Only an `or` with a true left side leaves its right side alone. -/
def Operator.isDecided (op : Operator) (left : Value) : Run Bool :=
  if op = .or then Run.ofResult left.toBoolean else pure false

mutual
def Expr.evaluate (call : Caller) (scope : Nat) : Expr → Run Value
  | .literal v _ => pure (.ofLiteral v)
  | .group e _ => e.evaluate call scope
  | .binary op l r _ => do
    let a ← l.evaluate call scope
    if ← op.isDecided a then return .boolean true
    else
      let b ← r.evaluate call scope
      Run.ofResult (a.operate op b)
  | .ref x _ _ => do return (← Run.lookupVariable scope x).value
  | .element x i _ _ => do
    let index ← i.evaluate call scope
    let b ← Run.lookupVariable scope x
    Run.ofResult (b.value.element index)
  | .call f es _ _ => do
    let arguments ← Expr.evaluateAll call scope es
    call scope f arguments
  | .list es _ => do return .list (← Expr.evaluateAll call scope es)

/-- Values from left to right. -/
def Expr.evaluateAll (call : Caller) (scope : Nat) : List Expr → Run (List Value)
  | [] => pure []
  | e :: es => do
    let v ← e.evaluate call scope
    return v :: (← Expr.evaluateAll call scope es)
end

def Expr.evaluateBoolean (call : Caller) (scope : Nat) (e : Expr) : Run Bool := do
  Run.ofResult (← e.evaluate call scope).toBoolean

/-- A variable without an initial value holds nil. -/
def Expr.evaluateInitial (call : Caller) (scope : Nat) : Option Expr → Run Value
  | some e => e.evaluate call scope
  | none => pure .nil

/-- Whether an arm is taken for a value. -/
def Case.isTaken (call : Caller) (scope : Nat) (value : Value) : Option Expr → Run Bool
  | some e => do return (← e.evaluate call scope).equal value
  | none => pure true

mutual
/-- The index, the value and then the variable of an assignment are looked at in this order. -/
def Stmt.execute (call : Caller) (rounds scope : Nat) : Stmt → Run Completion
  | .expression e => do
    let _ ← e.evaluate call scope
    return .normal
  | .declaration x _ value _ => do
    let v ← Expr.evaluateInitial call scope value
    Run.defineVariable scope x v true
    return .normal
  | .assignment (.ref x _ _) e => do
    let v ← e.evaluate call scope
    Run.assign scope x none v
    return .normal
  | .assignment (.element x i _ _) e => do
    let index ← i.evaluate call scope
    let v ← e.evaluate call scope
    Run.assign scope x (some index) v
    return .normal
  | .assignment _ _ => Run.fail .invalidReceiver
  | .ifElse c thenBlock elseBlock => do
    if ← c.evaluateBoolean call scope then
      Run.inChild scope fun inner => Stmt.executeBlock call rounds inner thenBlock
    else Run.inChild scope fun inner => Stmt.executeBlock call rounds inner elseBlock
  | .switch c cases => do
    let v ← c.evaluate call scope
    Case.executeFirst call rounds scope v cases
  | .loop c body =>
    Run.repeatWhile (c.evaluateBoolean call scope)
      (Run.inChild scope fun inner => Stmt.executeBlock call rounds inner body) rounds
  | .ret e => do return .returned (← e.evaluate call scope)

/-- Statements in order, up to a return. -/
def Stmt.executeBlock (call : Caller) (rounds scope : Nat) : List Stmt → Run Completion
  | [] => pure .normal
  | s :: ss => do
    match ← s.execute call rounds scope with
    | .normal => Stmt.executeBlock call rounds scope ss
    | .returned v => return .returned v

/-- The body of the first arm that is taken. -/
def Case.executeFirst (call : Caller) (rounds scope : Nat) (value : Value) :
    List Case → Run Completion
  | [] => pure .normal
  | .mk v body :: cs => do
    if ← Case.isTaken call scope value v then
      Run.inChild scope fun inner => Stmt.executeBlock call rounds inner body
    else Case.executeFirst call rounds scope value cs
end

/-- A call runs in a child of the scope that declared the function, whatever scope it is made from.
The bound limits the depth of calls and the rounds of each loop. -/
def Run.call : Nat → Caller
  | 0 => fun _ _ _ => throw .outOfFuel
  | n + 1 => fun scope name arguments => do
    match ← Run.lookupFunction scope name arguments.length with
    | .print => Run.print arguments
    | .declared f home =>
      Run.inChild home fun inner => do
        Run.defineAll inner (f.parameters.zip arguments)
        match ← Stmt.executeBlock (Run.call n) n inner f.body with
        | .returned v => return v
        | .normal => return .nil

/-- Globals in order, each defined before the next is evaluated. -/
def Run.loadGlobals (fuel : Nat) : List Global → Run Unit
  | [] => pure ()
  | g :: gs => do
    let v ← Expr.evaluateInitial (Run.call fuel) Environment.root g.value
    Run.defineVariable Environment.root g.name v g.mutable
    Run.loadGlobals fuel gs

def Run.loadFunctions : List Function → Run Unit
  | [] => pure ()
  | f :: fs => do
    Run.updateEnvironment
      (·.defineFunction Environment.root f.name f.arity (.declared f Environment.root))
    Run.loadFunctions fs

/-- Forget the names of earlier programs and define those of this one. -/
def Run.load (fuel : Nat) (p : Program) : Run Unit := do
  modify fun m => { m with environment := .ofRoot m.prelude }
  Run.loadGlobals fuel p.globals
  Run.loadFunctions p.functions

/-- Call a loaded function. -/
def Run.invoke (fuel : Nat) (name : String) (arguments : List Value) : Run Value :=
  Run.call fuel Environment.root name arguments

/-- Load a program and call its `main`. -/
def Run.program (fuel : Nat) (p : Program) : Run Value := do
  Run.load fuel p
  Run.invoke fuel "main" []

end BlockScript
