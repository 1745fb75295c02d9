import BlockScript.Environment
import BlockScript.Execution.Sink
import BlockScript.Value.Operation
/-! The state of a running program, and the steps that read and change it. A step that fails keeps
the state it reached. -/
namespace BlockScript

/-- What a function name stands for while a program runs. -/
inductive Callable where
  | print
  /-- A declared function, and the scope of its declaration. -/
  | declared (function : Function) (scope : Nat)

structure Machine where
  /-- The names from outside, with which every program starts. -/
  prelude : Frame Value Callable
  environment : Environment Value Callable
  sink : Sink

/-- Why a run has no value: an error, or a bound on the run that was too low. -/
inductive Halt where
  | failed (error : RunError)
  | outOfFuel
  deriving DecidableEq, Repr

/-- How a statement ends: normally, or with a value on its way to the enclosing call. -/
inductive Completion where
  | normal
  | returned (value : Value)

abbrev Run := EStateM Halt Machine

/-- The names every program may use. -/
def Machine.standardNames : Frame Value Callable := Frame.empty.replaceFunction "print" 1 .print

def Machine.new (prelude : Frame Value Callable) (sink : Sink) : Machine :=
  ⟨prelude, .ofRoot prelude, sink⟩

namespace Run
variable {α : Type}

def fail (error : RunError) : Run α := throw (.failed error)

def ofResult (r : Except RunError α) : Run α :=
  match r with
  | .ok a => pure a
  | .error e => fail e

def ofNames (r : Except NameError α) : Run α :=
  match r with
  | .ok a => pure a
  | .error e => fail (.scope e)

/-- Change the scopes. -/
def updateEnvironment
    (change : Environment Value Callable → Except NameError (Environment Value Callable)) :
    Run Unit := do
  let m ← get
  let env ← ofNames (change m.environment)
  set { m with environment := env }

def lookupVariable (scope : Nat) (name : String) : Run (Binding Value) := do
  ofNames ((← get).environment.lookupVariable scope name)

def lookupFunction (scope : Nat) (name : String) (arity : Nat) : Run Callable := do
  ofNames ((← get).environment.lookupFunction scope name arity)

def defineVariable (scope : Nat) (name : String) (value : Value) (mutable : Bool) : Run Unit :=
  updateEnvironment (·.defineVariable scope ⟨name, value, mutable⟩)

/-- Bind parameters to arguments in order. -/
def defineAll (scope : Nat) : List (String × Value) → Run Unit
  | [] => pure ()
  | (name, value) :: rest => do
    defineVariable scope name value false
    defineAll scope rest

/-- Store a value in a variable or in the element an index names; nothing changes on failure. -/
def assign (scope : Nat) (name : String) (index : Option Value) (value : Value) : Run Unit := do
  let b ← lookupVariable scope name
  if b.mutable then
    let new ← match index with
      | some i => ofResult (b.value.setElement i value)
      | none => pure value
    updateEnvironment (·.writeVariable scope name new)
  else fail (.immutableAssignment name)

/-- A body in a fresh child of a scope, which is closed however the body ends. -/
def inChild (parent : Nat) (body : Nat → Run α) : Run α := fun m =>
  match m.environment.push parent with
  | .error e => .error (.failed (.scope e)) m
  | .ok (scope, env) =>
    match body scope { m with environment := env } with
    | .ok a m => .ok a { m with environment := m.environment.pop scope }
    | .error e m => .error e { m with environment := m.environment.pop scope }

/-- Each argument on a line of its own. -/
def print (arguments : List Value) : Run Value := do
  let m ← get
  let chunks := arguments.flatMap fun v => [Sink.bytesOf v.render, Sink.bytesOf "\n"]
  let (sink, complete) := m.sink.writeAll chunks
  set { m with sink := sink }
  if complete then return .nil else fail .output

/-- A body repeated while a condition holds, for as many rounds as the bound says at most. -/
def repeatWhile (condition : Run Bool) (body : Run Completion) : Nat → Run Completion
  | 0 => throw .outOfFuel
  | n + 1 => do
    if ← condition then
      match ← body with
      | .normal => repeatWhile condition body n
      | .returned v => return .returned v
    else return .normal

end Run
end BlockScript
