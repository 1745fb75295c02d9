import BlockScript.Frame
/-! Scopes in stack order. A scope is addressed by its position and knows its parent's, so a lookup
walks down the positions; closing a scope drops it with every scope opened after it. -/
namespace BlockScript

structure Scope (α β : Type) where
  parent : Option Nat
  frame : Frame α β

structure Environment (α β : Type) where
  scopes : List (Scope α β)

namespace Environment
variable {α β γ : Type}

/-- Only the root scope, with the given names. -/
def ofRoot (frame : Frame α β) : Environment α β := ⟨[⟨none, frame⟩]⟩

def empty : Environment α β := ofRoot .empty

def root : Nat := 0

/-- The number of open scopes. -/
def depth (env : Environment α β) : Nat := env.scopes.length

def isOpen (env : Environment α β) (scope : Nat) : Bool := scope < env.depth

/-- Open a child of a scope. -/
def push (env : Environment α β) (parent : Nat) : Except NameError (Nat × Environment α β) :=
  if env.isOpen parent then .ok (env.depth, ⟨env.scopes ++ [⟨some parent, .empty⟩]⟩)
  else .error (.closedScope parent)

/-- Close a scope with every scope opened after it; the root stays. -/
def pop (env : Environment α β) (scope : Nat) : Environment α β :=
  ⟨env.scopes.take (max scope 1)⟩

/-- The innermost scope, from the given one outwards, in which something is found. -/
def search (env : Environment α β) (found : Frame α β → Option γ) (scope : Nat) :
    Option (Nat × γ) :=
  match env.scopes[scope]? with
  | none => none
  | some s =>
    match found s.frame with
    | some x => some (scope, x)
    | none =>
      match s.parent with
      | none => none
      | some parent => if parent < scope then env.search found parent else none
termination_by scope

/-- A search from an open scope. -/
def lookup (env : Environment α β) (scope : Nat) (found : Frame α β → Option γ)
    (missing : NameError) : Except NameError (Nat × γ) :=
  if env.isOpen scope then
    match env.search found scope with
    | some hit => .ok hit
    | none => .error missing
  else .error (.closedScope scope)

/-- The innermost binding of a name visible from a scope. -/
def lookupVariable (env : Environment α β) (scope : Nat) (name : String) :
    Except NameError (Binding α) :=
  (env.lookup scope (·.findVariable name) (.undefinedVariable name)).map (·.2)

def lookupFunction (env : Environment α β) (scope : Nat) (name : String) (arity : Nat) :
    Except NameError β :=
  (env.lookup scope (·.findFunction name arity) (.undefinedFunction name arity)).map (·.2)

/-- Replace the names of one scope. -/
def setFrame (env : Environment α β) (scope : Nat) (frame : Frame α β) : Environment α β :=
  ⟨env.scopes.modify scope fun s => { s with frame := frame }⟩

/-- Change the names of an open scope. -/
def updateFrame (env : Environment α β) (scope : Nat)
    (change : Frame α β → Except NameError (Frame α β)) : Except NameError (Environment α β) :=
  match env.scopes[scope]? with
  | none => .error (.closedScope scope)
  | some s => (change s.frame).map (env.setFrame scope)

/-- Bind a name in exactly this scope, in front of any outer binding. -/
def defineVariable (env : Environment α β) (scope : Nat) (b : Binding α) :
    Except NameError (Environment α β) :=
  env.updateFrame scope (·.defineVariable b)

def defineFunction (env : Environment α β) (scope : Nat) (name : String) (arity : Nat) (value : β) :
    Except NameError (Environment α β) :=
  env.updateFrame scope (·.defineFunction name arity value)

/-- Bind a function in the root scope, in place of an earlier one. -/
def defineNative (env : Environment α β) (name : String) (arity : Nat) (value : β) :
    Environment α β :=
  ⟨env.scopes.modify root fun s => { s with frame := s.frame.replaceFunction name arity value }⟩

/-- Replace the value of the innermost binding of a name; whether it is mutable is not asked here. -/
def writeVariable (env : Environment α β) (scope : Nat) (name : String) (value : α) :
    Except NameError (Environment α β) := do
  let (owner, _) ← env.lookup scope (·.findVariable name) (.undefinedVariable name)
  env.updateFrame owner fun f => .ok (f.writeVariable name value)

end Environment
end BlockScript
