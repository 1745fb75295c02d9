/-! One scope's names: variables, and functions told apart by name and arity. -/
namespace BlockScript

/-- A name with what it stands for: a type while a program is checked, a value while it runs. -/
structure Binding (α : Type) where
  name : String
  value : α
  mutable : Bool
  deriving DecidableEq, Repr

/-- A function of a name and a number of parameters. -/
structure Entry (β : Type) where
  name : String
  arity : Nat
  value : β
  deriving DecidableEq, Repr

/-- Why a name cannot be used. -/
inductive NameError where
  | undefinedVariable (name : String)
  | undefinedFunction (name : String) (arity : Nat)
  | variableRedefinition (name : String)
  | functionRedefinition (name : String) (arity : Nat)
  | closedScope (scope : Nat)
  deriving DecidableEq, Repr

def NameError.message : NameError → String
  | undefinedVariable name => s!"The variable `{name}` is not defined in this scope."
  | undefinedFunction name arity => s!"The function `{name}/{arity}` is not defined in this scope."
  | variableRedefinition name => s!"The variable `{name}` is already defined in this scope."
  | functionRedefinition name arity =>
    s!"The function `{name}/{arity}` is already defined in this scope."
  | closedScope scope => s!"The scope {scope} is closed."

/-- The names of one scope. -/
structure Frame (α β : Type) where
  bindings : List (Binding α) := []
  functions : List (Entry β) := []
  deriving DecidableEq, Repr

namespace Frame
variable {α β : Type}

def empty : Frame α β := {}

def findVariable (f : Frame α β) (name : String) : Option (Binding α) :=
  f.bindings.find? (·.name == name)

def findFunction (f : Frame α β) (name : String) (arity : Nat) : Option β :=
  (f.functions.find? fun e => e.name == name && e.arity == arity).map (·.value)

/-- A name is bound once. -/
def defineVariable (f : Frame α β) (b : Binding α) : Except NameError (Frame α β) :=
  match f.findVariable b.name with
  | some _ => .error (.variableRedefinition b.name)
  | none => .ok { f with bindings := b :: f.bindings }

/-- The value of a bound name is replaced; nothing else changes. -/
def writeVariable (f : Frame α β) (name : String) (value : α) : Frame α β :=
  { f with
    bindings := f.bindings.map fun b => if b.name == name then { b with value := value } else b }

/-- A name is bound once for each arity. -/
def defineFunction (f : Frame α β) (name : String) (arity : Nat) (value : β) :
    Except NameError (Frame α β) :=
  match f.findFunction name arity with
  | some _ => .error (.functionRedefinition name arity)
  | none => .ok { f with functions := ⟨name, arity, value⟩ :: f.functions }

/-- A function that replaces the one of the same name and arity, if there is one. -/
def replaceFunction (f : Frame α β) (name : String) (arity : Nat) (value : β) : Frame α β :=
  { f with
    functions := ⟨name, arity, value⟩ ::
      f.functions.filter fun e => !(e.name == name && e.arity == arity) }

end Frame
end BlockScript
