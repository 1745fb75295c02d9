import BlockScript.Typing.Error
/-! The names in sight while a program is checked: nested frames, innermost first. -/
namespace BlockScript

structure Context where
  current : Frame Ty Signature
  enclosing : List (Frame Ty Signature)

namespace Context

def ofFrame (frame : Frame Ty Signature) : Context := ⟨frame, []⟩

def frames (Γ : Context) : List (Frame Ty Signature) := Γ.current :: Γ.enclosing

/-- A fresh innermost frame. -/
def enter (Γ : Context) : Context := ⟨.empty, Γ.frames⟩

/-- The innermost binding of a name. -/
def lookupVariable (Γ : Context) (name : String) : Checked (Binding Ty) :=
  match Γ.frames.findSome? (·.findVariable name) with
  | some b => .ok b
  | none => .fail (.scope (.undefinedVariable name))

def lookupFunction (Γ : Context) (name : String) (arity : Nat) : Checked Signature :=
  match Γ.frames.findSome? (·.findFunction name arity) with
  | some s => .ok s
  | none => .fail (.scope (.undefinedFunction name arity))

/-- A name that is assigned to must be bound as mutable. -/
def requireMutable (Γ : Context) (name : String) : Checked Unit := do
  let b ← Γ.lookupVariable name
  if b.mutable then return () else .fail (.immutableAssignment name)

/-- Bind a name in the innermost frame. -/
def defineVariable (Γ : Context) (b : Binding Ty) : Checked Context := do
  return { Γ with current := ← Checked.ofNames (Γ.current.defineVariable b) }

def defineFunction (Γ : Context) (name : String) (arity : Nat) (s : Signature) : Checked Context := do
  return { Γ with current := ← Checked.ofNames (Γ.current.defineFunction name arity s) }

/-- Bind names in order. -/
def defineAll (Γ : Context) : List (Binding Ty) → Checked Context
  | [] => .ok Γ
  | b :: bs => do (← Γ.defineVariable b).defineAll bs

end Context
end BlockScript
