import BlockScript.Typing.Expression
/-! Checking statements, functions and programs. -/
namespace BlockScript

mutual
/-- A statement with its slots filled, and the names in sight after it. Only a declaration adds one. -/
def Stmt.check (Γ : Context) (result : Ty) (s : Stmt) : Checked (Stmt × Context) :=
  Checked.within (fun _ => s.render) <|
    match s with
    | .expression e => do
      let (e, _) ← e.check Γ
      return (.expression e, Γ)
    | .declaration x typeName value _ => do
      let (value, t) ← Expr.checkInitial Γ x typeName value
      let b : Binding Ty := ⟨x, t, true⟩
      return (.declaration x typeName value b, ← Γ.defineVariable b)
    | .assignment receiver e =>
      match receiver.receiver? with
      | none => .fail .invalidReceiver
      | some x => do
        let (receiver, t) ← receiver.check Γ
        Γ.requireMutable x
        let (e, received) ← e.check Γ
        t.require received
        return (.assignment receiver e, Γ)
    | .ifElse c thenBlock elseBlock => do
      let (c, t) ← c.check Γ
      Ty.require .boolean t
      if thenBlock.isEmpty then .fail .emptyThenBlock
      let thenBlock ← Stmt.checkBlock Γ.enter result thenBlock
      let elseBlock ← Stmt.checkBlock Γ.enter result elseBlock
      return (.ifElse c thenBlock elseBlock, Γ)
    | .switch c cases => do
      let (c, t) ← c.check Γ
      return (.switch c (← Case.checkAll Γ result t cases), Γ)
    | .loop c body => do
      let (c, t) ← c.check Γ
      Ty.require .boolean t
      return (.loop c (← Stmt.checkBlock Γ.enter result body), Γ)
    | .ret e => do
      let (e, received) ← e.check Γ
      if received = result then return (.ret e, Γ)
      else .fail (.resultMismatch result received)

/-- Statements in order, each seeing the declarations before it. -/
def Stmt.checkBlock (Γ : Context) (result : Ty) : List Stmt → Checked (List Stmt)
  | [] => .ok []
  | s :: ss => do
    let (s, Γ) ← s.check Γ result
    return s :: (← Stmt.checkBlock Γ result ss)

/-- Every arm but the last has a value of the condition's type; the last is the default. -/
def Case.checkAll (Γ : Context) (result condition : Ty) : List Case → Checked (List Case)
  | [] => .fail .finalCaseNotDefault
  | [.mk value body] =>
    match value with
    | some _ => .fail .finalCaseNotDefault
    | none => do return [.mk none (← Stmt.checkBlock Γ.enter result body)]
  | .mk value body :: c :: cs =>
    match value with
    | none => .fail .defaultNotLast
    | some e => do
      let (e, t) ← e.check Γ
      condition.require t
      let body ← Stmt.checkBlock Γ.enter result body
      return .mk (some e) body :: (← Case.checkAll Γ result condition (c :: cs))
end

/-- The type of a global, and its initial value with its slots filled. The elements of a list are
stored at the declared type. -/
def Global.checkValue (Γ : Context) (g : Global) : Checked (Option Expr × Ty) :=
  Checked.within (fun _ => g.render) <|
    match g.value with
    | some (.list es _) => do
      let declared ← g.typeName.mapM Ty.named
      let (es, t) ← Expr.checkElements Γ declared es
      return (some (.list es (Ty.list t)), .list t)
    | value => Expr.checkInitial Γ g.name g.typeName value

def Global.check (Γ : Context) (g : Global) : Checked (Global × Context) := do
  let (value, t) ← g.checkValue Γ
  let b : Binding Ty := ⟨g.name, t, g.mutable⟩
  return ({ g with value := value, binding := b }, ← Γ.defineVariable b)

/-- Globals in order, each seeing those before it. -/
def Global.checkAll (Γ : Context) : List Global → Checked (List Global × Context)
  | [] => .ok ([], Γ)
  | g :: gs => do
    let (g, Γ) ← g.check Γ
    let (gs, Γ) ← Global.checkAll Γ gs
    return (g :: gs, Γ)

/-- The types that a function's text names; without a result type it returns nil. -/
def Function.declared (f : Function) : Checked Signature := do
  let parameters ← f.parameterTypeNames.mapM Ty.named
  let result ← match f.resultTypeName with
    | some name => Ty.named name
    | none => pure .nil
  return ⟨parameters, result⟩

/-- All functions are declared before any body is checked, so bodies may call forward. -/
def Function.declareAll (Γ : Context) : List Function → Checked (List (Function × Signature) × Context)
  | [] => .ok ([], Γ)
  | f :: fs => do
    let s ← f.declared
    let Γ ← Γ.defineFunction f.name f.arity s
    let (fs, Γ) ← Function.declareAll Γ fs
    return ((f, s) :: fs, Γ)

/-- The parameters are immutable names in the frame of the body. -/
def Function.bindings (f : Function) (s : Signature) : List (Binding Ty) :=
  f.parameters.zipWith (fun name t => ⟨name, t, false⟩) s.parameters

def Function.check (Γ : Context) (f : Function) (s : Signature) : Checked Function := do
  let Γ ← Γ.enter.defineAll (f.bindings s)
  return { f with body := ← Stmt.checkBlock Γ s.result f.body, signature := s }

/-- A program against the names given from outside, with its slots filled. -/
def Program.check (prelude : Frame Ty Signature) (p : Program) : Checked Program := do
  unless p.functions.any Function.isMain do .fail .missingMain
  let (globals, Γ) ← Global.checkAll (.ofFrame prelude) p.globals
  let (functions, Γ) ← Function.declareAll Γ p.functions
  return ⟨globals, ← functions.mapM fun (f, s) => f.check Γ s⟩

/-- The names every program may use. -/
def Program.standardNames : Frame Ty Signature :=
  Frame.empty.replaceFunction "print" 1 ⟨[.any], .nil⟩

end BlockScript
