import BlockScript.Number.Binary
import BlockScript.Tree.Render
import BlockScript.Typing.Context
/-! Types of expressions. Checking fills the slots of a tree and reads none of them. -/
namespace BlockScript

def Ty.named (name : String) : Checked Ty :=
  match Ty.ofName? name with
  | some t => .ok t
  | none => .fail (.unknownType name)

/-- A value of the source type may be stored where the target type is expected. -/
def Ty.require (target source : Ty) : Checked Unit :=
  if target.accepts source then .ok () else .fail (.mismatch target source)

/-- Whether a decimal is a finite 64-bit binary number after rounding. The largest of these lies
between `10 ^ 308` and `10 ^ 309`. -/
def Decimal.isFinite (d : Decimal) : Bool :=
  d.isZero || d.magnitude ≤ 308 ||
    (d.magnitude ≤ 309 &&
      (Binary.nearest (d.unscaled.natAbs * Round.tenTo (-d.scale).toNat)
        (Round.tenTo d.scale.toNat)).isFinite)

/-- Integers in a program have 32 bits, and decimals the range of 64-bit binary numbers. -/
def Literal.type : Literal → Checked Ty
  | nil => .ok .nil
  | boolean _ => .ok .boolean
  | character _ => .ok .character
  | string _ => .ok .string
  | integer n => if Power.fitsInt32 n then .ok .integer else .fail (.integerOutOfRange n.repr)
  | decimal d => if d.isFinite then .ok .decimal else .fail (.decimalOutOfRange d.render)

/-- The type of an operator on two types. -/
def Operator.type (op : Operator) (left right : Ty) : Checked Ty :=
  match op with
  | .and | .or => do
    Ty.require .boolean left
    Ty.require .boolean right
    return .boolean
  | .less | .lessEqual | .greater | .greaterEqual => do
    Ty.require .comparable left
    Ty.require .comparable right
    return .boolean
  | .equal | .notEqual => .ok .boolean
  | .add =>
    if left = .string ∨ right = .string then .ok .string else numeric left right
  | .subtract | .multiply | .divide => numeric left right
  | .power =>
    if left = .integer ∧ right = .integer then .ok .integer
    else .fail (.invalidOperands op left right)
where
  /-- Arithmetic is on two numbers of one type. -/
  numeric (left right : Ty) : Checked Ty :=
    if left = .integer ∨ left = .decimal then do
      left.require right
      return left
    else .fail (.invalidOperands op left right)

mutual
/-- The type of an expression, and the expression with its slots filled. -/
def Expr.check (Γ : Context) (e : Expr) : Checked (Expr × Ty) :=
  Checked.within (fun _ => e.render) <|
    match e with
    | .literal v _ => do
      let t ← v.type
      return (.literal v t, t)
    | .group e _ => do
      let (e, t) ← e.check Γ
      return (.group e t, t)
    | .binary op l r _ => do
      let (l, left) ← l.check Γ
      let (r, right) ← r.check Γ
      let t ← op.type left right
      return (.binary op l r t, t)
    | .ref x _ _ => do
      let b ← Γ.lookupVariable x
      return (.ref x b b.value, b.value)
    | .element x i _ _ => do
      let b ← Γ.lookupVariable x
      match b.value.element? with
      | none => .fail (.notAList x)
      | some t =>
        let (i, index) ← i.check Γ
        Ty.require .integer index
        return (.element x i b t, t)
    | .call f es _ _ => do
      let s ← Γ.lookupFunction f es.length
      let es ← Expr.checkArguments Γ es s.parameters
      return (.call f es s s.result, s.result)
    | .list es _ => do
      let (es, t) ← Expr.checkElements Γ none es
      return (.list es (Ty.list t), .list t)

/-- Arguments against the types of their parameters. -/
def Expr.checkArguments (Γ : Context) : List Expr → List Ty → Checked (List Expr)
  | e :: es, t :: ts => do
    let (e, received) ← e.check Γ
    t.require received
    return e :: (← Expr.checkArguments Γ es ts)
  | es, _ => .ok es

/-- Elements against the declared type or else the first element's. -/
def Expr.checkElements (Γ : Context) (expected : Option Ty) : List Expr → Checked (List Expr × Ty)
  | [] =>
    match expected with
    | some t => .ok ([], t)
    | none => .fail .emptyList
  | e :: es => do
    let (e, received) ← e.check Γ
    let t ← match expected with
      | some t => do
        t.require received
        pure t
      | none => pure received
    let (es, t) ← Expr.checkElements Γ (some t) es
    return (e :: es, t)
end

/-- A declared type, an initial value, or both; the value is stored at the declared type. -/
def Expr.checkInitial (Γ : Context) (name : String) (typeName : Option String)
    (value : Option Expr) : Checked (Option Expr × Ty) :=
  match typeName, value with
  | none, none => .fail (.missingTypeOrValue name)
  | some n, none => do return (none, ← Ty.named n)
  | none, some e => do
    let (e, t) ← e.check Γ
    return (some e, t)
  | some n, some e => do
    let declared ← Ty.named n
    let (e, t) ← e.check Γ
    declared.require t
    return (some e, declared)

end BlockScript
