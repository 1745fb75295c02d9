import BlockScript.Number.Binary
import BlockScript.Value.Error
/-! Operators and list elements on values. -/
namespace BlockScript.Value

def toBoolean (v : Value) : Except RunError Bool :=
  match v with
  | boolean b => .ok b
  | _ => .error (.typeMismatch .boolean v.kind)

def invalid {α : Type} (op : Operator) (a b : Value) : Except RunError α :=
  .error (.invalidOperands op a.kind b.kind)

/-- A string on either side makes the sum of two values their joined text. -/
def add (a b : Value) : Except RunError Value :=
  match a, b with
  | string s, _ => .ok (string (s ++ b.render))
  | _, string t => .ok (string (a.render ++ t))
  | integer m, integer n => .ok (integer (m + n))
  | decimal d, decimal e => .ok (decimal (d.add e))
  | _, _ => invalid .add a b

def subtract (a b : Value) : Except RunError Value :=
  match a, b with
  | integer m, integer n => .ok (integer (m - n))
  | decimal d, decimal e => .ok (decimal (d.sub e))
  | _, _ => invalid .subtract a b

def multiply (a b : Value) : Except RunError Value :=
  match a, b with
  | integer m, integer n => .ok (integer (m * n))
  | decimal d, decimal e => .ok (decimal (d.mul e))
  | _, _ => invalid .multiply a b

/-- Integers are divided toward zero, decimals to the dividend's scale. -/
def divide (a b : Value) : Except RunError Value :=
  match a, b with
  | integer m, integer n => if n = 0 then .error .divisionByZero else .ok (integer (m.tdiv n))
  | decimal d, decimal e => if e.isZero then .error .divisionByZero else .ok (decimal (d.div e))
  | _, _ => invalid .divide a b

/-- A power has operands and a result of 32 bits; the base is examined first. -/
def power (a b : Value) : Except RunError Value :=
  match a, b with
  | integer m, integer n =>
    if !Power.fitsInt32 m then .error (.narrowing m)
    else if !Power.fitsInt32 n then .error (.narrowing n)
    else .ok (integer (Power.toInt32 m n))
  | _, _ => invalid .power a b

/-- The order of two values of one ordered kind; the operator is only named by the error. -/
def compare (op : Operator) (a b : Value) : Except RunError Ordering :=
  match a, b with
  | integer m, integer n => .ok (Ord.compare m n)
  | decimal d, decimal e => .ok (d.compare e)
  | character c, character d => .ok (Ord.compare c d)
  | string s, string t => .ok (Ord.compare s t)
  | _, _ => invalid op a b

/-- An operator on two values; both are needed, also by the logical ones. -/
def operate (op : Operator) (a b : Value) : Except RunError Value :=
  match op with
  | .add => a.add b
  | .subtract => a.subtract b
  | .multiply => a.multiply b
  | .divide => a.divide b
  | .power => a.power b
  | .less => return boolean (← compare op a b).isLT
  | .lessEqual => return boolean (← compare op a b).isLE
  | .greater => return boolean (← compare op a b).isGT
  | .greaterEqual => return boolean (← compare op a b).isGE
  | .equal => return boolean (a.equal b)
  | .notEqual => return boolean (!a.equal b)
  | .and => do
    let p ← a.toBoolean
    let q ← b.toBoolean
    return boolean (p && q)
  | .or => do
    let p ← a.toBoolean
    let q ← b.toBoolean
    return boolean (p || q)

/-- The elements of a list and the position that an index names in it. -/
def position (v index : Value) : Except RunError (List Value × Nat) :=
  match v with
  | list vs =>
    match index with
    | integer i =>
      if 0 ≤ i ∧ i < vs.length then .ok (vs, i.toNat)
      else .error (.indexOutOfRange i vs.length)
    | _ => .error (.typeMismatch .integer index.kind)
  | _ => .error (.typeMismatch .list v.kind)

def element (v index : Value) : Except RunError Value := do
  let (vs, i) ← v.position index
  return vs.getD i nil

/-- The list with one element replaced. -/
def setElement (v index new : Value) : Except RunError Value := do
  let (vs, i) ← v.position index
  return list (vs.set i new)

end BlockScript.Value
