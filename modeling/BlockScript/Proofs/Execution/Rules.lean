import BlockScript.Execution.Evaluate
import Mathlib.Data.List.Perm.Subperm
/-! Rules for a property of what runs in a scope. A property that has all of them holds of every
expression, statement and call. -/
namespace BlockScript

mutual
/-- The variables that an expression reads, or that an assignment to it changes. -/
def Expr.variables : Expr → List String
  | .literal .. => []
  | .group e _ => e.variables
  | .binary _ l r _ => l.variables ++ r.variables
  | .ref x _ _ => [x]
  | .element x i _ _ => x :: i.variables
  | .call _ es _ _ | .list es _ => Expr.allVariables es

def Expr.allVariables : List Expr → List String
  | [] => []
  | e :: es => e.variables ++ Expr.allVariables es
end

mutual
/-- The variables that the expressions of a statement name. -/
def Stmt.variables : Stmt → List String
  | .expression e | .ret e => e.variables
  | .declaration _ _ value _ => value.elim [] Expr.variables
  | .assignment receiver e => receiver.variables ++ e.variables
  | .ifElse c thenBlock elseBlock =>
    c.variables ++ (Stmt.blockVariables thenBlock ++ Stmt.blockVariables elseBlock)
  | .switch c cases => c.variables ++ Case.allVariables cases
  | .loop c body => c.variables ++ Stmt.blockVariables body

def Stmt.blockVariables : List Stmt → List String
  | [] => []
  | s :: ss => s.variables ++ Stmt.blockVariables ss

def Case.allVariables : List Case → List String
  | [] => []
  | .mk value body :: cs =>
    value.elim [] Expr.variables ++ (Stmt.blockVariables body ++ Case.allVariables cs)
end

/-- The name that a statement adds to its scope. -/
def Stmt.declares : Stmt → List String
  | .declaration x _ _ _ => [x]
  | _ => []

/-- Rules for what runs in a scope, adds some names to it at most and names some variables only. Calls
are apart. -/
structure Run.Steps (seen : String → Prop) (P : {α : Type} → List String → (Nat → Run α) → Prop) :
    Prop where
  give {α : Type} (a : α) : P [] fun _ => pure a
  stop {α : Type} : P [] fun _ => (throw .outOfFuel : Run α)
  fail {α : Type} {e : RunError} (h : ∀ n, e ≠ .scope n) : P [] fun _ => (Run.fail e : Run α)
  seq {α β : Type} {xs ys : List String} {x : Nat → Run α} {k : α → Nat → Run β} (hx : P xs x)
    (hk : ∀ a, P ys (k a)) : P (xs ++ ys) fun scope => x scope >>= fun a => k a scope
  widen {α : Type} {xs ys : List String} {x : Nat → Run α} (hx : P xs x) (h : xs.Subperm ys) : P ys x
  look {x : String} (h : seen x) : P [] fun scope => Run.lookupVariable scope x
  define (x : String) (v : Value) (mutable : Bool) :
    P [x] fun scope => Run.defineVariable scope x v mutable
  assign {x : String} (h : seen x) (index : Option Value) (v : Value) :
    P [] fun scope => Run.assign scope x index v
  child {α : Type} {xs : List String} {body : Nat → Run α} (h : P xs body) :
    P [] fun scope => Run.inChild scope body

/-- Rules for what runs in a scope and adds some names to it at most. -/
structure Run.Rules (P : {α : Type} → List String → (Nat → Run α) → Prop) : Prop where
  give {α : Type} (a : α) : P [] fun _ => pure a
  stop {α : Type} : P [] fun _ => (throw .outOfFuel : Run α)
  fail {α : Type} {e : RunError} (h : ∀ n, e ≠ .scope n) : P [] fun _ => (Run.fail e : Run α)
  seq {α β : Type} {xs ys : List String} {x : Nat → Run α} {k : α → Nat → Run β} (hx : P xs x)
    (hk : ∀ a, P ys (k a)) : P (xs ++ ys) fun scope => x scope >>= fun a => k a scope
  widen {α : Type} {xs ys : List String} {x : Nat → Run α} (hx : P xs x) (h : xs.Subperm ys) : P ys x
  look (x : String) : P [] fun scope => Run.lookupVariable scope x
  define (x : String) (v : Value) (mutable : Bool) :
    P [x] fun scope => Run.defineVariable scope x v mutable
  assign (x : String) (index : Option Value) (v : Value) :
    P [] fun scope => Run.assign scope x index v
  print (vs : List Value) : P [] fun _ => Run.print vs
  child {α : Type} {xs : List String} {body : Nat → Run α} (h : P xs body) :
    P [] fun scope => Run.inChild scope body
  /-- A declared function runs in a child of the root, whatever scope it is called from. -/
  called {α : Type} (f : String) (arity : Nat) {body : Function → Nat → Run α}
    {k : Callable → Run α} (hp : P [] fun _ => k .print)
    (hd : ∀ g, k (.declared g Environment.root) = Run.inChild Environment.root (body g))
    (hb : ∀ g, ∃ xs, P xs (body g)) : P [] fun scope => Run.lookupFunction scope f arity >>= k

namespace Value
variable {a b i : Value} {op : Operator} {n : NameError}

/-! No operation on values is at fault over a name. -/

lemma toBoolean_ne_scope : a.toBoolean ≠ .error (.scope n) := by
  cases a <;> exact nofun

lemma compare_ne_scope : compare op a b ≠ .error (.scope n) := by
  intro h
  unfold compare at h
  split at h <;> cases h

lemma element_ne_scope : a.element i ≠ .error (.scope n) := by
  intro h
  unfold element position at h
  repeat' split at h
  all_goals cases h

lemma setElement_ne_scope : a.setElement i b ≠ .error (.scope n) := by
  intro h
  unfold setElement position at h
  repeat' split at h
  all_goals cases h

lemma operate_ne_scope : a.operate op b ≠ .error (.scope n) := by
  intro h
  cases op with
  | add => simp only [operate,add] at h; split at h <;> cases h
  | subtract => simp only [operate,subtract] at h; split at h <;> cases h
  | multiply => simp only [operate,multiply] at h; split at h <;> cases h
  | divide =>
    simp only [operate,divide] at h
    repeat' split at h
    all_goals cases h
  | power =>
    simp only [operate,power] at h
    repeat' split at h
    all_goals cases h
  | equal | notEqual => cases h
  | less | lessEqual | greater | greaterEqual =>
    simp only [operate] at h
    cases hc : compare _ a b with
    | ok o => rw [hc] at h; cases h
    | error e => rw [hc] at h; cases h; exact compare_ne_scope hc
  | and | or =>
    simp only [operate] at h
    cases ha : a.toBoolean with
    | error e => rw [ha] at h; cases h; exact toBoolean_ne_scope ha
    | ok p =>
      cases hb : b.toBoolean with
      | error e => rw [ha,hb] at h; cases h; exact toBoolean_ne_scope hb
      | ok q => rw [ha,hb] at h; cases h

end Value

namespace Run.Steps
variable {seen : String → Prop} {P : {α : Type} → List String → (Nat → Run α) → Prop}
  {call : Caller} {α β : Type}

/-- Calls have the property. -/
def Calls (P : {α : Type} → List String → (Nat → Run α) → Prop) (call : Caller) : Prop :=
  ∀ f vs, P [] fun scope => call scope f vs

lemma result (R : Steps seen P) {r : Except RunError α} (h : ∀ n, r ≠ .error (.scope n)) :
    P [] fun _ => Run.ofResult r := by
  cases r with
  | ok a => exact R.give a
  | error e => exact R.fail fun n he => h n (congrArg Except.error he)

/-- A first part that adds no name. -/
lemma after (R : Steps seen P) {ys : List String} {x : Nat → Run α} {k : α → Nat → Run β}
    (hx : P [] x) (hk : ∀ a, P ys (k a)) : P ys fun scope => x scope >>= fun a => k a scope :=
  R.seq hx hk

mutual
theorem evaluate (R : Steps seen P) (hc : Calls P call) (e : Expr) (he : ∀ x ∈ e.variables, seen x) :
    P [] fun scope => e.evaluate call scope := by
  cases e with
  | literal v s => simpa only [Expr.evaluate] using R.give _
  | group e s => simpa only [Expr.evaluate] using evaluate R hc e he
  | binary op l r s =>
    obtain ⟨hl,hr⟩ := List.forall_mem_append.mp he
    simp only [Expr.evaluate]
    refine R.after (evaluate R hc l hl) fun a => R.after (x := fun _ => op.isDecided a) ?_ fun d => ?_
    · unfold Operator.isDecided
      split
      · exact R.result fun _ => Value.toBoolean_ne_scope
      · exact R.give _
    · split
      · exact R.give _
      · exact R.after (evaluate R hc r hr) fun b => R.result fun _ => Value.operate_ne_scope
  | ref x slot s =>
    simp only [Expr.evaluate]
    exact R.after (R.look (he x (List.mem_singleton_self x))) fun b => R.give _
  | element x i slot s =>
    obtain ⟨hx,hi⟩ := List.forall_mem_cons.mp he
    simp only [Expr.evaluate]
    exact R.after (evaluate R hc i hi) fun v => R.after (R.look hx) fun b =>
      R.result fun _ => Value.element_ne_scope
  | call f es slot s =>
    simp only [Expr.evaluate]
    exact R.after (evaluateAll R hc es he) fun vs => hc f vs
  | list es s =>
    simp only [Expr.evaluate]
    exact R.after (evaluateAll R hc es he) fun vs => R.give _

theorem evaluateAll (R : Steps seen P) (hc : Calls P call) (es : List Expr)
    (he : ∀ x ∈ Expr.allVariables es, seen x) :
    P [] fun scope => Expr.evaluateAll call scope es := by
  cases es with
  | nil => simpa only [Expr.evaluateAll] using R.give _
  | cons e es =>
    obtain ⟨he,hes⟩ := List.forall_mem_append.mp he
    simp only [Expr.evaluateAll]
    exact R.after (evaluate R hc e he) fun v => R.after (evaluateAll R hc es hes) fun vs => R.give _
end

lemma evaluateBoolean (R : Steps seen P) (hc : Calls P call) (e : Expr)
    (he : ∀ x ∈ e.variables, seen x) : P [] fun scope => e.evaluateBoolean call scope :=
  R.after (R.evaluate hc e he) fun _ => R.result fun _ => Value.toBoolean_ne_scope

lemma evaluateInitial (R : Steps seen P) (hc : Calls P call) (value : Option Expr)
    (hv : ∀ x ∈ value.elim [] Expr.variables, seen x) :
    P [] fun scope => Expr.evaluateInitial call scope value := by
  cases value with
  | none => exact R.give _
  | some e => exact R.evaluate hc e hv

lemma isTaken (R : Steps seen P) (hc : Calls P call) (v : Value) (value : Option Expr)
    (hv : ∀ x ∈ value.elim [] Expr.variables, seen x) :
    P [] fun scope => Case.isTaken call scope v value := by
  cases value with
  | none => exact R.give _
  | some e => exact R.after (R.evaluate hc e hv) fun _ => R.give _

lemma repeatWhile (R : Steps seen P) {condition : Nat → Run Bool} {body : Nat → Run Completion}
    (hc : P [] condition) (hb : P [] body) (n : Nat) :
    P [] fun scope => Run.repeatWhile (condition scope) (body scope) n := by
  induction n with
  | zero => exact R.stop
  | succ n ih =>
    refine R.after hc fun c => ?_
    cases c with
    | false => exact R.give _
    | true =>
      refine R.after hb fun c => ?_
      cases c with
      | normal => exact ih
      | returned v => exact R.give _

mutual
/-- A statement adds the name it declares to its scope. -/
theorem execute (R : Steps seen P) (hc : Calls P call) (rounds : Nat) (s : Stmt)
    (hs : ∀ x ∈ s.variables, seen x) : P s.declares fun scope => s.execute call rounds scope := by
  cases s with
  | expression e =>
    simp only [Stmt.execute]
    exact R.after (R.evaluate hc e hs) fun _ => R.give _
  | declaration x typeName value slot =>
    simp only [Stmt.execute]
    refine R.after (R.evaluateInitial hc value hs) fun v => ?_
    exact R.seq (R.define x v true) fun _ => R.give _
  | assignment receiver e =>
    obtain ⟨hr,he⟩ := List.forall_mem_append.mp hs
    cases receiver with
    | ref x slot s =>
      have hx := hr x (List.mem_singleton_self x)
      simp only [Stmt.execute]
      exact R.after (R.evaluate hc e he) fun v => R.after (R.assign hx none v) fun _ => R.give _
    | element x i slot s =>
      obtain ⟨hx,hi⟩ := List.forall_mem_cons.mp hr
      simp only [Stmt.execute]
      exact R.after (R.evaluate hc i hi) fun i => R.after (R.evaluate hc e he) fun v =>
        R.after (R.assign hx (some i) v) fun _ => R.give _
    | _ =>
      simp only [Stmt.execute]
      exact R.fail nofun
  | ifElse c thenBlock elseBlock =>
    obtain ⟨hcond,hs⟩ := List.forall_mem_append.mp hs
    obtain ⟨ht,he⟩ := List.forall_mem_append.mp hs
    simp only [Stmt.execute]
    refine R.after (R.evaluateBoolean hc c hcond) fun b => ?_
    cases b with
    | true => exact R.child (executeBlock R hc rounds thenBlock ht)
    | false => exact R.child (executeBlock R hc rounds elseBlock he)
  | switch c cs =>
    obtain ⟨hcond,hs⟩ := List.forall_mem_append.mp hs
    simp only [Stmt.execute]
    exact R.after (R.evaluate hc c hcond) fun v => executeFirst R hc rounds v cs hs
  | loop c body =>
    obtain ⟨hcond,hb⟩ := List.forall_mem_append.mp hs
    simp only [Stmt.execute]
    exact R.repeatWhile (R.evaluateBoolean hc c hcond)
      (R.child (executeBlock R hc rounds body hb)) rounds
  | ret e =>
    simp only [Stmt.execute]
    exact R.after (R.evaluate hc e hs) fun _ => R.give _

theorem executeBlock (R : Steps seen P) (hc : Calls P call) (rounds : Nat) (ss : List Stmt)
    (hs : ∀ x ∈ Stmt.blockVariables ss, seen x) :
    P (ss.flatMap Stmt.declares) fun scope => Stmt.executeBlock call rounds scope ss := by
  cases ss with
  | nil =>
    simp only [Stmt.executeBlock]
    exact R.give _
  | cons s ss =>
    obtain ⟨hs,hss⟩ := List.forall_mem_append.mp hs
    simp only [Stmt.executeBlock]
    refine R.seq (execute R hc rounds s hs) fun c => ?_
    cases c with
    | normal => exact executeBlock R hc rounds ss hss
    | returned v => exact R.widen (R.give _) List.nil_subperm

theorem executeFirst (R : Steps seen P) (hc : Calls P call) (rounds : Nat) (v : Value)
    (cs : List Case) (hs : ∀ x ∈ Case.allVariables cs, seen x) :
    P [] fun scope => Case.executeFirst call rounds scope v cs := by
  cases cs with
  | nil => simpa only [Case.executeFirst] using R.give _
  | cons c cs =>
    obtain ⟨value,body⟩ := c
    obtain ⟨hv,hs⟩ := List.forall_mem_append.mp hs
    obtain ⟨hb,hs⟩ := List.forall_mem_append.mp hs
    simp only [Case.executeFirst]
    refine R.after (R.isTaken hc v value hv) fun b => ?_
    cases b with
    | true => exact R.child (executeBlock R hc rounds body hb)
    | false => exact executeFirst R hc rounds v cs hs
end

lemma defineAll (R : Steps seen P) (bs : List (String × Value)) :
    P (bs.map (·.1)) fun scope => Run.defineAll scope bs := by
  induction bs with
  | nil => exact R.give _
  | cons b bs ih => exact R.seq (R.define b.1 b.2 false) fun _ => ih

end Run.Steps

namespace Run.Rules
variable {P : {α : Type} → List String → (Nat → Run α) → Prop} {call : Caller}
open Steps (Calls)

lemma steps (R : Run.Rules P) : Steps (fun _ => True) P where
  give := R.give
  stop := R.stop
  fail := R.fail
  seq := R.seq
  widen := R.widen
  look _ := R.look _
  define := R.define
  assign _ := R.assign _
  child := R.child

lemma evaluate (R : Run.Rules P) (hc : Calls P call) (e : Expr) :
    P [] fun scope => e.evaluate call scope := R.steps.evaluate hc e fun _ _ => trivial

lemma evaluateBoolean (R : Run.Rules P) (hc : Calls P call) (e : Expr) :
    P [] fun scope => e.evaluateBoolean call scope := R.steps.evaluateBoolean hc e fun _ _ => trivial

lemma isTaken (R : Run.Rules P) (hc : Calls P call) (v : Value) (value : Option Expr) :
    P [] fun scope => Case.isTaken call scope v value :=
  R.steps.isTaken hc v value fun _ _ => trivial

lemma evaluateInitial (R : Run.Rules P) (hc : Calls P call) (value : Option Expr) :
    P [] fun scope => Expr.evaluateInitial call scope value :=
  R.steps.evaluateInitial hc value fun _ _ => trivial

lemma execute (R : Run.Rules P) (hc : Calls P call) (rounds : Nat) (s : Stmt) :
    P s.declares fun scope => s.execute call rounds scope :=
  R.steps.execute hc rounds s fun _ _ => trivial

lemma executeBlock (R : Run.Rules P) (hc : Calls P call) (rounds : Nat) (ss : List Stmt) :
    P (ss.flatMap Stmt.declares) fun scope => Stmt.executeBlock call rounds scope ss :=
  R.steps.executeBlock hc rounds ss fun _ _ => trivial

/-- Calls have a property that has the rules, however deep they go. -/
theorem calls (R : Run.Rules P) (fuel : Nat) : Calls P (Run.call fuel) := by
  induction fuel with
  | zero => exact fun _ _ => R.stop
  | succ n ih =>
    intro f vs
    refine R.called f vs.length (R.print vs) (fun g => rfl) fun g =>
      ⟨(g.parameters.zip vs).map (·.1) ++ (g.body.flatMap Stmt.declares ++ []),?_⟩
    refine R.seq (R.steps.defineAll (g.parameters.zip vs)) fun _ =>
      R.seq (R.executeBlock ih n g.body) fun c => ?_
    cases c <;> exact R.give _

end Run.Rules
end BlockScript
