import BlockScript.Execution.Evaluate
import BlockScript.Proofs.Execution.Machine
import BlockScript.Proofs.Scopes.Changes
/-! Runs that differ in their functions alone: where functions that go with each other do the same, so do
the runs. -/
namespace BlockScript
variable {R : Function → Function → Prop}

/-- The same built-in function, or functions that go with each other and were declared in one scope. -/
inductive Callable.Alike (R : Function → Function → Prop) : Callable → Callable → Prop
  | print : Alike R .print .print
  | declared {f f' : Function} (home : ℕ) (h : R f f') : Alike R (.declared f home) (.declared f' home)

/-- The same variables, and functions that go with each other. -/
structure Frame.Alike (R : Function → Function → Prop) (f f' : Frame Value Callable) : Prop where
  bindings : f.bindings = f'.bindings
  functions : ∀ name arity, Option.Rel (Callable.Alike R) (f.findFunction name arity)
    (f'.findFunction name arity)

/-- Machines with the same scopes and sink, but for the functions. -/
structure Machine.Alike (R : Function → Function → Prop) (m m' : Machine) : Prop where
  prelude : Frame.Alike R m.prelude m'.prelude
  environment : Environment.Related (Frame.Alike R) m.environment m'.environment
  sink : m.sink = m'.sink

namespace Frame.Alike
variable {f f' : Frame Value Callable}

lemma empty : Frame.Alike R .empty .empty := ⟨rfl,fun _ _ => .none⟩

lemma findVariable (h : Frame.Alike R f f') (x : String) :
    Option.Rel Eq (f.findVariable x) (f'.findVariable x) := by
  unfold Frame.findVariable
  rw [h.bindings]
  cases f'.bindings.find? (·.name == x) with
  | none => exact .none
  | some b => exact .some rfl

lemma defineVariable (h : Frame.Alike R f f') (b : Binding Value) :
    NameError.Agree (Frame.Alike R) (f.defineVariable b) (f'.defineVariable b) := by
  have hb := h.findVariable b.name
  unfold Frame.defineVariable
  generalize f.findVariable b.name = x at hb
  generalize f'.findVariable b.name = y at hb
  cases hb with
  | some => exact .error _
  | none => exact .ok ⟨by simp only [h.bindings],h.functions⟩

lemma writeVariable (h : Frame.Alike R f f') (x : String) (v : Value) :
    Frame.Alike R (f.writeVariable x v) (f'.writeVariable x v) :=
  ⟨by simp only [Frame.writeVariable,h.bindings],h.functions⟩

lemma defineFunction (h : Frame.Alike R f f') (name : String) (arity : ℕ) {c c' : Callable}
    (hc : Callable.Alike R c c') :
    NameError.Agree (Frame.Alike R) (f.defineFunction name arity c)
      (f'.defineFunction name arity c') := by
  have hf := h.functions name arity
  unfold Frame.defineFunction
  generalize f.findFunction name arity = x at hf
  generalize f'.findFunction name arity = y at hf
  cases hf with
  | some => exact .error _
  | none =>
    refine .ok ⟨h.bindings,fun g n => ?_⟩
    simp only [Frame.findFunction,List.find?_cons]
    cases name == g && arity == n with
    | true => exact .some hc
    | false => exact h.functions g n

end Frame.Alike

/-- Functions that go with each other are found. -/
lemma Machine.Alike.lookupFunction_agree {m m' : Machine} (h : m.Alike R m') (scope : ℕ) (f : String)
    (arity : ℕ) : NameError.Agree (Callable.Alike R) (m.environment.lookupFunction scope f arity)
      (m'.environment.lookupFunction scope f arity) :=
  (h.environment.lookup_agree (fun _ _ h => h.functions f arity) scope
    (.undefinedFunction f arity)).map fun _ _ h => h.2

namespace Run
variable {α β : Type}

/-- The same result in machines that are alike. -/
inductive EndsAlike (R : Function → Function → Prop) :
    EStateM.Result Halt Machine α → EStateM.Result Halt Machine α → Prop
  | ok {a : α} {m m' : Machine} (h : m.Alike R m') : EndsAlike R (.ok a m) (.ok a m')
  | error {e : Halt} {m m' : Machine} (h : m.Alike R m') : EndsAlike R (.error e m) (.error e m')

/-- In machines that are alike both come to the same result, and leave the machines so. -/
def Alike (R : Function → Function → Prop) (x y : Run α) : Prop :=
  ∀ m m', m.Alike R m' → EndsAlike R (x m) (y m')

namespace Alike

lemma pure (a : α) : Alike R (Pure.pure a) (Pure.pure a) := fun _ _ h => .ok h

lemma throw (e : Halt) : Alike R (throw e : Run α) (MonadExcept.throw e) := fun _ _ h => .error h

lemma fail (e : RunError) : Alike R (fail e : Run α) (fail e) := fun _ _ h => .error h

lemma bind {x y : Run α} {f g : α → Run β} (h : Alike R x y) (hf : ∀ a, Alike R (f a) (g a)) :
    Alike R (x >>= f) (y >>= g) := by
  intro m m' hm
  have he := h m m' hm
  generalize hx : x m = r at he
  generalize hy : y m' = r' at he
  cases he with
  | ok hn =>
    rw [bind_ok hx,bind_ok hy]
    exact hf _ _ _ hn
  | error hn =>
    rw [bind_error hx,bind_error hy]
    exact .error hn

lemma ite {c : Prop} [Decidable c] {x y x' y' : Run α} (h : Alike R x y) (h' : Alike R x' y') :
    Alike R (if c then x else x') (if c then y else y') := by
  split
  · exact h
  · exact h'

lemma ofResult (r : Except RunError α) : Alike R (ofResult r) (ofResult r) := by
  cases r with
  | ok a => exact pure a
  | error e => exact fail e

lemma updateEnvironment
    {change change' : Environment Value Callable → Except NameError (Environment Value Callable)}
    (h : ∀ env env', Environment.Related (Frame.Alike R) env env' →
      NameError.Agree (Environment.Related (Frame.Alike R)) (change env) (change' env')) :
    Alike R (updateEnvironment change) (updateEnvironment change') := by
  intro m m' hm
  have hc := h m.environment m'.environment hm.environment
  generalize hx : change m.environment = r at hc
  generalize hy : change' m'.environment = r' at hc
  cases hc with
  | ok hr =>
    rw [updateEnvironment_ok hx,updateEnvironment_ok hy]
    exact .ok ⟨hm.prelude,hr,hm.sink⟩
  | error e =>
    rw [updateEnvironment_error hx,updateEnvironment_error hy]
    exact .error hm

lemma lookupVariable (scope : ℕ) (x : String) :
    Alike R (lookupVariable scope x) (lookupVariable scope x) := by
  intro m m' hm
  have hl : NameError.Agree Eq (m.environment.lookupVariable scope x)
      (m'.environment.lookupVariable scope x) :=
    (hm.environment.lookup_agree (fun f f' h => h.findVariable x) scope (.undefinedVariable x)).map
      fun _ _ h => h.2
  generalize hx : m.environment.lookupVariable scope x = r at hl
  generalize hy : m'.environment.lookupVariable scope x = r' at hl
  cases hl with
  | ok h =>
    subst h
    rw [lookupVariable_ok hx,lookupVariable_ok hy]
    exact .ok hm
  | error e =>
    rw [lookupVariable_error hx,lookupVariable_error hy]
    exact .error hm

lemma lookupFunction_bind {k : Callable → Run α} (scope : ℕ) (f : String) (arity : ℕ)
    (h : ∀ c c', Callable.Alike R c c' → Alike R (k c) (k c')) :
    Alike R (lookupFunction scope f arity >>= k) (lookupFunction scope f arity >>= k) := by
  intro m m' hm
  have hl := hm.lookupFunction_agree scope f arity
  generalize hx : m.environment.lookupFunction scope f arity = r at hl
  generalize hy : m'.environment.lookupFunction scope f arity = r' at hl
  cases hl with
  | ok hc =>
    rw [bind_ok (lookupFunction_ok hx),bind_ok (lookupFunction_ok hy)]
    exact h _ _ hc m m' hm
  | error e =>
    rw [bind_error (lookupFunction_error hx),bind_error (lookupFunction_error hy)]
    exact .error hm

lemma defineVariable (scope : ℕ) (x : String) (v : Value) (mutable : Bool) :
    Alike R (defineVariable scope x v mutable) (defineVariable scope x v mutable) :=
  updateEnvironment fun _ _ h => h.updateFrame_agree scope fun _ _ hf => hf.defineVariable _

lemma defineAll (scope : ℕ) (bs : List (String × Value)) :
    Alike R (defineAll scope bs) (defineAll scope bs) := by
  induction bs with
  | nil => exact pure ()
  | cons b bs ih => exact bind (defineVariable scope b.1 b.2 false) fun _ => ih

lemma assign (scope : ℕ) (x : String) (index : Option Value) (v : Value) :
    Alike R (assign scope x index v) (assign scope x index v) := by
  refine bind (lookupVariable scope x) fun b => ite ?_ (fail _)
  have hwrite : ∀ v, Alike R (Run.updateEnvironment (·.writeVariable scope x v))
      (Run.updateEnvironment (·.writeVariable scope x v)) := fun v =>
    updateEnvironment fun _ _ h => h.writeVariable_agree scope (fun _ _ hf => hf.findVariable x)
      fun _ _ hf => hf.writeVariable x v
  cases index with
  | none => exact hwrite v
  | some i => exact bind (ofResult _) hwrite

lemma print (vs : List Value) : Alike R (print vs) (print vs) := by
  intro m m' hm
  cases h : m.sink.writeAll (vs.flatMap fun v : Value =>
    [Sink.bytesOf v.render,Sink.bytesOf "\n"]) with
  | mk sink complete =>
    rw [print_eq h,print_eq (hm.sink ▸ h)]
    cases complete with
    | true => exact .ok ⟨hm.prelude,hm.environment,rfl⟩
    | false => exact .error ⟨hm.prelude,hm.environment,rfl⟩

lemma inChild (parent : ℕ) {body body' : ℕ → Run α} (h : ∀ scope, Alike R (body scope) (body' scope)) :
    Alike R (inChild parent body) (inChild parent body') := by
  intro m m' hm
  have hp := hm.environment.push_agree .empty parent
  unfold Run.inChild
  generalize m.environment.push parent = x at hp
  generalize m'.environment.push parent = y at hp
  cases hp with
  | error e => exact .error hm
  | @ok opened opened' ho =>
    obtain ⟨scope,env⟩ := opened
    obtain ⟨_,env'⟩ := opened'
    obtain ⟨rfl,hr⟩ := ho
    have he := h scope { m with environment := env } { m' with environment := env' }
      ⟨hm.prelude,hr,hm.sink⟩
    dsimp only
    generalize body scope { m with environment := env } = r at he
    generalize body' scope { m' with environment := env' } = r' at he
    cases he with
    | ok hn => exact .ok ⟨hn.prelude,hn.environment.pop scope,hn.sink⟩
    | error hn => exact .error ⟨hn.prelude,hn.environment.pop scope,hn.sink⟩

lemma repeatWhile {c c' : Run Bool} {b b' : Run Completion} (hc : Alike R c c') (hb : Alike R b b')
    (n : ℕ) : Alike R (repeatWhile c b n) (repeatWhile c' b' n) := by
  induction n with
  | zero => exact throw _
  | succ n ih =>
    refine bind hc fun go => ite (bind hb fun completion => ?_) (pure _)
    cases completion with
    | normal => exact ih
    | returned v => exact pure _

end Alike

/-- Calls do the same in machines that are alike. -/
def CallsAlike (R : Function → Function → Prop) (call : Caller) : Prop :=
  ∀ scope f vs, Alike R (call scope f vs) (call scope f vs)

end Run

section
variable {call : Caller}
open Run

mutual
theorem Expr.evaluate_alike (hc : CallsAlike R call) (scope : ℕ) (e : Expr) :
    Alike R (e.evaluate call scope) (e.evaluate call scope) := by
  unfold Expr.evaluate
  match e with
  | .literal v _ => exact .pure _
  | .group e _ => exact Expr.evaluate_alike hc scope e
  | .binary op l r _ =>
    refine .bind (Expr.evaluate_alike hc scope l) fun a => .bind ?_ fun decided =>
      .ite (.pure _) (.bind (Expr.evaluate_alike hc scope r) fun b => .ofResult _)
    exact .ite (.ofResult _) (.pure _)
  | .ref x _ _ => exact .bind (.lookupVariable scope x) fun b => .pure _
  | .element x i _ _ =>
    exact .bind (Expr.evaluate_alike hc scope i) fun index =>
      .bind (.lookupVariable scope x) fun b => .ofResult _
  | .call f es _ _ => exact .bind (Expr.evaluateAll_alike hc scope es) fun vs => hc scope f vs
  | .list es _ => exact .bind (Expr.evaluateAll_alike hc scope es) fun vs => .pure _

theorem Expr.evaluateAll_alike (hc : CallsAlike R call) (scope : ℕ) (es : List Expr) :
    Alike R (Expr.evaluateAll call scope es) (Expr.evaluateAll call scope es) := by
  match es with
  | [] => exact .pure _
  | e :: es =>
    exact .bind (Expr.evaluate_alike hc scope e) fun v =>
      .bind (Expr.evaluateAll_alike hc scope es) fun vs => .pure _
end

lemma Expr.evaluateBoolean_alike (hc : CallsAlike R call) (scope : ℕ) (e : Expr) :
    Alike R (e.evaluateBoolean call scope) (e.evaluateBoolean call scope) :=
  .bind (Expr.evaluate_alike hc scope e) fun _ => .ofResult _

lemma Expr.evaluateInitial_alike (hc : CallsAlike R call) (scope : ℕ) (value : Option Expr) :
    Alike R (Expr.evaluateInitial call scope value) (Expr.evaluateInitial call scope value) := by
  cases value with
  | none => exact .pure _
  | some e => exact Expr.evaluate_alike hc scope e

lemma Case.isTaken_alike (hc : CallsAlike R call) (scope : ℕ) (v : Value) (value : Option Expr) :
    Alike R (Case.isTaken call scope v value) (Case.isTaken call scope v value) := by
  cases value with
  | none => exact .pure _
  | some e => exact .bind (Expr.evaluate_alike hc scope e) fun _ => .pure _

mutual
theorem Stmt.execute_alike (hc : CallsAlike R call) (rounds scope : ℕ) (s : Stmt) :
    Alike R (s.execute call rounds scope) (s.execute call rounds scope) := by
  unfold Stmt.execute
  match s with
  | .expression e => exact .bind (Expr.evaluate_alike hc scope e) fun _ => .pure _
  | .declaration x _ value _ =>
    exact .bind (Expr.evaluateInitial_alike hc scope value) fun v =>
      .bind (.defineVariable scope x v true) fun _ => .pure _
  | .assignment (.ref x _ _) e =>
    exact .bind (Expr.evaluate_alike hc scope e) fun v =>
      .bind (.assign scope x none v) fun _ => .pure _
  | .assignment (.element x i _ _) e =>
    exact .bind (Expr.evaluate_alike hc scope i) fun index =>
      .bind (Expr.evaluate_alike hc scope e) fun v =>
        .bind (.assign scope x (some index) v) fun _ => .pure _
  | .assignment (.literal ..) _ | .assignment (.group ..) _ | .assignment (.binary ..) _
  | .assignment (.call ..) _ | .assignment (.list ..) _ => exact .fail _
  | .ifElse c thenBlock elseBlock =>
    refine .bind (Expr.evaluateBoolean_alike hc scope c) fun go => .ite ?_ ?_
    · exact .inChild scope fun inner => Stmt.executeBlock_alike hc rounds inner thenBlock
    · exact .inChild scope fun inner => Stmt.executeBlock_alike hc rounds inner elseBlock
  | .switch c cases =>
    exact .bind (Expr.evaluate_alike hc scope c) fun v =>
      Case.executeFirst_alike hc rounds scope v cases
  | .loop c body =>
    exact .repeatWhile (Expr.evaluateBoolean_alike hc scope c)
      (.inChild scope fun inner => Stmt.executeBlock_alike hc rounds inner body) rounds
  | .ret e => exact .bind (Expr.evaluate_alike hc scope e) fun _ => .pure _

theorem Stmt.executeBlock_alike (hc : CallsAlike R call) (rounds scope : ℕ) (ss : List Stmt) :
    Alike R (Stmt.executeBlock call rounds scope ss) (Stmt.executeBlock call rounds scope ss) := by
  match ss with
  | [] => exact .pure _
  | s :: ss =>
    refine .bind (Stmt.execute_alike hc rounds scope s) fun completion => ?_
    cases completion with
    | normal => exact Stmt.executeBlock_alike hc rounds scope ss
    | returned v => exact .pure _

theorem Case.executeFirst_alike (hc : CallsAlike R call) (rounds scope : ℕ) (v : Value)
    (cs : List Case) :
    Alike R (Case.executeFirst call rounds scope v cs) (Case.executeFirst call rounds scope v cs) := by
  match cs with
  | [] => exact .pure _
  | .mk value body :: cs =>
    refine .bind (Case.isTaken_alike hc scope v value) fun taken => .ite ?_ ?_
    · exact .inChild scope fun inner => Stmt.executeBlock_alike hc rounds inner body
    · exact Case.executeFirst_alike hc rounds scope v cs
end

end

/-- Functions that go with each other are declared and called in the same way, and their bodies do the
same wherever calls do. -/
structure Function.Exchange (R : Function → Function → Prop) : Prop where
  name {f f' : Function} (h : R f f') : f.name = f'.name
  parameters {f f' : Function} (h : R f f') : f.parameters = f'.parameters
  body {f f' : Function} (h : R f f') {call : Caller} (hc : Run.CallsAlike R call) (rounds scope : ℕ) :
    Run.Alike R (Stmt.executeBlock call rounds scope f.body)
      (Stmt.executeBlock call rounds scope f'.body)

namespace Run

theorem call_alike (hR : Function.Exchange R) (fuel : ℕ) : CallsAlike R (Run.call fuel) := by
  induction fuel with
  | zero => exact fun _ _ _ => .throw _
  | succ n ih =>
    intro scope f vs
    refine .lookupFunction_bind scope f vs.length fun c c' hc => ?_
    cases hc with
    | print => exact .print vs
    | declared home hf =>
      dsimp only
      rw [hR.parameters hf]
      refine .inChild home fun inner => .bind (.defineAll inner _) fun _ =>
        .bind (hR.body hf ih n inner) fun completion => ?_
      cases completion <;> exact .pure _

lemma loadGlobals_alike (hR : Function.Exchange R) (fuel : ℕ) (gs : List Global) :
    Alike R (loadGlobals fuel gs) (loadGlobals fuel gs) := by
  induction gs with
  | nil => exact .pure ()
  | cons g gs ih =>
    exact .bind (Expr.evaluateInitial_alike (call_alike hR fuel) Environment.root g.value) fun v =>
      .bind (.defineVariable Environment.root g.name v g.mutable) fun _ => ih

lemma loadFunctions_alike (hname : ∀ f f', R f f' → f.name = f'.name)
    (hparameters : ∀ f f', R f f' → f.parameters = f'.parameters) {fs fs' : List Function}
    (h : List.Forall₂ R fs fs') : Alike R (loadFunctions fs) (loadFunctions fs') := by
  induction h with
  | nil => exact .pure ()
  | @cons f f' fs fs' hf _ ih =>
    refine .bind (.updateEnvironment fun env env' he => he.updateFrame_agree Environment.root
      fun g g' hg => ?_) fun _ => ih
    rw [hname f f' hf,Function.arity,hparameters f f' hf]
    exact hg.defineFunction f'.name _ (.declared _ hf)

/-- Programs with the same globals run alike if their functions go with each other. -/
theorem program_alike (hR : Function.Exchange R) (fuel : ℕ) {p q : Program}
    (hg : loadGlobals fuel p.globals = loadGlobals fuel q.globals)
    (hf : List.Forall₂ R p.functions q.functions) : Alike R (program fuel p) (program fuel q) := by
  have hfresh : Alike R (modify fun m => { m with environment := .ofRoot m.prelude })
      (modify fun m => { m with environment := .ofRoot m.prelude }) := fun m m' hm =>
    .ok ⟨hm.prelude,.ofRoot hm.prelude,hm.sink⟩
  have hload : Alike R (load fuel p) (load fuel q) := by
    refine .bind hfresh fun _ => .bind ?_ fun _ =>
      loadFunctions_alike (fun _ _ => hR.name) (fun _ _ => hR.parameters) hf
    rw [hg]
    exact loadGlobals_alike hR fuel q.globals
  exact .bind hload fun _ => call_alike hR fuel _ _ _

end Run

lemma Machine.standardNames_alike : Frame.Alike R standardNames standardNames := by
  refine ⟨rfl,fun name arity => ?_⟩
  simp only [standardNames,Frame.replaceFunction,Frame.findFunction,List.find?_cons]
  cases "print" == name && 1 == arity with
  | true => exact .some .print
  | false => exact .none

end BlockScript
