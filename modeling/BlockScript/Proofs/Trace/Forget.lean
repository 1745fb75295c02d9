import BlockScript.Proofs.Trace.Basic
/-! A run without its record is the plain run: keeping the record changes nothing else. -/
namespace BlockScript

def Watch.forget {α : Type} : EStateM.Result Halt Watch α → EStateM.Result Halt Machine α
  | .ok a w => .ok a w.machine
  | .error e w => .error e w.machine

namespace Traced
variable {α β : Type}

/-- The plain steps are the recorded ones without the record. -/
def Forgets (x : Traced α) (r : Run α) : Prop := ∀ w, Watch.forget (x w) = r w.machine

namespace Forgets

lemma pure (a : α) : Forgets (Pure.pure a) (Pure.pure a) := fun _ => rfl

lemma throw (e : Halt) : Forgets (throw e : Traced α) (MonadExcept.throw e) := fun _ => rfl

lemma lift (r : Run α) : Forgets (lift r) r := by
  intro w
  unfold Traced.lift
  cases h : r w.machine <;> simp [Watch.forget]

lemma note (scope : Nat) (action : Action) : Forgets (note scope action) (Pure.pure ()) :=
  fun _ => rfl

lemma bind {x : Traced α} {r : Run α} {f : α → Traced β} {g : α → Run β}
    (hx : Forgets x r) (hf : ∀ a, Forgets (f a) (g a)) : Forgets (x >>= f) (r >>= g) := by
  intro w
  change Watch.forget (EStateM.bind x f w) = EStateM.bind r g w.machine
  unfold EStateM.bind
  rw [← hx w]
  cases x w with
  | ok a w' => exact hf a w'
  | error e w' => rfl

/-- A step that the plain run does not have. -/
lemma silent {x : Traced α} {y : Traced β} {r : Run β} (a : α) (hx : Forgets x (Pure.pure a))
    (hy : Forgets y r) : Forgets (x >>= fun _ => y) r := by
  have h := bind (g := fun _ => r) hx (fun _ => hy)
  simpa using h

lemma around {x : Traced α} {r : Run α} (scope : Nat) (before : Action) (after : α → Action)
    (hx : Forgets x r) : Forgets (around scope before after x) r := by
  apply silent () (note scope before)
  have h := bind (g := Pure.pure) hx (fun a => silent () (note scope (after a)) (pure a))
  simpa using h

lemma ite {c : Prop} [Decidable c] {x y : Traced α} {r s : Run α}
    (hx : Forgets x r) (hy : Forgets y s) : Forgets (if c then x else y) (if c then r else s) := by
  split
  · exact hx
  · exact hy

lemma define (scope : Nat) (name : String) (value : Value) (mutable : Bool)
    (slot : Option (Binding Ty)) :
    Forgets (define scope name value mutable slot) (Run.defineVariable scope name value mutable) := by
  have h := bind (g := fun _ => Pure.pure ()) (lift (Run.defineVariable scope name value mutable))
    (fun _ => silent () (fun _ => rfl :
      Forgets (modify fun w => { w with declared := w.declared.declare scope slot }) _)
      (note scope (.bound name)))
  simpa [Traced.define] using h

lemma defineAll (scope : Nat) (pairs : List (String × Value)) (slots : List (Binding Ty)) :
    Forgets (defineAll scope pairs slots) (Run.defineAll scope pairs) := by
  induction pairs generalizing slots with
  | nil => exact pure ()
  | cons p rest ih => exact bind (define scope p.1 p.2 false slots.head?) (fun _ => ih slots.tail)

lemma assign (scope : Nat) (name : String) (slot : Option (Binding Ty)) (index : Option Value)
    (value : Value) :
    Forgets (assign scope name slot index value) (Run.assign scope name index value) :=
  silent () (note scope (.accessing name slot)) (lift _)

lemma inChild (parent : Nat) {body : Nat → Traced α} {plain : Nat → Run α}
    (h : ∀ scope, Forgets (body scope) (plain scope)) :
    Forgets (inChild parent body) (Run.inChild parent plain) := by
  intro w
  unfold Traced.inChild Run.inChild
  cases w.machine.environment.push parent with
  | error e => rfl
  | ok opened =>
    obtain ⟨scope,env⟩ := opened
    have hb := (silent () (note scope .opened) (h scope))
      { w with machine := { w.machine with environment := env }, declared := w.declared.inner parent }
    change Watch.forget (match (Traced.note scope .opened >>= fun _ => body scope) _ with
      | .ok a w => .ok a (w.close scope)
      | .error e w => .error e (w.close scope)) = _
    dsimp only at hb ⊢
    rw [← hb]
    cases (Traced.note scope .opened >>= fun _ => body scope) _ <;> rfl

lemma repeatWhile {condition : Traced Bool} {body : Traced Completion} {c : Run Bool}
    {b : Run Completion} (hc : Forgets condition c) (hb : Forgets body b) (n : Nat) :
    Forgets (repeatWhile condition body n) (Run.repeatWhile c b n) := by
  induction n with
  | zero => exact throw _
  | succ n ih =>
    refine bind hc fun go => ite (bind hb fun completion => ?_) (pure _)
    cases completion with
    | normal => exact ih
    | returned v => exact pure _

end Forgets
end Traced

open Traced (Forgets)

/-- A caller with a record makes the same calls as the plain one. -/
def Traced.Caller.Records (call : Traced.Caller) (plain : BlockScript.Caller) : Prop :=
  ∀ scope name arguments, Forgets (call scope name arguments) (plain scope name arguments)

section
variable {call : Traced.Caller} {plain : Caller}

mutual
theorem Expr.trace_forgets (hcall : call.Records plain) (scope : Nat) (e : Expr) :
    Forgets (e.trace call scope) (e.evaluate plain scope) := by
  unfold Expr.trace Expr.evaluate
  apply Forgets.around
  match e with
  | .literal v _ => exact .pure _
  | .group e _ => exact Expr.trace_forgets hcall scope e
  | .binary op l r _ =>
    refine .bind (Expr.trace_forgets hcall scope l) fun a => .bind (.lift _) fun decided =>
      .ite (.pure _) (.bind (Expr.trace_forgets hcall scope r) fun b => ?_)
    exact .silent () (.note scope _) (.lift _)
  | .ref x slot _ => exact .silent () (.note scope _) (.bind (.lift _) fun b => .pure _)
  | .element x i slot _ =>
    refine .bind (Expr.trace_forgets hcall scope i) fun index => .silent () (.note scope _) ?_
    exact .bind (.lift _) fun b => .lift _
  | .call f es _ _ => exact .bind (Expr.traceAll_forgets hcall scope es) fun vs => hcall scope f vs
  | .list es _ => exact .bind (Expr.traceAll_forgets hcall scope es) fun vs => .pure _

theorem Expr.traceAll_forgets (hcall : call.Records plain) (scope : Nat) (es : List Expr) :
    Forgets (Expr.traceAll call scope es) (Expr.evaluateAll plain scope es) := by
  match es with
  | [] => exact .pure _
  | e :: es =>
    exact .bind (Expr.trace_forgets hcall scope e) fun v =>
      .bind (Expr.traceAll_forgets hcall scope es) fun vs => .pure _
end

lemma Expr.traceBoolean_forgets (hcall : call.Records plain) (scope : Nat) (e : Expr) :
    Forgets (e.traceBoolean call scope) (e.evaluateBoolean plain scope) :=
  .bind (Expr.trace_forgets hcall scope e) fun _ => .lift _

lemma Expr.traceInitial_forgets (hcall : call.Records plain) (scope : Nat) (value : Option Expr) :
    Forgets (Expr.traceInitial call scope value) (Expr.evaluateInitial plain scope value) := by
  cases value with
  | none => exact .pure _
  | some e => exact Expr.trace_forgets hcall scope e

lemma Case.traceTaken_forgets (hcall : call.Records plain) (scope : Nat) (v : Value) (value : Option Expr) :
    Forgets (Case.traceTaken call scope v value) (Case.isTaken plain scope v value) := by
  cases value with
  | none => exact .pure _
  | some e => exact .bind (Expr.trace_forgets hcall scope e) fun _ => .pure _

mutual
theorem Stmt.trace_forgets (hcall : call.Records plain) (rounds scope : Nat) (s : Stmt) :
    Forgets (s.trace call rounds scope) (s.execute plain rounds scope) := by
  unfold Stmt.trace Stmt.execute
  apply Forgets.around
  match s with
  | .expression e => exact .bind (Expr.trace_forgets hcall scope e) fun _ => .pure _
  | .declaration x _ value slot =>
    exact .bind (Expr.traceInitial_forgets hcall scope value) fun v =>
      .bind (.define scope x v true slot) fun _ => .pure _
  | .assignment (.ref x slot _) e =>
    exact .bind (Expr.trace_forgets hcall scope e) fun v =>
      .bind (.assign scope x slot none v) fun _ => .pure _
  | .assignment (.element x i slot _) e =>
    exact .bind (Expr.trace_forgets hcall scope i) fun index =>
      .bind (Expr.trace_forgets hcall scope e) fun v =>
        .bind (.assign scope x slot (some index) v) fun _ => .pure _
  | .assignment (.literal ..) _ | .assignment (.group ..) _ | .assignment (.binary ..) _
  | .assignment (.call ..) _ | .assignment (.list ..) _ => exact .lift _
  | .ifElse c thenBlock elseBlock =>
    refine .bind (Expr.traceBoolean_forgets hcall scope c) fun go => .ite ?_ ?_
    · exact .inChild scope fun inner => Stmt.traceBlock_forgets hcall rounds inner thenBlock
    · exact .inChild scope fun inner => Stmt.traceBlock_forgets hcall rounds inner elseBlock
  | .switch c cases =>
    exact .bind (Expr.trace_forgets hcall scope c) fun v => Case.traceFirst_forgets hcall rounds scope v cases
  | .loop c body =>
    exact .repeatWhile (Expr.traceBoolean_forgets hcall scope c)
      (.inChild scope fun inner => Stmt.traceBlock_forgets hcall rounds inner body) rounds
  | .ret e => exact .bind (Expr.trace_forgets hcall scope e) fun _ => .pure _

theorem Stmt.traceBlock_forgets (hcall : call.Records plain) (rounds scope : Nat) (ss : List Stmt) :
    Forgets (Stmt.traceBlock call rounds scope ss) (Stmt.executeBlock plain rounds scope ss) := by
  match ss with
  | [] => exact .pure _
  | s :: ss =>
    refine .bind (Stmt.trace_forgets hcall rounds scope s) fun completion => ?_
    cases completion with
    | normal => exact Stmt.traceBlock_forgets hcall rounds scope ss
    | returned v => exact .pure _

theorem Case.traceFirst_forgets (hcall : call.Records plain) (rounds scope : Nat) (v : Value) (cs : List Case) :
    Forgets (Case.traceFirst call rounds scope v cs) (Case.executeFirst plain rounds scope v cs) := by
  match cs with
  | [] => exact .pure _
  | .mk value body :: cs =>
    refine .bind (Case.traceTaken_forgets hcall scope v value) fun taken => .ite ?_ ?_
    · exact .inChild scope fun inner => Stmt.traceBlock_forgets hcall rounds inner body
    · exact Case.traceFirst_forgets hcall rounds scope v cs
end

end

theorem Traced.call_forgets (fuel : Nat) : (Traced.call fuel).Records (Run.call fuel) := by
  induction fuel with
  | zero => exact fun _ _ _ => .throw _
  | succ n ih =>
    intro scope name arguments
    refine .bind (.lift _) fun callable => ?_
    cases callable with
    | print => exact .lift _
    | declared f home =>
      refine .inChild home fun inner => .bind (.defineAll inner _ _) fun _ =>
        .bind (Stmt.traceBlock_forgets ih n inner f.body) fun completion => ?_
      cases completion <;> exact .pure _

lemma Traced.loadGlobals_forgets (fuel : Nat) (gs : List Global) :
    Forgets (Traced.loadGlobals fuel gs) (Run.loadGlobals fuel gs) := by
  induction gs with
  | nil => exact .pure _
  | cons g gs ih =>
    exact .bind (Expr.traceInitial_forgets (Traced.call_forgets fuel) _ _) fun v =>
      .bind (.define _ _ _ _ _) fun _ => ih

/-- The outcome of a run, its error and the machine it leaves do not depend on the record. -/
theorem Traced.program_forgets (names : Frame Ty Signature) (fuel : Nat) (p : Program) :
    Forgets (Traced.program names fuel p) (Run.program fuel p) := by
  have hload : Forgets (Traced.load names fuel p) (Run.load fuel p) := by
    refine .bind (fun _ => rfl) fun _ => .bind (Traced.loadGlobals_forgets fuel p.globals) fun _ => ?_
    have h := Forgets.bind (g := fun _ => pure ()) (.lift (Run.loadFunctions p.functions))
      (fun _ => (fun _ => rfl : Forgets (modify fun w : Watch =>
        { w with declared := ⟨w.declared.scopes.modify Environment.root fun s =>
          { s with frame := s.frame.declareFunctions p.functions }⟩ }) _))
    simpa using h
  exact .bind hload fun _ => Traced.call_forgets fuel _ _ _

lemma Program.watch_forget (fuel : Nat) (p : Program) (sink : Sink) :
    Watch.forget (p.watch fuel sink) = Run.program fuel p (.new Machine.standardNames sink) :=
  Traced.program_forgets _ _ _ _

end BlockScript
