import BlockScript.Proofs.Isolation.Discipline
import BlockScript.Proofs.Trace.Basic
/-! Invariants of the scopes of a running program: what every step keeps holds at every moment. -/
namespace BlockScript

mutual
/-- The variables that a statement assigns to as wholes, not to an element of a list alone. -/
def Stmt.overwritten : Stmt → List String
  | .assignment (.ref x _ _) _ => [x]
  | .ifElse _ thenBlock elseBlock =>
    Stmt.blockOverwritten thenBlock ++ Stmt.blockOverwritten elseBlock
  | .switch _ cases => Case.allOverwritten cases
  | .loop _ body => Stmt.blockOverwritten body
  | _ => []

def Stmt.blockOverwritten : List Stmt → List String
  | [] => []
  | s :: ss => s.overwritten ++ Stmt.blockOverwritten ss

def Case.allOverwritten : List Case → List String
  | [] => []
  | .mk _ body :: cs => Stmt.blockOverwritten body ++ Case.allOverwritten cs
end

/-- What steps keep that neither define a variable in the root nor assign to a spared variable as a
whole, and the bodies that can be called take such steps only. -/
structure Environment.Invariant (I : Environment Value Callable → Prop) (spared : String → Prop) :
    Prop where
  depth {env} (h : I env) : 0 < env.depth
  inner {env scope} (h : I env) (ho : env.isOpen scope) : I (env.inner scope)
  pop {env} (h : I env) (scope : Nat) : I (env.pop scope)
  define {env env' scope b} (h : I env) (hs : scope ≠ root)
    (hd : env.defineVariable scope b = .ok env') : I env'
  write {env env' scope x b v} (h : I env) (hb : env.lookupVariable scope x = .ok b)
    (hv : spared x → ∃ i new, b.value.setElement i new = .ok v)
    (hw : env.writeVariable scope x v = .ok env') : I env'
  body {env scope f arity g home} (h : I env)
    (hf : env.lookupFunction scope f arity = .ok (.declared g home)) :
    ∀ x ∈ Stmt.blockOverwritten g.body, ¬spared x

/-- The invariant holds now and at every moment before. -/
structure Watch.Always (I : Environment Value Callable → Prop) (w : Watch) : Prop where
  now : I w.machine.environment
  past : ∀ m ∈ w.past, I m.machine.environment

namespace Traced
variable {α β : Type}

/-- However a computation ends, the invariant holds at every moment of it. -/
def Maintains (I : Environment Value Callable → Prop) (x : Traced α) (P : α → Prop) : Prop :=
  ∀ w : Watch, w.Always I → (Watch.final (x w)).Always I ∧ ∀ a w', x w = .ok a w' → P a

namespace Maintains
variable {I : Environment Value Callable → Prop} {spared : String → Prop} {x : Traced α}
  {P : α → Prop} {scope : Nat}

lemma pure {a : α} (h : P a) : Maintains I (Pure.pure a) P :=
  fun _ hw => ⟨hw,fun _ _ ha => by cases ha; exact h⟩

lemma throw (e : Halt) : Maintains I (throw e : Traced α) P := fun _ hw => ⟨hw,nofun⟩

lemma bind {f : α → Traced β} {Q : β → Prop} (hx : Maintains I x P)
    (hf : ∀ a, P a → Maintains I (f a) Q) : Maintains I (x >>= f) Q := by
  intro w hw
  have h := hx w hw
  change (Watch.final (EStateM.bind x f w)).Always I ∧ ∀ b w', EStateM.bind x f w = .ok b w' → Q b
  unfold EStateM.bind
  cases hr : x w with
  | ok a w' =>
    rw [hr] at h
    exact hf a (h.2 a w' rfl) w' h.1
  | error e w' =>
    rw [hr] at h
    exact ⟨h.1,nofun⟩

lemma any (hx : Maintains I x P) : Maintains I x fun _ => True :=
  fun w hw => ⟨(hx w hw).1,fun _ _ _ => trivial⟩

lemma ite {c : Prop} [Decidable c] {y : Traced α} (hx : Maintains I x P) (hy : Maintains I y P) :
    Maintains I (if c then x else y) P := by
  split
  · exact hx
  · exact hy

/-- A step of the machine that keeps the invariant. -/
lemma lift {r : Run α} (h : ∀ m, I m.environment → I (Run.left (r m)).environment ∧
    ∀ a m', r m = .ok a m' → P a) : Maintains I (lift r) P := by
  intro w hw
  obtain ⟨hi,hp⟩ := h w.machine hw.now
  unfold Traced.lift
  cases hr : r w.machine with
  | ok a m =>
    rw [hr] at hi
    exact ⟨⟨hi,hw.past⟩,fun _ _ ha => by cases ha; exact hp a m hr⟩
  | error e m =>
    rw [hr] at hi
    exact ⟨⟨hi,hw.past⟩,nofun⟩

lemma ofNames (r : Environment Value Callable → Except NameError α) :
    Maintains I (Traced.lift (do Run.ofNames (r (← get).environment))) fun a =>
      ∃ env, I env ∧ r env = .ok a := by
  refine lift fun m hm => ?_
  change I (Run.left (Run.ofNames (r m.environment) m)).environment ∧
    ∀ a m', Run.ofNames (r m.environment) m = .ok a m' → _
  cases hr : r m.environment with
  | ok a => exact ⟨hm,fun _ _ ha => by cases ha; exact ⟨_,hm,hr⟩⟩
  | error e => exact ⟨hm,nofun⟩

lemma ofResult (r : Except RunError α) : Maintains I (Traced.lift (Run.ofResult r)) fun _ => True := by
  refine lift fun m hm => ?_
  cases r <;> exact ⟨hm,fun _ _ _ => trivial⟩

lemma note (action : Action) : Maintains I (note scope action) fun _ => True := by
  refine fun w hw => ⟨⟨hw.now,?_⟩,fun _ _ _ => trivial⟩
  exact List.forall_mem_cons.mpr ⟨hw.now,hw.past⟩

lemma around {before : Action} {after : α → Action} (hx : Maintains I x P) :
    Maintains I (around scope before after x) P :=
  bind (note before) fun _ _ => bind hx fun a ha => bind (note (after a)) fun _ _ => pure ha

/-- A change of the scopes that keeps the invariant where it succeeds. -/
lemma updateEnvironment
    {change : Environment Value Callable → Except NameError (Environment Value Callable)}
    (h : ∀ env env', I env → change env = .ok env' → I env') :
    Maintains I (Traced.lift (Run.updateEnvironment change)) fun _ => True := by
  refine lift fun m hm => ⟨?_,fun _ _ _ => trivial⟩
  cases hc : change m.environment with
  | ok env =>
    rw [Run.updateEnvironment_ok hc]
    exact h _ _ hm hc
  | error e =>
    rw [Run.updateEnvironment_error hc]
    exact hm

/-- A definition that keeps the invariant, with the binding of its declaration beside it. -/
lemma define {name : String} {v : Value} {mutable : Bool} {slot : Option (Binding Ty)}
    (h : ∀ env env', I env → env.defineVariable scope ⟨name,v,mutable⟩ = .ok env' → I env') :
    Maintains I (define scope name v mutable slot) fun _ => True :=
  bind (updateEnvironment h) fun _ _ =>
    bind (P := fun _ => True) (fun _ hw => ⟨⟨hw.now,hw.past⟩,fun _ _ _ => trivial⟩) fun _ _ =>
      note _

lemma print (vs : List Value) : Maintains I (Traced.lift (Run.print vs)) fun _ => True := by
  refine lift fun m hm => ⟨?_,fun _ _ _ => trivial⟩
  cases h : m.sink.writeAll (vs.flatMap fun v : Value =>
    [Sink.bytesOf v.render,Sink.bytesOf "\n"]) with
  | mk sink complete =>
  rw [Run.print_eq h]
  cases complete <;> exact hm

lemma repeatWhile {condition : Traced Bool} {body : Traced Completion}
    (hc : Maintains I condition fun _ => True) (hb : Maintains I body fun _ => True) (n : Nat) :
    Maintains I (repeatWhile condition body n) fun _ => True := by
  induction n with
  | zero => exact throw _
  | succ n ih =>
    refine bind hc fun go _ => ite (bind hb fun c _ => ?_) (pure trivial)
    cases c with
    | normal => exact ih
    | returned v => exact pure trivial

variable (inv : Environment.Invariant I spared)
include inv

lemma defineAll (hs : scope ≠ Environment.root) (bs : List (String × Value))
    (slots : List (Binding Ty)) : Maintains I (defineAll scope bs slots) fun _ => True := by
  induction bs generalizing slots with
  | nil => exact pure trivial
  | cons b bs ih => exact bind (define fun _ _ h hd => inv.define h hs hd) fun _ _ => ih slots.tail

/-- Only a spared variable is safe from what it is assigned to as a whole. -/
lemma assign {y : String} {slot : Option (Binding Ty)} {index : Option Value} {v : Value}
    (h : index = none → ¬spared y) : Maintains I (assign scope y slot index v) fun _ => True := by
  refine bind (note _) fun _ _ => lift fun m hm => ⟨?_,fun _ _ _ => trivial⟩
  unfold Run.assign
  cases hb : m.environment.lookupVariable scope y with
  | error e =>
    rw [Run.bind_error (Run.lookupVariable_error hb)]
    exact hm
  | ok b =>
    have store (new : Value) (hn : spared y → ∃ i v, b.value.setElement i v = .ok new) :
        I (Run.left (Run.updateEnvironment (·.writeVariable scope y new) m)).environment := by
      cases hw : m.environment.writeVariable scope y new with
      | ok env =>
        rw [Run.updateEnvironment_ok hw]
        exact inv.write hm hb hn hw
      | error e =>
        rw [Run.updateEnvironment_error hw]
        exact hm
    rw [Run.bind_ok (Run.lookupVariable_ok hb)]
    split
    · cases index with
      | none => exact store v fun hy => absurd hy (h rfl)
      | some i =>
        dsimp only
        cases hs : b.value.setElement i v with
        | ok new => exact store new fun _ => ⟨i,v,hs⟩
        | error e => exact hm
    · exact hm

lemma inChild {parent : Nat} {body : Nat → Traced α}
    (hb : ∀ scope, scope ≠ Environment.root → Maintains I (body scope) P) :
    Maintains I (inChild parent body) P := by
  intro w hw
  unfold Traced.inChild
  by_cases ho : w.machine.environment.isOpen parent = true
  · rw [Environment.push_eq_ok ho]
    have hopen : Maintains I (Traced.note w.machine.environment.depth .opened) fun _ => True :=
      note .opened
    have hbody := bind hopen fun _ _ =>
      hb w.machine.environment.depth (Nat.ne_of_gt (inv.depth hw.now))
    have h := hbody { w with
      machine := { w.machine with environment := w.machine.environment.inner parent }
      declared := w.declared.inner parent } ⟨inv.inner hw.now ho,hw.past⟩
    have hseq : (Traced.note w.machine.environment.depth .opened *>
        body w.machine.environment.depth) =
      (Traced.note w.machine.environment.depth .opened >>= fun _ =>
        body w.machine.environment.depth) := rfl
    simp only [hseq]
    cases hr : (Traced.note w.machine.environment.depth .opened >>= fun _ =>
        body w.machine.environment.depth) _ with
    | ok a w' =>
      rw [hr] at h
      exact ⟨⟨inv.pop h.1.now _,h.1.past⟩,fun _ _ ha => by cases ha; exact h.2 a w' rfl⟩
    | error e w' =>
      rw [hr] at h
      exact ⟨⟨inv.pop h.1.now _,h.1.past⟩,fun _ _ ha => by cases ha⟩
  · rw [Environment.push,if_neg ho]
    exact ⟨hw,fun _ _ ha => by cases ha⟩

end Maintains

/-- Calls keep the invariant. -/
def Caller.Maintains (I : Environment Value Callable → Prop) (call : Traced.Caller) : Prop :=
  ∀ scope f vs, Traced.Maintains I (call scope f vs) fun _ => True

end Traced

open Traced (Maintains)

section
variable {I : Environment Value Callable → Prop} {spared : String → Prop} {call : Traced.Caller}
  {rounds scope : Nat}

mutual
theorem Expr.trace_maintains (hc : call.Maintains I) (e : Expr) :
    Maintains I (e.trace call scope) fun _ => True := by
  unfold Expr.trace
  refine .around ?_
  cases e with
  | literal v s => exact .pure trivial
  | group e s => exact trace_maintains hc e
  | binary op l r s =>
    refine .bind (trace_maintains hc l) fun a _ => .bind (P := fun _ => True) ?_ fun d _ => ?_
    · unfold Operator.isDecided
      split
      · exact .ofResult _
      · exact .pure trivial
    · exact .ite (.pure trivial) (.bind (trace_maintains hc r) fun b _ =>
        .bind (.note _) fun _ _ => .ofResult _)
  | ref x slot s =>
    exact .bind (.note _) fun _ _ => .bind (.ofNames fun env => env.lookupVariable scope x)
      fun b _ => .pure trivial
  | element x i slot s =>
    exact .bind (trace_maintains hc i) fun v _ => .bind (.note _) fun _ _ =>
      .bind (.ofNames fun env => env.lookupVariable scope x) fun b _ => .ofResult _
  | call f es slot s => exact .bind (traceAll_maintains hc es) fun vs _ => hc scope f vs
  | list es s => exact .bind (traceAll_maintains hc es) fun vs _ => .pure trivial

/-- There are as many values as expressions. -/
theorem Expr.traceAll_maintains (hc : call.Maintains I) (es : List Expr) :
    Maintains I (Expr.traceAll call scope es) fun vs => vs.length = es.length := by
  cases es with
  | nil => exact .pure rfl
  | cons e es =>
    exact .bind (trace_maintains hc e) fun v _ => .bind (traceAll_maintains hc es) fun vs h =>
      .pure (congrArg Nat.succ h)
end

lemma Expr.traceBoolean_maintains (hc : call.Maintains I) (e : Expr) :
    Maintains I (e.traceBoolean call scope) fun _ => True :=
  .bind (e.trace_maintains hc) fun _ _ => .ofResult _

lemma Expr.traceInitial_maintains (hc : call.Maintains I) (value : Option Expr) :
    Maintains I (Expr.traceInitial call scope value) fun _ => True := by
  cases value with
  | none => exact .pure trivial
  | some e => exact e.trace_maintains hc

lemma Case.traceTaken_maintains (hc : call.Maintains I) (v : Value) (value : Option Expr) :
    Maintains I (Case.traceTaken call scope v value) fun _ => True := by
  cases value with
  | none => exact .pure trivial
  | some e => exact .bind (e.trace_maintains hc) fun _ _ => .pure trivial

mutual
/-- A statement in a scope inside of the root that spares the spared variables. -/
theorem Stmt.trace_maintains (inv : Environment.Invariant I spared) (hc : call.Maintains I)
    {scope : Nat} (hs : scope ≠ Environment.root) (s : Stmt) (h : ∀ x ∈ s.overwritten, ¬spared x) :
    Maintains I (s.trace call rounds scope) fun _ => True := by
  unfold Stmt.trace
  refine .around ?_
  match s with
  | .expression e => exact .bind (e.trace_maintains hc) fun _ _ => .pure trivial
  | .declaration x typeName value slot =>
    exact .bind (Expr.traceInitial_maintains hc value) fun v _ =>
      .bind (.define fun _ _ h hd => inv.define h hs hd) fun _ _ => .pure trivial
  | .assignment (.ref x slot s) e =>
    exact .bind (e.trace_maintains hc) fun v _ =>
      .bind (.assign inv fun _ => h x (by simp [Stmt.overwritten])) fun _ _ => .pure trivial
  | .assignment (.element x i slot s) e =>
    exact .bind (i.trace_maintains hc) fun index _ => .bind (e.trace_maintains hc) fun v _ =>
      .bind (.assign inv nofun) fun _ _ => .pure trivial
  | .assignment (.literal ..) _ | .assignment (.group ..) _ | .assignment (.binary ..) _
  | .assignment (.call ..) _ | .assignment (.list ..) _ => exact .ofResult (.error _)
  | .ifElse c thenBlock elseBlock =>
    simp only [Stmt.overwritten,List.mem_append] at h
    refine .bind (c.traceBoolean_maintains hc) fun go _ => .ite ?_ ?_
    · exact .inChild inv fun inner hi =>
        Stmt.traceBlock_maintains inv hc hi thenBlock fun x hx => h x (.inl hx)
    · exact .inChild inv fun inner hi =>
        Stmt.traceBlock_maintains inv hc hi elseBlock fun x hx => h x (.inr hx)
  | .switch c cases =>
    exact .bind (c.trace_maintains hc) fun v _ => Case.traceFirst_maintains inv hc v cases h
  | .loop c body =>
    exact .repeatWhile (c.traceBoolean_maintains hc)
      (.inChild inv fun inner hi => Stmt.traceBlock_maintains inv hc hi body h) rounds
  | .ret e => exact .bind (e.trace_maintains hc) fun _ _ => .pure trivial

theorem Stmt.traceBlock_maintains (inv : Environment.Invariant I spared) (hc : call.Maintains I)
    {scope : Nat} (hs : scope ≠ Environment.root) (ss : List Stmt)
    (h : ∀ x ∈ Stmt.blockOverwritten ss, ¬spared x) :
    Maintains I (Stmt.traceBlock call rounds scope ss) fun _ => True := by
  match ss with
  | [] => exact .pure trivial
  | s :: ss =>
    simp only [Stmt.blockOverwritten,List.mem_append] at h
    refine .bind (Stmt.trace_maintains inv hc hs s fun x hx => h x (.inl hx)) fun c _ => ?_
    cases c with
    | normal => exact Stmt.traceBlock_maintains inv hc hs ss fun x hx => h x (.inr hx)
    | returned v => exact .pure trivial

theorem Case.traceFirst_maintains (inv : Environment.Invariant I spared) (hc : call.Maintains I)
    {scope : Nat} (v : Value) (cs : List Case) (h : ∀ x ∈ Case.allOverwritten cs, ¬spared x) :
    Maintains I (Case.traceFirst call rounds scope v cs) fun _ => True := by
  match cs with
  | [] => exact .pure trivial
  | .mk value body :: cs =>
    simp only [Case.allOverwritten,List.mem_append] at h
    refine .bind (Case.traceTaken_maintains hc v value) fun taken _ => .ite ?_ ?_
    · exact .inChild inv fun inner hi =>
        Stmt.traceBlock_maintains inv hc hi body fun x hx => h x (.inl hx)
    · exact Case.traceFirst_maintains inv hc v cs fun x hx => h x (.inr hx)
end

/-- Calls keep the invariant, by induction on the bound. -/
theorem Traced.call_maintains (inv : Environment.Invariant I spared) (fuel : Nat) :
    (Traced.call fuel).Maintains I := by
  induction fuel with
  | zero => exact fun _ _ _ => .throw _
  | succ n ih =>
    intro scope f vs
    refine .bind (.ofNames fun env => env.lookupFunction scope f vs.length) fun c hc => ?_
    obtain ⟨env,he,hf⟩ := hc
    cases c with
    | print => exact .print vs
    | declared g home =>
      refine .inChild inv fun inner hi => .bind (.defineAll inv hi _ _) fun _ _ =>
        .bind (Stmt.traceBlock_maintains inv ih hi g.body (inv.body he hf)) fun c _ => ?_
      cases c <;> exact .pure trivial

end
end BlockScript
