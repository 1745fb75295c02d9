import BlockScript.Proofs.Execution.Machine
import BlockScript.Proofs.Soundness.Scope
import BlockScript.Proofs.Trace.Basic
/-! What holds at every moment of a run of a checked program, and rules for the steps that keep it
so. -/
namespace BlockScript

/-- A declaration in an open scope stands in front of the names there. -/
lemma Environment.declare_eq_setFrame {α β : Type} {env : Environment α β} {scope : Nat}
    {f : Frame α β} {fs : List (Frame α β)} (h : env.chain scope = f :: fs) (b : Binding α) :
    env.declare scope (some b) = env.setFrame scope { f with bindings := b :: f.bindings } := by
  obtain ⟨s,hs,rfl⟩ := getElem?_of_chain h
  simp only [declare,setFrame]
  congr 1
  apply List.ext_getElem?
  intro i
  simp only [List.getElem?_modify]
  by_cases hi : scope = i
  · subst hi
    simp [hs]
  · simp [hi]

/-- What is known where an action happens, given the declarations in scope. -/
def Action.Holds (blank : Bool) (decls : Environment Ty Signature) (scope : Nat) : Action → Prop
  | evaluated e v => ∃ t, e.ty = some t ∧ t.Fits blank v
  | operating op l r a b => ∃ left right t, l.ty = some left ∧ r.ty = some right ∧
      op.type left right = .ok t ∧ left.Fits blank a ∧ right.Fits blank b
  | accessing x slot => ∃ d, slot = some d ∧ decls.lookupVariable scope x = .ok d
  | _ => True

/-- At a moment the running scope sees the same variables as their declarations say, each with a
value that fits, and the action is as its types say. -/
structure Moment.Sound (blank : Bool) (m : Moment) : Prop where
  visible : ∀ x b, m.machine.environment.lookupVariable m.scope x = .ok b →
    ∃ d, m.declared.lookupVariable m.scope x = .ok d ∧ b.Holds blank d
  declared : ∀ x d, m.declared.lookupVariable m.scope x = .ok d →
    ∃ b, m.machine.environment.lookupVariable m.scope x = .ok b ∧ b.Holds blank d
  action : m.action.Holds blank m.declared m.scope

/-- The invariant of a run. -/
structure Watch.Good (blank : Bool) (names : Option (Frame Ty Signature))
    (decls : Environment Ty Signature) (w : Watch) : Prop where
  declared : w.declared = decls
  typed : w.machine.environment.Typed blank names decls
  past : ∀ m ∈ w.past, m.Sound blank

/-- Where a run may stop without a value: with an error that is allowed and, where the error is
about operands, right when an operator was applied to them. -/
structure Watch.Stopped (blank : Bool) (halt : Halt) (w : Watch) : Prop where
  past : ∀ m ∈ w.past, m.Sound blank
  allowed : ∀ e, halt = .failed e → e.Allowed blank
  operands : ∀ op left right, halt = .failed (.invalidOperands op left right) →
    ∃ m rest op' l r a b, w.past = m :: rest ∧ m.action = .operating op' l r a b ∧
      a.operate op' b = .error (.invalidOperands op left right)

namespace Traced
variable {α β : Type}

/-- From the invariant a computation leads to a result with the invariant, or stops as it may. -/
def Ensures (blank : Bool) (names : Option (Frame Ty Signature)) (decls : Environment Ty Signature)
    (x : Traced α) (P : α → Environment Ty Signature → Prop) : Prop :=
  ∀ w : Watch, w.Good blank names decls →
    match x w with
    | .ok a w' => ∃ decls', P a decls' ∧ w'.Good blank names decls'
    | .error halt w' => w'.Stopped blank halt

lemma lift_bind {r : Run α} {f : α → Run β} : lift (r >>= f) = lift r >>= fun a => lift (f a) := by
  funext w
  simp only [lift,Bind.bind,EStateM.bind]
  cases r w.machine <;> rfl

namespace Ensures
variable {blank : Bool} {names : Option (Frame Ty Signature)} {decls : Environment Ty Signature}
  {x : Traced α} {P : α → Environment Ty Signature → Prop} {scope : Nat}

lemma pure {a : α} (h : P a decls) : Ensures blank names decls (Pure.pure a) P :=
  fun _ hw => ⟨decls,h,hw⟩

lemma bind {f : α → Traced β} {Q : β → Environment Ty Signature → Prop}
    (hx : Ensures blank names decls x P)
    (hf : ∀ a decls', P a decls' → Ensures blank names decls' (f a) Q) :
    Ensures blank names decls (x >>= f) Q := by
  intro w hw
  have h := hx w hw
  change match EStateM.bind x f w with
    | .ok b w' => _
    | .error halt w' => _
  unfold EStateM.bind
  cases hr : x w with
  | ok a w' =>
    rw [hr] at h
    obtain ⟨decls',hp,hw'⟩ := h
    exact hf a decls' hp w' hw'
  | error halt w' =>
    rw [hr] at h
    exact h

lemma imp {Q : α → Environment Ty Signature → Prop} (hx : Ensures blank names decls x P)
    (h : ∀ a decls', P a decls' → Q a decls') : Ensures blank names decls x Q := by
  intro w hw
  have hr := hx w hw
  cases hx : x w with
  | ok a w' =>
    rw [hx] at hr
    obtain ⟨decls',hp,hw'⟩ := hr
    exact ⟨decls',h a decls' hp,hw'⟩
  | error halt w' =>
    rw [hx] at hr
    exact hr

lemma ite {c : Prop} [Decidable c] {y : Traced α} (hx : c → Ensures blank names decls x P)
    (hy : ¬c → Ensures blank names decls y P) :
    Ensures blank names decls (if c then x else y) P := by
  split
  · next h => exact hx h
  · next h => exact hy h

/-- The scopes that a computation starts from stand beside the declarations. -/
lemma ofTyped (h : (∃ env : Environment Value Callable, env.Typed blank names decls) →
    Ensures blank names decls x P) : Ensures blank names decls x P :=
  fun w hw => h ⟨_,hw.typed⟩ w hw

lemma outOfFuel : Ensures blank names decls (throw .outOfFuel : Traced α) P :=
  fun _ hw => ⟨hw.past,nofun,nofun⟩

/-- The moment that a good watch is at. -/
lemma moment_sound {w : Watch} (hw : w.Good blank names decls) {action : Action}
    (h : action.Holds blank decls scope) :
    Moment.Sound blank ⟨action,scope,w.machine,w.declared⟩ := by
  obtain ⟨rfl,ht,_⟩ := hw
  exact ⟨fun x b hb => ht.declared_of_lookup hb,fun x d hd => ht.lookupVariable hd,h⟩

lemma note {action : Action} (h : action.Holds blank decls scope) :
    Ensures blank names decls (note scope action) (fun _ decls' => decls = decls') := by
  intro w hw
  refine ⟨decls,rfl,hw.declared,hw.typed,?_⟩
  intro m hm
  rcases List.mem_cons.mp hm with rfl | hm
  · exact moment_sound hw h
  · exact hw.past m hm

lemma around {before : Action} {after : α → Action} (hb : before.Holds blank decls scope)
    (hx : Ensures blank names decls x P)
    (ha : ∀ a decls', P a decls' → (after a).Holds blank decls' scope) :
    Ensures blank names decls (around scope before after x) P := by
  refine bind (note hb) fun _ _ h => ?_
  subst h
  refine bind hx fun a decls' hp => bind (note (ha a decls' hp)) fun _ _ h => ?_
  subst h
  exact pure hp

/-- A result that does not depend on the machine. -/
lemma ofResult {r : Except RunError α} (hok : ∀ a, r = .ok a → P a decls)
    (herr : ∀ e, r = .error e → e.Allowed blank ∧ ∀ op l r, e ≠ .invalidOperands op l r) :
    Ensures blank names decls (lift (Run.ofResult r)) P := by
  intro w hw
  cases r with
  | ok a => exact ⟨decls,hok a rfl,hw.declared,hw.typed,hw.past⟩
  | error e =>
    obtain ⟨ha,hn⟩ := herr e rfl
    refine ⟨hw.past,?_,?_⟩
    · intro _ h; cases h; exact ha
    · intro op l r h; cases h; exact absurd rfl (hn op l r)

/-- An operator is applied to operands that were evaluated for it. -/
lemma operating {op : Operator} {l r : Expr} {a b : Value} {left right t : Ty}
    (hl : l.ty = some left) (hr : r.ty = some right) (ht : op.type left right = .ok t)
    (ha : left.Fits blank a) (hb : right.Fits blank b) :
    Ensures blank names decls
      (Traced.note scope (.operating op l r a b) >>= fun _ => lift (Run.ofResult (a.operate op b)))
      (fun v decls' => decls = decls' ∧ t.Fits blank v) := by
  intro w hw
  have hm : Moment.Sound blank ⟨.operating op l r a b,scope,w.machine,w.declared⟩ :=
    moment_sound hw ⟨left,right,t,hl,hr,ht,ha,hb⟩
  have hs := Value.operate_sound ht ha hb
  have he : (Traced.note scope (.operating op l r a b) >>= fun _ =>
      lift (Run.ofResult (a.operate op b))) w = lift (Run.ofResult (a.operate op b))
        { w with past := ⟨.operating op l r a b,scope,w.machine,w.declared⟩ :: w.past } := rfl
  rw [he]
  cases ho : a.operate op b with
  | ok v =>
    rw [ho] at hs
    refine ⟨decls,⟨rfl,hs⟩,hw.declared,hw.typed,?_⟩
    intro m hmem
    rcases List.mem_cons.mp hmem with rfl | hmem
    · exact hm
    · exact hw.past m hmem
  | error e =>
    rw [ho] at hs
    refine ⟨?_,?_,?_⟩
    · intro m hmem
      rcases List.mem_cons.mp hmem with rfl | hmem
      · exact hm
      · exact hw.past m hmem
    · intro _ h; cases h; exact hs
    · intro op' k k' h
      cases h
      exact ⟨_,_,op,l,r,a,b,rfl,rfl,ho⟩

lemma lookupVariable {x : String} {d : Binding Ty} (hd : decls.lookupVariable scope x = .ok d) :
    Ensures blank names decls (lift (Run.lookupVariable scope x))
      (fun b decls' => decls = decls' ∧ b.Holds blank d) := by
  intro w hw
  obtain ⟨b,hb,hh⟩ := hw.typed.lookupVariable hd
  simp only [lift,Run.lookupVariable_ok hb]
  exact ⟨decls,⟨rfl,hh⟩,hw.declared,hw.typed,hw.past⟩

lemma lookupFunction {x : String} {arity : Nat} {s : Signature}
    (hs : decls.lookupFunction scope x arity = .ok s) :
    Ensures blank names decls (lift (Run.lookupFunction scope x arity))
      (fun c decls' => decls = decls' ∧ c.Holds blank names s ∧ s.parameters.length = arity) := by
  intro w hw
  obtain ⟨c,hc,hh⟩ := hw.typed.lookupFunction hs
  simp only [lift,Run.lookupFunction_ok hc]
  exact ⟨decls,⟨rfl,hh⟩,hw.declared,hw.typed,hw.past⟩

/-- A change of the scopes that succeeds and keeps them beside the declarations. -/
lemma updateEnvironment
    {change : Environment Value Callable → Except NameError (Environment Value Callable)}
    (h : ∀ env, env.Typed blank names decls → ∃ env', change env = .ok env' ∧
      env'.Typed blank names decls) :
    Ensures blank names decls (lift (Run.updateEnvironment change)) (fun _ decls' => decls = decls') := by
  intro w hw
  obtain ⟨env',he,ht⟩ := h w.machine.environment hw.typed
  simp only [lift,Run.updateEnvironment_ok he]
  exact ⟨decls,rfl,hw.declared,ht,hw.past⟩

/-- A declaration adds its name in front, with its value on one side and its slot on the other. -/
lemma define (hscope : names = none ∨ 0 < scope) {frame : Frame Ty Signature}
    {frames : List (Frame Ty Signature)} (hc : decls.chain scope = frame :: frames) {d : Binding Ty}
    (hn : frame.findVariable d.name = none) {v : Value} (hv : d.value.Fits blank v) :
    Ensures blank names decls (define scope d.name v d.mutable (some d)) (fun _ decls' =>
      decls.setFrame scope { frame with bindings := d :: frame.bindings } = decls') := by
  intro w hw
  obtain ⟨env',he,ht⟩ := hw.typed.define hscope hc (b := ⟨d.name,v,d.mutable⟩) ⟨rfl,rfl,hv⟩ hn
  have hr : Run.defineVariable scope d.name v d.mutable w.machine =
      .ok () { w.machine with environment := env' } := Run.updateEnvironment_ok he
  have hd := Environment.declare_eq_setFrame hc d
  have hw' : Watch.Good blank names
      (decls.setFrame scope { frame with bindings := d :: frame.bindings })
      { w with
        machine := { w.machine with environment := env' }
        declared := w.declared.declare scope (some d) } :=
    ⟨by rw [hw.declared]; exact hd,ht,hw.past⟩
  have hdef : Traced.define scope d.name v d.mutable (some d) w =
      Traced.note scope (.bound d.name) { w with
        machine := { w.machine with environment := env' }
        declared := w.declared.declare scope (some d) } := by
    simp only [Traced.define,Bind.bind,EStateM.bind,lift,hr]
    rfl
  rw [hdef]
  exact note (by trivial) _ hw'

/-- An assignment to a mutable variable of a value that fits it, or that fits the elements of its
list. -/
lemma assign {x : String} {d : Binding Ty} (hd : decls.lookupVariable scope x = .ok d)
    (hm : d.mutable = true) {index : Option Value} {v : Value}
    (hv : match index with
      | none => d.value.Fits blank v
      | some i => ∃ t, d.value = .list t ∧ Ty.integer.Fits blank i ∧ t.Fits blank v) :
    Ensures blank names decls (assign scope x (some d) index v) (fun _ decls' => decls = decls') := by
  unfold Traced.assign
  refine bind (note ⟨d,rfl,hd⟩) ?_
  intro _ _ hpost
  obtain rfl := hpost
  unfold Run.assign
  rw [lift_bind]
  apply bind (lookupVariable hd)
  intro b _ hpost
  obtain ⟨rfl,hb⟩ := hpost
  rw [if_pos (hb.mutable.trans hm)]
  have store : ∀ new, d.value.Fits blank new →
      Ensures blank names decls (lift (Run.updateEnvironment (·.writeVariable scope x new)))
        (fun _ decls' => decls = decls') :=
    fun new hnew => updateEnvironment fun env henv => henv.write hd hnew
  cases index with
  | none => exact store v hv
  | some i =>
    obtain ⟨t,ht,hi,hv⟩ := hv
    have hlist := hb.value
    rw [ht] at hlist
    dsimp only
    rw [lift_bind]
    refine bind (P := fun new decls' => decls = decls' ∧ d.value.Fits blank new) ?_ ?_
    · rw [ht]
      rcases Value.setElement_sound hlist hi hv with ⟨u,hu,hf⟩ | ⟨e,he,ha,hne⟩
      · exact ofResult (fun a h => by rw [hu] at h; cases h; exact ⟨rfl,hf⟩)
          (fun e h => by rw [hu] at h; cases h)
      · exact ofResult (fun a h => by rw [he] at h; cases h)
          (fun e' h => by rw [he] at h; cases h; exact ⟨ha,hne⟩)
    · intro new _ hpost
      obtain ⟨rfl,hnew⟩ := hpost
      exact store new hnew

/-- A body in a child of an open scope leaves what was there before. -/
lemma inChild {parent : Nat} {body : Nat → Traced α} {P : α → Prop} (ho : decls.isOpen parent)
    (hb : Ensures blank names (decls.inner parent) (body decls.depth) (fun a decls' =>
      P a ∧ ∃ frame, (decls.inner parent).setFrame decls.depth frame = decls')) :
    Ensures blank names decls (inChild parent body) (fun a decls' => P a ∧ decls = decls') := by
  intro w hw
  have hd := hw.typed.scopes.depth_eq
  have hopen : w.machine.environment.isOpen parent := by
    rw [Environment.isOpen_iff] at ho ⊢
    have hl : w.machine.environment.scopes.length = decls.scopes.length := hd
    omega
  have hw' : Watch.Good blank names (decls.inner parent)
      { w with
        machine := { w.machine with environment := w.machine.environment.inner parent }
        declared := w.declared.inner parent } :=
    ⟨by rw [hw.declared],hw.typed.inner parent,hw.past⟩
  have hbody : Ensures blank names (decls.inner parent)
      (Traced.note decls.depth .opened >>= fun _ => body decls.depth) _ :=
    bind (note (by trivial)) fun _ decls' h => by rw [← h]; exact hb
  have h := hbody _ hw'
  unfold Traced.inChild
  rw [Environment.push_eq_ok hopen,hd]
  have hseq : (Traced.note decls.depth .opened *> body decls.depth) =
      (Traced.note decls.depth .opened >>= fun _ => body decls.depth) := rfl
  simp only [hseq]
  cases hr : (Traced.note decls.depth .opened >>= fun _ => body decls.depth) _ with
  | ok a w' =>
    rw [hr] at h
    obtain ⟨_,⟨hp,frame,rfl⟩,hw''⟩ := h
    refine ⟨decls,⟨hp,rfl⟩,?_,hw''.typed |> hw.typed.pop parent ho,hw''.past⟩
    have hpos : 0 < decls.depth :=
      Nat.lt_of_le_of_lt (Nat.zero_le _) (Environment.isOpen_iff.mp ho)
    change w'.declared.pop decls.depth = decls
    rw [hw''.declared,Environment.pop_setFrame_inner _ _ _ hpos]
  | error halt w' =>
    rw [hr] at h
    exact ⟨h.past,h.allowed,h.operands⟩

/-- Every round of a loop starts from the same declarations. -/
lemma repeatWhile {condition : Traced Bool} {body : Traced Completion} {Q : Value → Prop}
    (hc : Ensures blank names decls condition (fun _ decls' => decls = decls'))
    (hb : Ensures blank names decls body (fun c decls' =>
      (∀ v, c = .returned v → Q v) ∧ decls = decls')) (n : Nat) :
    Ensures blank names decls (repeatWhile condition body n) (fun c decls' =>
      (∀ v, c = .returned v → Q v) ∧ decls = decls') := by
  induction n with
  | zero => exact outOfFuel
  | succ n ih =>
    refine bind hc fun go _ h => ?_
    subst h
    refine ite (fun _ => bind hb ?_) (fun _ => pure ⟨nofun,rfl⟩)
    intro c _ hpost
    obtain ⟨hc,rfl⟩ := hpost
    cases c with
    | normal => exact ih
    | returned v => exact pure ⟨hc,rfl⟩

lemma print (arguments : List Value) :
    Ensures blank names decls (lift (Run.print arguments))
      (fun v decls' => v = .nil ∧ decls = decls') := by
  intro w hw
  obtain ⟨sink,complete,hs⟩ : ∃ sink complete, w.machine.sink.writeAll (arguments.flatMap fun v =>
      [Sink.bytesOf v.render,Sink.bytesOf "\n"]) = (sink,complete) := ⟨_,_,rfl⟩
  simp only [lift,Run.print_eq hs]
  cases complete with
  | true => exact ⟨decls,⟨rfl,rfl⟩,hw.declared,hw.typed,hw.past⟩
  | false => exact ⟨hw.past,fun e h => by cases h; trivial,nofun⟩

end Ensures
end Traced
end BlockScript
