import BlockScript.Proofs.Isolation.Discipline
import BlockScript.Proofs.Scopes.Under
/-! Calls are lexical: what a call does depends on the root alone, and changes only the root. -/
namespace BlockScript

/-- The machine with outer scopes between the root and the rest. -/
def Machine.under (m : Machine) (outer : List (Scope Value Callable)) : Machine :=
  { m with environment := m.environment.under outer }

/-- Functions are found in the root, from every scope. -/
lemma Environment.Nested.lookupFunction_eq_root {env : Environment Value Callable} {scope : Nat}
    (h : env.Nested) (ho : env.isOpen scope) (f : String) (arity : Nat) :
    env.lookupFunction scope f arity = env.lookupFunction root f arity := by
  have hs : env.search (·.findFunction f arity) scope =
      env.search (·.findFunction f arity) root := by
    induction scope using Nat.strongRecOn with
    | ind scope ih =>
      by_cases hr : scope = root
      · rw [hr]
      · obtain ⟨s,hs⟩ : ∃ s, env.scopes[scope]? = some s := by
          rw [List.getElem?_eq_getElem (isOpen_iff.mp ho)]
          exact ⟨_,rfl⟩
        obtain ⟨_,hf,hp,hn⟩ := h.placed scope s hs
        have hnone : s.frame.findFunction f arity = none := by
          rw [Frame.findFunction,Option.map_eq_none_iff,List.find?_eq_none]
          exact fun e he => absurd (hf e he).1 hr
        cases hparent : s.parent with
        | none => exact absurd (hn hparent) hr
        | some p =>
          have hlt := hp p hparent
          have hop : env.isOpen p = true :=
            isOpen_iff.mpr (Nat.lt_trans hlt (isOpen_iff.mp ho))
          rw [search,hs]
          simp only [hnone,hparent,hlt,↓reduceIte]
          exact ih p hlt hop
  rw [lookupFunction,lookup,if_pos ho,lookupFunction,lookup,if_pos h.isOpen_root,hs]

namespace Run
open Environment (place)
variable {α β : Type} {xs ys : List String}

/-- A result with the machine under outer scopes. -/
def through (outer : List (Scope Value Callable)) :
    EStateM.Result Halt Machine α → EStateM.Result Halt Machine α
  | .ok a m => .ok a (m.under outer)
  | .error e m => .error e (m.under outer)

lemma left_through (outer : List (Scope Value Callable)) (r : EStateM.Result Halt Machine α) :
    left (through outer r) = (left r).under outer := by
  cases r <;> rfl

lemma outcome_through (outer : List (Scope Value Callable)) (r : EStateM.Result Halt Machine α) :
    outcome (through outer r) = outcome r := by
  cases r <;> rfl

/-- What runs in a scope does the same when more scopes stand between the root and the rest, and
leaves them alone. -/
structure Local (names : List String) (x : Nat → Run α) : Prop where
  keeps : Keeps names x
  commutes : ∀ m scope outer, m.Reachable → m.environment.isOpen scope →
    x (place outer.length scope) (m.under outer) = through outer (x scope m)

namespace Local

lemma seq {x : Nat → Run α} {k : α → Nat → Run β} (hx : Local xs x) (hk : ∀ a, Local ys (k a)) :
    Local (xs ++ ys) fun scope => x scope >>= fun a => k a scope := by
  refine ⟨keeps_rules.seq hx.keeps fun a => (hk a).keeps,fun m scope outer hm ho => ?_⟩
  have hc := hx.commutes m scope outer hm ho
  obtain ⟨hg,hr,_⟩ := hx.keeps m scope hm ho
  cases h : x scope m with
  | ok a m' =>
    rw [h] at hc hg hr
    rw [bind_ok h,bind_ok hc]
    exact (hk a).commutes m' scope outer hr ((hg.isOpen scope).trans ho)
  | error e m' =>
    rw [h] at hc
    rw [bind_error h,bind_error hc]
    rfl

variable {m : Machine} {scope : Nat} (outer : List (Scope Value Callable))

lemma update {change change' : Environment Value Callable →
      Except NameError (Environment Value Callable)}
    (h : change' (m.environment.under outer) = (change m.environment).map (·.under outer)) :
    updateEnvironment change' (m.under outer) = through outer (updateEnvironment change m) := by
  cases hc : change m.environment with
  | error e =>
    rw [hc] at h
    have h' : change' (m.under outer).environment = .error e := h
    rw [updateEnvironment_error hc,updateEnvironment_error h']
    rfl
  | ok env =>
    rw [hc] at h
    have h' : change' (m.under outer).environment = .ok (env.under outer) := h
    rw [updateEnvironment_ok hc,updateEnvironment_ok h']
    rfl

lemma assign (hm : m.Reachable) (ho : m.environment.isOpen scope) (x : String)
    (index : Option Value) (v : Value) :
    Run.assign (place outer.length scope) x index v (m.under outer) =
      through outer (Run.assign scope x index v m) := by
  have hw (v : Value) : updateEnvironment (·.writeVariable (place outer.length scope) x v)
      (m.under outer) = through outer (updateEnvironment (·.writeVariable scope x v) m) :=
    update outer (Environment.writeVariable_under hm.nested outer ho x v)
  have hl : (m.under outer).environment.lookupVariable (place outer.length scope) x =
      m.environment.lookupVariable scope x :=
    Environment.lookupVariable_under hm.nested outer ho x
  unfold Run.assign
  cases hb : m.environment.lookupVariable scope x with
  | error e =>
    rw [bind_error (lookupVariable_error hb),bind_error (lookupVariable_error (hl.trans hb))]
    rfl
  | ok b =>
    rw [bind_ok (lookupVariable_ok hb),bind_ok (lookupVariable_ok (hl.trans hb))]
    split
    · cases index with
      | none => exact hw v
      | some i =>
        dsimp only
        cases b.value.setElement i v with
        | ok new => exact hw new
        | error e => rfl
    · rfl

lemma print (vs : List Value) (m : Machine) :
    Run.print vs (m.under outer) = through outer (Run.print vs m) := by
  cases h : m.sink.writeAll (vs.flatMap fun v : Value =>
    [Sink.bytesOf v.render,Sink.bytesOf "\n"]) with
  | mk sink complete =>
  rw [print_eq h,print_eq (m := m.under outer) h]
  cases complete <;> rfl

/-- A child is opened above the outer scopes and is closed again. -/
lemma child (hm : m.Reachable) (ho : m.environment.isOpen scope) {body : Nat → Run α}
    (hb : Local xs body) : inChild (place outer.length scope) body (m.under outer) =
      through outer (inChild scope body m) := by
  have ho' : (m.under outer).environment.isOpen (place outer.length scope) = true :=
    (Environment.isOpen_under hm.nested outer scope).trans ho
  have hd : m.environment.depth ≠ Environment.root := Nat.ne_of_gt hm.nested.depth
  have hin : (m.environment.inner scope).isOpen m.environment.depth = true :=
    Environment.isOpen_inner_depth _ _
  have hdepth : (m.under outer).environment.depth = place outer.length m.environment.depth :=
    Environment.depth_under hm.nested outer
  have hinner : (m.under outer).environment.inner (place outer.length scope) =
      (m.environment.inner scope).under outer := Environment.inner_under hm.nested outer scope
  have hkeeps := hb.keeps { m with environment := m.environment.inner scope } _ (hm.opened ho) hin
  have hbody := hb.commutes { m with environment := m.environment.inner scope } _ outer
    (hm.opened ho) hin
  unfold inChild
  rw [Environment.push_eq_ok ho,Environment.push_eq_ok ho']
  dsimp only
  rw [hdepth,hinner]
  cases h : body m.environment.depth { m with environment := m.environment.inner scope } with
  | ok a m' =>
    rw [h] at hbody hkeeps
    have hbody : body (place outer.length m.environment.depth) { m.under outer with
      environment := (m.environment.inner scope).under outer } = .ok a (m'.under outer) := hbody
    rw [hbody]
    exact congrArg (fun env => EStateM.Result.ok a { m' with environment := env })
      (Environment.pop_under hkeeps.reachable.nested outer hd)
  | error e m' =>
    rw [h] at hbody hkeeps
    have hbody : body (place outer.length m.environment.depth) { m.under outer with
      environment := (m.environment.inner scope).under outer } = .error e (m'.under outer) := hbody
    rw [hbody]
    exact congrArg (fun env => EStateM.Result.error e { m' with environment := env })
      (Environment.pop_under hkeeps.reachable.nested outer hd)

lemma called (hm : m.Reachable) (ho : m.environment.isOpen scope) (f : String) (arity : Nat)
    {body : Function → Nat → Run α} {k : Callable → Run α}
    (hp : k .print (m.under outer) = through outer (k .print m))
    (hd : ∀ g, k (.declared g Environment.root) = inChild Environment.root (body g))
    (hb : ∀ g, ∃ xs, Local xs (body g)) :
    (Run.lookupFunction (place outer.length scope) f arity >>= k) (m.under outer) =
      through outer ((Run.lookupFunction scope f arity >>= k) m) := by
  have hl : (m.under outer).environment.lookupFunction (place outer.length scope) f arity =
      m.environment.lookupFunction scope f arity :=
    Environment.lookupFunction_under hm.nested outer ho f arity
  cases h : m.environment.lookupFunction scope f arity with
  | error e =>
    rw [bind_error (lookupFunction_error h),bind_error (lookupFunction_error (hl.trans h))]
    rfl
  | ok c =>
    rw [bind_ok (lookupFunction_ok h),bind_ok (lookupFunction_ok (hl.trans h))]
    have hc := Disciplined.home_of_lookupFunction hm h
    cases c with
    | print => exact hp
    | declared g home =>
      obtain rfl : home = Environment.root := hc
      obtain ⟨xs,hg⟩ := hb g
      rw [hd]
      exact child outer hm hm.nested.isOpen_root hg

end Local

theorem local_rules : Rules Local where
  give a := ⟨keeps_rules.give a,fun _ _ _ _ _ => rfl⟩
  stop := ⟨keeps_rules.stop,fun _ _ _ _ _ => rfl⟩
  fail h := ⟨keeps_rules.fail h,fun _ _ _ _ _ => rfl⟩
  seq hx hk := .seq hx hk
  widen hx h := ⟨keeps_rules.widen hx.keeps h,hx.commutes⟩
  look x := by
    refine ⟨keeps_rules.look x,fun m scope outer hm ho => ?_⟩
    have hl : (m.under outer).environment.lookupVariable (place outer.length scope) x =
        m.environment.lookupVariable scope x :=
      Environment.lookupVariable_under hm.nested outer ho x
    cases h : m.environment.lookupVariable scope x with
    | error e =>
      rw [lookupVariable_error h,lookupVariable_error (hl.trans h)]
      rfl
    | ok b =>
      rw [lookupVariable_ok h,lookupVariable_ok (hl.trans h)]
      rfl
  define x v mutable := ⟨keeps_rules.define x v mutable,fun m scope outer hm ho =>
    Local.update outer (Environment.updateFrame_under hm.nested outer ho _)⟩
  assign x index v := ⟨keeps_rules.assign x index v,fun _ _ outer hm ho =>
    Local.assign outer hm ho x index v⟩
  print vs := ⟨keeps_rules.print vs,fun m _ outer _ _ => Local.print outer vs m⟩
  child hb := ⟨keeps_rules.child hb.keeps,fun _ _ outer hm ho => Local.child outer hm ho hb⟩
  called f arity _ _ hp hd hb := by
    refine ⟨keeps_rules.called f arity hp.keeps hd fun g => (hb g).imp fun _ h => h.keeps,
      fun m scope outer hm ho => ?_⟩
    exact Local.called outer hm ho f arity (hp.commutes m scope outer hm ho) hd hb

/-- A call is the same from scopes that see the same function. -/
lemma call_congr {m : Machine} {scope scope' : Nat} {f : String} {vs : List Value}
    (h : m.environment.lookupFunction scope f vs.length = m.environment.lookupFunction scope' f vs.length)
    (fuel : Nat) : Run.call fuel scope f vs m = Run.call fuel scope' f vs m := by
  cases fuel with
  | zero => rfl
  | succ n =>
    simp only [Run.call]
    cases hl : m.environment.lookupFunction scope' f vs.length with
    | error e => rw [bind_error (lookupFunction_error hl),bind_error (lookupFunction_error (h.trans hl))]
    | ok c => rw [bind_ok (lookupFunction_ok hl),bind_ok (lookupFunction_ok (h.trans hl))]

/-- A call runs in the root, whatever open scope it is made from. -/
lemma call_eq_root {m : Machine} {scope : Nat} (hm : m.Reachable) (ho : m.environment.isOpen scope)
    (fuel : Nat) (f : String) (vs : List Value) :
    Run.call fuel scope f vs m = Run.call fuel Environment.root f vs m :=
  call_congr (hm.nested.lookupFunction_eq_root ho f vs.length) fuel

/-- A call from the root leaves only the root open where it alone was open, and does the same under any
other scopes. -/
lemma call_root {m : Machine} (hm : m.Reachable) (fuel : Nat) (f : String) (vs : List Value) :
    ∃ s, (left (Run.call fuel Environment.root f vs
        { m with environment := ⟨m.environment.scopes.take 1⟩ })).environment = ⟨[s]⟩ ∧
      ∀ outer, Run.call fuel Environment.root f vs
          { m with environment := ⟨m.environment.scopes.take 1 ++ outer⟩ } =
        through outer (Run.call fuel Environment.root f vs
          { m with environment := ⟨m.environment.scopes.take 1⟩ }) := by
  have hbare : Machine.Reachable { m with environment := ⟨m.environment.scopes.take 1⟩ } :=
    hm.closed Environment.root
  have hroot := hbare.nested.isOpen_root
  obtain ⟨s,ss,hs,_⟩ := (local_rules.calls fuel f vs).keeps _ _ hbare hroot |>.reachable.nested.exists_root
  have hdepth := (local_rules.calls fuel f vs).keeps _ _ hbare hroot |>.grows.depth_eq
  refine ⟨s,?_,fun outer => ?_⟩
  · have hd := hm.nested.depth
    rw [hs] at hdepth ⊢
    simp only [Environment.depth,List.length_take,List.length_cons] at hdepth hd
    have hss : ss = [] := List.length_eq_zero_iff.mp (by omega)
    rw [hss]
  · have hcall := (local_rules.calls fuel f vs).commutes _ Environment.root outer hbare hroot
    rw [Environment.place_root] at hcall
    rw [← hcall]
    simp [Machine.under,Environment.under,List.take_take]

/-- Calls are independent of the caller's locals. A call from an open scope comes to what it comes to
from the root where no other scope is open, with the same output and the same root, and leaves every
other scope exactly as it was. -/
theorem call_ignores_locals (m : Machine) (scope fuel : Nat) (f : String) (vs : List Value)
    (hm : m.Reachable) (ho : m.environment.isOpen scope = true) :
    let r := Run.call fuel scope f vs m
    let bare := Run.call fuel Environment.root f vs
      { m with environment := ⟨m.environment.scopes.take 1⟩ }
    outcome r = outcome bare ∧ (left r).sink = (left bare).sink ∧
    (left r).environment.scopes[Environment.root]? =
      (left bare).environment.scopes[Environment.root]? ∧
    ∀ i : Nat, i ≠ Environment.root →
      (left r).environment.scopes[i]? = m.environment.scopes[i]? := by
  have hbare : Machine.Reachable { m with environment := ⟨m.environment.scopes.take 1⟩ } :=
    hm.closed Environment.root
  have hroot := hbare.nested.isOpen_root
  have hd : (⟨m.environment.scopes.take 1⟩ : Environment Value Callable).depth = 1 := by
    have := hm.nested.depth
    simp only [Environment.depth,List.length_take] at this ⊢
    omega
  -- the machine is the bare one with its other scopes put under the root
  have hunder : Machine.under { m with environment := ⟨m.environment.scopes.take 1⟩ }
      (m.environment.scopes.drop 1) = m :=
    congrArg (fun env => { m with environment := env }) (Environment.under_take_drop m.environment)
  have hcall := (local_rules.calls fuel f vs).commutes _ Environment.root
    (m.environment.scopes.drop 1) hbare hroot
  rw [hunder,Environment.place_root] at hcall
  have hkeeps := (local_rules.calls fuel f vs).keeps _ Environment.root hbare hroot
  intro r bare
  have hr : r = through (m.environment.scopes.drop 1) bare :=
    (call_eq_root hm ho fuel f vs).trans hcall
  -- only the root is left open by the bare call
  obtain ⟨s,ss,hs,_⟩ := hkeeps.reachable.nested.exists_root
  have hlen : (left bare).environment.depth = 1 := hkeeps.grows.depth_eq.trans hd
  have hone : (left bare).environment = ⟨[s]⟩ := by
    change (left bare).environment = _ at hs
    rw [hs] at hlen ⊢
    have hss : ss = [] := by simpa [Environment.depth] using hlen
    rw [hss]
  have henv : (left r).environment = ⟨s :: m.environment.scopes.drop 1⟩ := by
    rw [hr,left_through]
    change (left bare).environment.under _ = _
    rw [hone,Environment.under_cons,List.map_nil,List.append_nil]
  refine ⟨by rw [hr,outcome_through],by rw [hr,left_through]; rfl,by rw [henv,hone]; rfl,?_⟩
  intro i hi
  obtain ⟨j,rfl⟩ := Nat.exists_eq_succ_of_ne_zero hi
  rw [henv,List.getElem?_cons_succ,List.getElem?_drop,Nat.add_comm]

/-- The names of a program whose function reads a variable that only callers have. -/
def peekingNames : Frame Value Callable :=
  ⟨[],[⟨"peek",0,.declared ⟨"peek",[],[],none,[.ret (.ref "local" none none)],none⟩
    Environment.root⟩]⟩

/-- A machine in a scope with that variable. -/
def peekingMachine : Machine :=
  ⟨peekingNames,⟨[⟨none,peekingNames⟩,⟨some 0,⟨[⟨"local",.integer 1,true⟩],[]⟩⟩]⟩,.new none true⟩

theorem call_ignores_locals_peek :
    peekingMachine.Reachable ∧ peekingMachine.environment.isOpen 1 = true ∧
    outcome (Run.call 2 1 "peek" [] peekingMachine) = outcome
      (Run.call 2 Environment.root "peek" [] (.new peekingNames (.new none true))) ∧
    (left (Run.call 2 1 "peek" [] peekingMachine)).environment.scopes[1]? =
      peekingMachine.environment.scopes[1]? := by
  have hnames : peekingNames.Rooted := by
    refine ⟨List.nodup_nil,fun e he => ?_⟩
    obtain rfl := List.mem_singleton.mp he
    rfl
  have hopened : Machine.Reachable ⟨peekingNames,
      ⟨[⟨none,peekingNames⟩,⟨some 0,.empty⟩]⟩,.new none true⟩ :=
    (Machine.Reachable.start hnames).opened (show Environment.isOpen _ 0 = true from rfl)
  have hdefined : (⟨[⟨none,peekingNames⟩,⟨some 0,.empty⟩]⟩ :
      Environment Value Callable).defineVariable 1 ⟨"local",.integer 1,true⟩ =
        .ok peekingMachine.environment := rfl
  have hm : peekingMachine.Reachable := hopened.defined hdefined
  obtain ⟨hout,_,_,hkept⟩ := call_ignores_locals peekingMachine 1 2 "peek" [] hm rfl
  exact ⟨hm,rfl,hout,hkept 1 (by decide)⟩

end Run
end BlockScript
