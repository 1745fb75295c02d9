import BlockScript.Proofs.Execution.Machine
import BlockScript.Proofs.Execution.Reachable
import BlockScript.Proofs.Execution.Rules
/-! Scope discipline: whatever runs in a scope, and however it ends, leaves the scopes as it found
them, but for the values of mutable variables and the names it declares there. -/
namespace BlockScript

namespace Environment
variable {α β γ : Type} {env : Environment α β} {scope : Nat}

lemma lookup_error (ho : env.isOpen scope) {found : Frame α β → Option γ} {missing e : NameError}
    (h : env.lookup scope found missing = .error e) : e = missing := by
  rw [lookup,if_pos ho] at h
  split at h
  · cases h
  · exact (Except.error.inj h).symm

lemma lookupVariable_ne_closed (ho : env.isOpen scope) (x : String) (i : Nat) :
    env.lookupVariable scope x ≠ .error (.closedScope i) := by
  unfold lookupVariable
  cases h : env.lookup scope (·.findVariable x) (.undefinedVariable x) with
  | ok hit => simp [Except.map]
  | error e => simp [lookup_error ho h,Except.map]

lemma lookupFunction_ne_closed (ho : env.isOpen scope) (f : String) (arity i : Nat) :
    env.lookupFunction scope f arity ≠ .error (.closedScope i) := by
  unfold lookupFunction
  cases h : env.lookup scope (·.findFunction f arity) (.undefinedFunction f arity) with
  | ok hit => simp [Except.map]
  | error e => simp [lookup_error ho h,Except.map]

lemma updateFrame_ne_closed (ho : env.isOpen scope)
    {change : Frame α β → Except NameError (Frame α β)}
    (hc : ∀ f i, change f ≠ .error (.closedScope i)) (i : Nat) :
    env.updateFrame scope change ≠ .error (.closedScope i) := by
  have hlt : scope < env.scopes.length := isOpen_iff.mp ho
  unfold updateFrame
  rw [List.getElem?_eq_getElem hlt]
  dsimp only
  intro he
  cases h : change env.scopes[scope].frame with
  | ok f => rw [h] at he; cases he
  | error e =>
    rw [h] at he
    cases he
    exact hc _ i h

lemma defineVariable_ne_closed (ho : env.isOpen scope) (b : Binding α) (i : Nat) :
    env.defineVariable scope b ≠ .error (.closedScope i) := by
  apply updateFrame_ne_closed ho
  intro f i
  unfold Frame.defineVariable
  split <;> simp

lemma defineFunction_ne_closed (ho : env.isOpen scope) (f : String) (arity : Nat) (c : β) (i : Nat) :
    env.defineFunction scope f arity c ≠ .error (.closedScope i) := by
  apply updateFrame_ne_closed ho
  intro f i
  unfold Frame.defineFunction
  split <;> simp

lemma writeVariable_ne_closed (ho : env.isOpen scope) (x : String) (v : α) (i : Nat) :
    env.writeVariable scope x v ≠ .error (.closedScope i) := by
  unfold writeVariable
  cases h : env.lookup scope (·.findVariable x) (.undefinedVariable x) with
  | error e => simp [lookup_error ho h,bind,Except.bind]
  | ok hit =>
    obtain ⟨owner,b⟩ := hit
    obtain ⟨s,hs,_⟩ := search_eq_some (lookup_eq_ok.mp h)
    change env.updateFrame owner (fun f => .ok (f.writeVariable x v)) ≠ _
    apply updateFrame_ne_closed (isOpen_iff.mpr (List.getElem?_eq_some_iff.mp hs).1)
    simp

end Environment

namespace Run
variable {α β : Type} {scope : Nat} {xs ys : List String} {m m' : Machine}

/-- The machine after a run, which may have failed. -/
def left : EStateM.Result Halt Machine α → Machine
  | .ok _ m | .error _ m => m

/-- What a run comes to. -/
def outcome : EStateM.Result Halt Machine α → Except Halt α
  | .ok a _ => .ok a
  | .error e _ => .error e

/-- What a machine keeps through something that runs in a scope. No step of it was given a scope that
is not open. -/
structure Disciplined (scope : Nat) (names : List String) (m : Machine)
    (r : EStateM.Result Halt Machine α) : Prop where
  grows : m.environment.Grows scope names (left r).environment
  reachable : (left r).Reachable
  inScope : ∀ i, outcome r ≠ .error (.failed (.scope (.closedScope i)))

/-- What runs in a scope is disciplined in every open scope of every state. -/
def Keeps (names : List String) (x : Nat → Run α) : Prop :=
  ∀ m scope, m.Reachable → m.environment.isOpen scope → Disciplined scope names m (x scope m)

namespace Disciplined

lemma ok (hg : m.environment.Grows scope xs m'.environment) (hr : m'.Reachable) (a : α) :
    Disciplined scope xs m (.ok a m') := by
  refine ⟨hg,hr,fun i h => ?_⟩
  cases h

lemma error (hm : m.Reachable) {e : Halt} (he : ∀ i, e ≠ .failed (.scope (.closedScope i))) :
    Disciplined scope xs m (.error e m : EStateM.Result Halt Machine α) := by
  refine ⟨(Environment.Grows.refl scope _).mono List.nil_subperm,hm,fun i h => ?_⟩
  cases h
  exact he i rfl

/-- Nothing is changed. -/
lemma same (hm : m.Reachable) (a : α) : Disciplined scope [] m (.ok a m) :=
  ok (.refl scope _) hm a

/-- Where something goes on after it. -/
lemma next {r : EStateM.Result Halt Machine α} (h : Disciplined scope xs m r)
    (ho : m.environment.isOpen scope) {a : α} (hr : r = .ok a m') :
    m'.Reachable ∧ m'.environment.isOpen scope = true := by
  subst hr
  exact ⟨h.reachable,(h.grows.isOpen scope).trans ho⟩

lemma bind {x : Run α} {k : α → Run β} (hx : Disciplined scope xs m (x m))
    (ho : m.environment.isOpen scope) (hk : ∀ a m', m'.Reachable → m'.environment.isOpen scope →
      Disciplined scope ys m' (k a m')) : Disciplined scope (xs ++ ys) m ((x >>= k) m) := by
  obtain ⟨hg,hr,hs⟩ := hx
  cases h : x m with
  | ok a m' =>
    rw [h] at hg hr
    rw [bind_ok h]
    have ho' : m'.environment.isOpen scope = true := (hg.isOpen scope).trans ho
    have hd := hk a m' hr ho'
    exact ⟨hg.trans hd.grows,hd.reachable,hd.inScope⟩
  | error e m' =>
    rw [h] at hg hr hs
    rw [bind_error h]
    refine ⟨hg.mono (List.sublist_append_left xs ys).subperm,hr,fun i => ?_⟩
    simpa [outcome] using hs i

lemma ofNames (hm : m.Reachable) {r : Except NameError α} (h : ∀ i, r ≠ .error (.closedScope i)) :
    Disciplined scope [] m (Run.ofNames r m) := by
  cases r with
  | ok a => exact .same hm a
  | error e =>
    refine .error hm fun i he => h i ?_
    cases he
    rfl

lemma update {change : Environment Value Callable → Except NameError (Environment Value Callable)}
    (hm : m.Reachable)
    (hok : ∀ env, change m.environment = .ok env →
      m.environment.Grows scope xs env ∧ Machine.Reachable { m with environment := env })
    (hne : ∀ i, change m.environment ≠ .error (.closedScope i)) :
    Disciplined scope xs m (updateEnvironment change m) := by
  cases h : change m.environment with
  | ok env =>
    obtain ⟨hg,hr⟩ := hok env h
    rw [updateEnvironment_ok h]
    exact .ok hg hr ()
  | error e =>
    rw [updateEnvironment_error h]
    refine .error hm fun i he => hne i ?_
    cases he
    exact h

lemma define (hm : m.Reachable) (ho : m.environment.isOpen scope) (x : String) (v : Value)
    (mutable : Bool) : Disciplined scope [x] m (defineVariable scope x v mutable m) := by
  refine update hm (fun env hd => ⟨?_,hm.defined hd⟩)
    (Environment.defineVariable_ne_closed ho ⟨x,v,mutable⟩)
  obtain ⟨s,hs,_,rfl⟩ := Environment.defineVariable_eq_ok.mp hd
  refine .setFrame hs ?_
  rw [if_pos rfl]
  exact .define s.frame ⟨x,v,mutable⟩

/-- A value is written to a mutable variable in sight. -/
lemma write (hm : m.Reachable) (ho : m.environment.isOpen scope) {x : String} {b : Binding Value}
    (hb : m.environment.lookupVariable scope x = .ok b) (hmut : b.mutable = true) (v : Value) :
    Disciplined scope [] m (updateEnvironment (·.writeVariable scope x v) m) := by
  refine update hm (fun env hw => ⟨?_,hm.written hw⟩)
    (Environment.writeVariable_ne_closed ho x v)
  obtain ⟨owner,s,hs,hf,rfl⟩ := Environment.writeVariable_of_lookup hb hw
  refine .setFrame hs ?_
  rw [ite_self]
  exact .write (hm.nested.placed owner s hs).names hf hmut v

lemma assign (hm : m.Reachable) (ho : m.environment.isOpen scope) (x : String)
    (index : Option Value) (v : Value) : Disciplined scope [] m (Run.assign scope x index v m) := by
  unfold Run.assign
  cases hb : m.environment.lookupVariable scope x with
  | error e =>
    rw [bind_error (lookupVariable_error hb)]
    refine .error hm fun i h => Environment.lookupVariable_ne_closed ho x i ?_
    cases h
    exact hb
  | ok b =>
    rw [bind_ok (lookupVariable_ok hb)]
    split
    · next hmut =>
      cases index with
      | none => exact write hm ho hb hmut v
      | some i =>
        dsimp only
        cases hs : b.value.setElement i v with
        | ok new => exact write hm ho hb hmut new
        | error e =>
          refine .error hm fun j he => ?_
          cases he
          exact Value.setElement_ne_scope hs
    · refine .error hm fun i h => ?_
      cases h

lemma print (hm : m.Reachable) (vs : List Value) :
    Disciplined scope [] m (Run.print vs m) := by
  cases h : m.sink.writeAll (vs.flatMap fun v : Value =>
    [Sink.bytesOf v.render,Sink.bytesOf "\n"]) with
  | mk sink complete =>
  rw [print_eq h]
  cases complete <;>
  · refine ⟨.refl scope _,hm.printed,fun i h => ?_⟩
    cases h

/-- A child is closed with all that was opened in it. -/
lemma child {parent : Nat} {body : Nat → Run α} (hm : m.Reachable)
    (ho : m.environment.isOpen parent) (hb : Keeps xs body) :
    Disciplined scope [] m (inChild parent body m) := by
  have hd : 0 < m.environment.depth := hm.nested.depth
  have hin : (m.environment.inner parent).isOpen m.environment.depth = true :=
    Environment.isOpen_inner_depth _ _
  have hbody := hb { m with environment := m.environment.inner parent } m.environment.depth
    (hm.opened ho) hin
  unfold inChild
  rw [Environment.push_eq_ok ho]
  dsimp only
  obtain ⟨hg,hr,hs⟩ := hbody
  cases h : body m.environment.depth { m with environment := m.environment.inner parent } with
  | ok a m' =>
    rw [h] at hg hr
    exact .ok (.pop_inner hd hg) (hr.closed _) a
  | error e m' =>
    rw [h] at hg hr hs
    refine ⟨.pop_inner hd hg,hr.closed _,fun i => ?_⟩
    simpa [outcome] using hs i

/-- A function in sight stands in the root. -/
lemma home_of_lookupFunction (hm : m.Reachable) {f : String} {arity : Nat} {c : Callable}
    (h : m.environment.lookupFunction scope f arity = .ok c) : c.home = Environment.root := by
  unfold Environment.lookupFunction at h
  cases hl : m.environment.lookup scope (·.findFunction f arity) (.undefinedFunction f arity) with
  | error e => rw [hl] at h; cases h
  | ok hit =>
    rw [hl] at h
    cases h
    obtain ⟨s,hs,hf⟩ := Environment.search_eq_some (Environment.lookup_eq_ok.mp hl)
    obtain ⟨e,he,hc⟩ := Option.map_eq_some_iff.mp hf
    dsimp only
    rw [← hc]
    exact ((hm.nested.placed _ s hs).functions e (List.mem_of_find?_eq_some he)).2

lemma called (hm : m.Reachable) (ho : m.environment.isOpen scope) (f : String) (arity : Nat)
    {body : Function → Nat → Run α} {k : Callable → Run α}
    (hp : Disciplined scope [] m (k .print m))
    (hd : ∀ g, k (.declared g Environment.root) = inChild Environment.root (body g))
    (hb : ∀ g, ∃ xs, Keeps xs (body g)) :
    Disciplined scope [] m ((Run.lookupFunction scope f arity >>= k) m) := by
  cases h : m.environment.lookupFunction scope f arity with
  | error e =>
    rw [bind_error (lookupFunction_error h)]
    refine .error hm fun i he => Environment.lookupFunction_ne_closed ho f arity i ?_
    cases he
    exact h
  | ok c =>
    rw [bind_ok (lookupFunction_ok h)]
    have hc := home_of_lookupFunction hm h
    cases c with
    | print => exact hp
    | declared g home =>
      obtain rfl : home = Environment.root := hc
      obtain ⟨xs,hg⟩ := hb g
      rw [hd]
      exact .child hm hm.nested.isOpen_root hg

end Disciplined

theorem keeps_rules : Rules Keeps where
  give a := fun _ _ hm _ => .same hm a
  stop := fun _ _ hm _ => .error hm (by simp)
  fail h := fun _ _ hm _ => .error hm fun i he => h (.closedScope i) (by cases he; rfl)
  seq hx hk := fun m scope hm ho => (hx m scope hm ho).bind ho fun a m' hm' ho' => hk a m' scope hm' ho'
  widen hx h := fun m scope hm ho =>
    let hd := hx m scope hm ho
    ⟨hd.grows.mono h,hd.reachable,hd.inScope⟩
  look x := fun m scope hm ho => .ofNames hm (Environment.lookupVariable_ne_closed ho x)
  define x v mutable := fun _ _ hm ho => .define hm ho x v mutable
  assign x index v := fun _ _ hm ho => .assign hm ho x index v
  print vs := fun _ _ hm _ => .print hm vs
  child hb := fun _ _ hm ho => .child hm ho hb
  called f arity _ _ hp hd hb := fun m scope hm ho =>
    .called hm ho f arity (hp m scope hm ho) hd hb

end Run
end BlockScript
