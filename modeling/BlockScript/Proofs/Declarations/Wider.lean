import BlockScript.Proofs.Isolation.Calls
import BlockScript.Proofs.Isolation.Session
import BlockScript.Proofs.Scopes.Changes
/-! A machine with more functions does what the one with fewer does, unless that one misses a
function. -/
namespace BlockScript

/-- The same variables, and every function of the first. -/
structure Frame.Wider (f f' : Frame Value Callable) : Prop where
  bindings : f.bindings = f'.bindings
  functions : ∀ name arity c, f.findFunction name arity = some c → f'.findFunction name arity = some c

namespace Frame.Wider
variable {f f' : Frame Value Callable}

lemma refl (f : Frame Value Callable) : f.Wider f := ⟨rfl,fun _ _ _ h => h⟩

lemma findVariable (h : f.Wider f') (x : String) :
    Option.Rel Eq (f.findVariable x) (f'.findVariable x) := by
  unfold Frame.findVariable
  rw [h.bindings]
  cases f'.bindings.find? (·.name == x) with
  | none => exact .none
  | some b => exact .some rfl

lemma defineVariable (h : f.Wider f') (b : Binding Value) :
    NameError.Agree Wider (f.defineVariable b) (f'.defineVariable b) := by
  have hb := h.findVariable b.name
  unfold Frame.defineVariable
  generalize f.findVariable b.name = x at hb
  generalize f'.findVariable b.name = y at hb
  cases hb with
  | some => exact .error _
  | none => exact .ok ⟨by simp only [h.bindings],h.functions⟩

lemma writeVariable (h : f.Wider f') (x : String) (v : Value) :
    (f.writeVariable x v).Wider (f'.writeVariable x v) :=
  ⟨by simp only [Frame.writeVariable,h.bindings],h.functions⟩

end Frame.Wider

/-- A function is found in the root, with more functions as well. -/
lemma Environment.Nested.lookupFunction_wider {env env' : Environment Value Callable}
    (h : env.Nested) (h' : env'.Nested) (hw : env.Related Frame.Wider env') {scope arity : Nat}
    (ho : env.isOpen scope) {f : String} {c : Callable}
    (hc : env.lookupFunction scope f arity = .ok c) : env'.lookupFunction scope f arity = .ok c := by
  rw [h.lookupFunction_eq_root ho] at hc
  rw [h'.lookupFunction_eq_root ((hw.isOpen_eq scope).symm.trans ho)]
  obtain ⟨t,ht⟩ : ∃ t, env'.scopes[root]? = some t := ⟨_,List.getElem?_eq_getElem h'.depth⟩
  obtain ⟨s,hs,_,hf⟩ := hw.of_getElem? ht
  rw [lookupFunction_eq_ok,chain_root hs] at hc
  rw [lookupFunction_eq_ok,chain_root ht]
  have hc : s.frame.findFunction f arity = some c := by simpa using hc
  simpa using hf.functions f arity c hc

/-- Machines with the same scopes and sink, the second with more functions. -/
structure Machine.Wider (m m' : Machine) : Prop where
  environment : m.environment.Related Frame.Wider m'.environment
  sink : m.sink = m'.sink

lemma Machine.Wider.refl (m : Machine) : m.Wider m := by
  refine ⟨fun i => ?_,rfl⟩
  cases m.environment.scopes[i]? with
  | none => exact .none
  | some s => exact .some ⟨rfl,.refl _⟩

namespace Run
variable {α β : Type} {m m' : Machine} {scope : Nat} {xs ys : List String}

/-- The same result with more functions, or a function is missing. -/
inductive Widened : EStateM.Result Halt Machine α → EStateM.Result Halt Machine α → Prop
  | ok {a m m'} (h : m.Wider m') : Widened (.ok a m) (.ok a m')
  | error {e m m'} (h : m.Wider m') : Widened (.error e m) (.error e m')
  | missing {f arity m r} :
    Widened (.error (.failed (.scope (.undefinedFunction f arity))) m) r

namespace Widened

lemma refl (r : EStateM.Result Halt Machine α) : Widened r r := by
  cases r with
  | ok a m => exact .ok (.refl m)
  | error e m => exact .error (.refl m)

lemma bind {x y : Run α} {k k' : α → Run β} (h : Widened (x m) (y m'))
    (hk : ∀ a m₁ m₁', x m = .ok a m₁ → y m' = .ok a m₁' → m₁.Wider m₁' →
      Widened (k a m₁) (k' a m₁')) : Widened ((x >>= k) m) ((y >>= k') m') := by
  generalize hx : x m = r at h
  generalize hy : y m' = r' at h
  cases h with
  | ok hw =>
    rw [bind_ok hx,bind_ok hy]
    exact hk _ _ _ hx hy hw
  | error hw =>
    rw [bind_error hx,bind_error hy]
    exact .error hw
  | missing =>
    rw [bind_error hx]
    exact .missing

lemma ofNames {r r' : Except NameError α} (h : NameError.Agree Eq r r') (hw : m.Wider m') :
    Widened (Run.ofNames r m) (Run.ofNames r' m') := by
  cases h with
  | ok h => subst h; exact .ok hw
  | error e => exact .error hw

lemma ofResult (r : Except RunError α) (hw : m.Wider m') :
    Widened (Run.ofResult r m) (Run.ofResult r m') := by
  cases r with
  | ok a => exact .ok hw
  | error e => exact .error hw

lemma updateEnvironment
    {change : Environment Value Callable → Except NameError (Environment Value Callable)}
    (h : NameError.Agree (Environment.Related Frame.Wider) (change m.environment)
      (change m'.environment)) (hw : m.Wider m') :
    Widened (Run.updateEnvironment change m) (Run.updateEnvironment change m') := by
  generalize hx : change m.environment = r at h
  generalize hy : change m'.environment = r' at h
  cases h with
  | ok hr =>
    rw [updateEnvironment_ok hx,updateEnvironment_ok hy]
    exact .ok ⟨hr,hw.sink⟩
  | error e =>
    rw [updateEnvironment_error hx,updateEnvironment_error hy]
    exact .error hw

lemma lookupVariable (hw : m.Wider m') (scope : Nat) (x : String) :
    Widened (Run.lookupVariable scope x m) (Run.lookupVariable scope x m') :=
  ofNames ((hw.environment.lookup_agree (fun _ _ h => h.findVariable x) scope
    (.undefinedVariable x)).map fun _ _ h => h.2) hw

lemma assign (hw : m.Wider m') (scope : Nat) (x : String) (index : Option Value) (v : Value) :
    Widened (Run.assign scope x index v m) (Run.assign scope x index v m') := by
  refine (lookupVariable hw scope x).bind fun b m₁ m₁' _ _ h₁ => ?_
  have store {m m' : Machine} (hw : m.Wider m') (new : Value) :
      Widened (Run.updateEnvironment (·.writeVariable scope x new) m)
        (Run.updateEnvironment (·.writeVariable scope x new) m') :=
    updateEnvironment (hw.environment.writeVariable_agree scope (fun _ _ h => h.findVariable x)
      fun _ _ h => h.writeVariable x new) hw
  split
  · cases index with
    | none => exact store h₁ v
    | some i => exact (ofResult (b.value.setElement i v) h₁).bind fun new _ _ _ _ h₂ => store h₂ new
  · exact .error h₁

lemma print (hw : m.Wider m') (vs : List Value) :
    Widened (Run.print vs m) (Run.print vs m') := by
  cases h : m.sink.writeAll (vs.flatMap fun v : Value =>
    [Sink.bytesOf v.render,Sink.bytesOf "\n"]) with
  | mk sink complete =>
  rw [print_eq h,print_eq (hw.sink ▸ h)]
  cases complete with
  | true => exact .ok ⟨hw.environment,rfl⟩
  | false => exact .error ⟨hw.environment,rfl⟩

end Widened

/-- What runs in a scope does the same with more functions, unless it misses one. -/
structure Widens (names : List String) (x : Nat → Run α) : Prop where
  keeps : Keeps names x
  widened : ∀ m m' scope, m.Reachable → m'.Reachable → m.environment.isOpen scope → m.Wider m' →
    Widened (x scope m) (x scope m')

namespace Widens

lemma seq {x : Nat → Run α} {k : α → Nat → Run β} (hx : Widens xs x) (hk : ∀ a, Widens ys (k a)) :
    Widens (xs ++ ys) fun scope => x scope >>= fun a => k a scope := by
  refine ⟨keeps_rules.seq hx.keeps fun a => (hk a).keeps,fun m m' scope hm hm' ho hw => ?_⟩
  have ho' := (hw.environment.isOpen_eq scope).symm.trans ho
  refine (hx.widened m m' scope hm hm' ho hw).bind fun a m₁ m₁' hr hr' h₁ => ?_
  obtain ⟨hm₁,ho₁⟩ := (hx.keeps m scope hm ho).next ho hr
  obtain ⟨hm₁',_⟩ := (hx.keeps m' scope hm' ho').next ho' hr'
  exact (hk a).widened m₁ m₁' scope hm₁ hm₁' ho₁ h₁

lemma child {body : Nat → Run α} (hb : Widens xs body) (hm : m.Reachable) (hm' : m'.Reachable)
    (ho : m.environment.isOpen scope) (hw : m.Wider m') :
    Widened (inChild scope body m) (inChild scope body m') := by
  have ho' := (hw.environment.isOpen_eq scope).symm.trans ho
  have hin : (m.environment.inner scope).isOpen m.environment.depth = true :=
    Environment.isOpen_inner_depth _ _
  have hbody := hb.widened { m with environment := m.environment.inner scope }
    { m' with environment := m'.environment.inner scope } m.environment.depth (hm.opened ho)
    (hm'.opened ho') hin ⟨hw.environment.inner (.refl _) scope,hw.sink⟩
  unfold inChild
  rw [Environment.push_eq_ok ho,Environment.push_eq_ok ho',← hw.environment.depth_eq]
  dsimp only
  generalize body m.environment.depth { m with environment := m.environment.inner scope } = r
    at hbody
  generalize body m.environment.depth { m' with environment := m'.environment.inner scope } = r'
    at hbody
  cases hbody with
  | ok h => exact .ok ⟨h.environment.pop _,h.sink⟩
  | error h => exact .error ⟨h.environment.pop _,h.sink⟩
  | missing => exact .missing

/-- The functions that are found are the same, and stand in the root. -/
lemma called (hm : m.Reachable) (hm' : m'.Reachable) (ho : m.environment.isOpen scope)
    (hw : m.Wider m') (f : String) (arity : Nat) {body : Function → Nat → Run α}
    {k : Callable → Run α} (hp : Widened (k .print m) (k .print m'))
    (hd : ∀ g, k (.declared g Environment.root) = inChild Environment.root (body g))
    (hb : ∀ g, ∃ xs, Widens xs (body g)) :
    Widened ((Run.lookupFunction scope f arity >>= k) m)
      ((Run.lookupFunction scope f arity >>= k) m') := by
  cases h : m.environment.lookupFunction scope f arity with
  | error e =>
    rw [bind_error (lookupFunction_error h)]
    unfold Environment.lookupFunction at h
    cases hl : m.environment.lookup scope (·.findFunction f arity) (.undefinedFunction f arity) with
    | ok hit => rw [hl] at h; cases h
    | error e' =>
      rw [hl] at h
      obtain rfl := Environment.lookup_error ho hl
      cases h
      exact .missing
  | ok c =>
    rw [bind_ok (lookupFunction_ok h),
      bind_ok (lookupFunction_ok (hm.nested.lookupFunction_wider hm'.nested hw.environment ho h))]
    have hc := Disciplined.home_of_lookupFunction hm h
    cases c with
    | print => exact hp
    | declared g home =>
      obtain rfl : home = Environment.root := hc
      obtain ⟨xs,hg⟩ := hb g
      rw [hd]
      exact hg.child hm hm' hm.nested.isOpen_root hw

end Widens

theorem widens_rules : Rules Widens where
  give a := ⟨keeps_rules.give a,fun _ _ _ _ _ _ hw => .ok hw⟩
  stop := ⟨keeps_rules.stop,fun _ _ _ _ _ _ hw => .error hw⟩
  fail h := ⟨keeps_rules.fail h,fun _ _ _ _ _ _ hw => .error hw⟩
  seq hx hk := .seq hx hk
  widen hx h := ⟨keeps_rules.widen hx.keeps h,hx.widened⟩
  look x := ⟨keeps_rules.look x,fun _ _ scope _ _ _ hw => .lookupVariable hw scope x⟩
  define x v mutable := ⟨keeps_rules.define x v mutable,fun _ _ scope _ _ _ hw =>
    .updateEnvironment (hw.environment.updateFrame_agree scope fun _ _ h => h.defineVariable _) hw⟩
  assign x index v := ⟨keeps_rules.assign x index v,fun _ _ scope _ _ _ hw =>
    .assign hw scope x index v⟩
  print vs := ⟨keeps_rules.print vs,fun _ _ _ _ _ _ hw => .print hw vs⟩
  child hb := ⟨keeps_rules.child hb.keeps,fun _ _ _ hm hm' ho hw => hb.child hm hm' ho hw⟩
  called f arity _ _ hp hd hb :=
    ⟨keeps_rules.called f arity hp.keeps hd fun g => (hb g).imp fun _ h => h.keeps,
      fun m m' scope hm hm' ho hw =>
        Widens.called hm hm' ho hw f arity (hp.widened m m' scope hm hm' ho hw) hd hb⟩

end Run
end BlockScript
