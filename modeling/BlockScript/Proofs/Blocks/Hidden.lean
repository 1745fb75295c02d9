import BlockScript.Proofs.Blocks.Same
import BlockScript.Proofs.Isolation.Calls
import BlockScript.Proofs.Scopes.Insert
/-! Code that does not name the variables of a scope does the same with that scope around it and without
it, and leaves it as it is. -/
namespace BlockScript

/-- The machine with one more scope inside of a given one, around those from a position on. -/
def Machine.insert (m : Machine) (d parent : Nat) (hidden : Frame Value Callable) : Machine :=
  { m with environment := m.environment.insert d parent hidden }

lemma Machine.insert_depth (m : Machine) (parent : Nat) :
    m.insert m.environment.depth parent .empty =
      { m with environment := m.environment.inner parent } := by
  rw [Environment.inner_eq_insert]
  rfl

namespace Run
open Environment (redirect)
variable {α β : Type} {xs ys : List String} {hidden : Frame Value Callable}

/-- A result with one more scope in the machine. -/
def inserted (d parent : Nat) (hidden : Frame Value Callable) :
    EStateM.Result Halt Machine α → EStateM.Result Halt Machine α
  | .ok a m => .ok a (m.insert d parent hidden)
  | .error e m => .error e (m.insert d parent hidden)

/-- What runs in a scope does the same when one more scope stands around it, and leaves that alone. What
adds names must run inside of the scopes that the new one is around: else the new one would get the
names. -/
structure Blind (hidden : Frame Value Callable) (names : List String) (x : Nat → Run α) : Prop where
  keeps : Keeps names x
  commutes : ∀ m scope d parent, m.Reachable → m.environment.isOpen scope →
    m.environment.Splits d parent → scope = parent ∧ names = [] ∨ d ≤ scope →
    x (redirect d scope) (m.insert d parent hidden) = inserted d parent hidden (x scope m)

namespace Blind

lemma seq {x : Nat → Run α} {k : α → Nat → Run β} (hx : Blind hidden xs x)
    (hk : ∀ a, Blind hidden ys (k a)) :
    Blind hidden (xs ++ ys) fun scope => x scope >>= fun a => k a scope := by
  refine ⟨keeps_rules.seq hx.keeps fun a => (hk a).keeps,fun m scope d parent hm ho hd hs => ?_⟩
  have hsx : scope = parent ∧ xs = [] ∨ d ≤ scope :=
    hs.imp_left fun h => ⟨h.1,(List.append_eq_nil_iff.mp h.2).1⟩
  have hsy : scope = parent ∧ ys = [] ∨ d ≤ scope :=
    hs.imp_left fun h => ⟨h.1,(List.append_eq_nil_iff.mp h.2).2⟩
  have hc := hx.commutes m scope d parent hm ho hd hsx
  obtain ⟨hg,hr,_⟩ := hx.keeps m scope hm ho
  cases h : x scope m with
  | ok a m' =>
    rw [h] at hc hg hr
    rw [bind_ok h,bind_ok hc]
    exact (hk a).commutes m' scope d parent hr ((hg.isOpen scope).trans ho) (hd.grows hg) hsy
  | error e m' =>
    rw [h] at hc
    rw [bind_error h,bind_error hc]
    rfl

variable {m : Machine} {scope d parent : Nat}

lemma update {change change' : Environment Value Callable →
      Except NameError (Environment Value Callable)}
    (h : change' (m.environment.insert d parent hidden) =
      (change m.environment).map (·.insert d parent hidden)) :
    updateEnvironment change' (m.insert d parent hidden) =
      inserted d parent hidden (updateEnvironment change m) := by
  cases hc : change m.environment with
  | error e =>
    rw [hc] at h
    have h' : change' (m.insert d parent hidden).environment = .error e := h
    rw [updateEnvironment_error hc,updateEnvironment_error h']
    rfl
  | ok env =>
    rw [hc] at h
    have h' : change' (m.insert d parent hidden).environment = .ok (env.insert d parent hidden) := h
    rw [updateEnvironment_ok hc,updateEnvironment_ok h']
    rfl

variable (hd : m.environment.Splits d parent) (ho : m.environment.isOpen scope)
include hd ho

lemma lookupVariable {x : String} (hx : hidden.findVariable x = none)
    (hs : scope = parent ∨ d ≤ scope) :
    Run.lookupVariable (redirect d scope) x (m.insert d parent hidden) =
      inserted d parent hidden (Run.lookupVariable scope x m) := by
  have hl : (m.insert d parent hidden).environment.lookupVariable (redirect d scope) x =
      m.environment.lookupVariable scope x := Environment.lookupVariable_insert hd hx hs ho
  cases h : m.environment.lookupVariable scope x with
  | error e =>
    rw [lookupVariable_error h,lookupVariable_error (hl.trans h)]
    rfl
  | ok b =>
    rw [lookupVariable_ok h,lookupVariable_ok (hl.trans h)]
    rfl

lemma assign {x : String} (hx : hidden.findVariable x = none) (hs : scope = parent ∨ d ≤ scope)
    (index : Option Value) (v : Value) :
    Run.assign (redirect d scope) x index v (m.insert d parent hidden) =
      inserted d parent hidden (Run.assign scope x index v m) := by
  have hw (v : Value) : updateEnvironment (·.writeVariable (redirect d scope) x v)
      (m.insert d parent hidden) =
        inserted d parent hidden (updateEnvironment (·.writeVariable scope x v) m) :=
    update (Environment.writeVariable_insert hd hx hs ho v)
  have hl := lookupVariable hd ho hx hs
  unfold Run.assign
  cases hb : m.environment.lookupVariable scope x with
  | error e =>
    rw [lookupVariable_error hb] at hl
    rw [bind_error (lookupVariable_error hb),bind_error hl]
    rfl
  | ok b =>
    rw [lookupVariable_ok hb] at hl
    rw [bind_ok (lookupVariable_ok hb),bind_ok hl]
    split
    · cases index with
      | none => exact hw v
      | some i =>
        dsimp only
        cases b.value.setElement i v with
        | ok new => exact hw new
        | error e => rfl
    · rfl

/-- A child is opened inside of the scopes that the new one is around, and is closed again. -/
lemma child (hm : m.Reachable) (hs : scope = parent ∨ d ≤ scope) {body : Nat → Run α}
    (hb : Blind hidden xs body) : inChild (redirect d scope) body (m.insert d parent hidden) =
      inserted d parent hidden (inChild scope body m) := by
  have ho' : (m.insert d parent hidden).environment.isOpen (redirect d scope) = true :=
    (Environment.isOpen_insert hd scope).trans ho
  have hin : (m.environment.inner scope).isOpen m.environment.depth = true :=
    Environment.isOpen_inner_depth _ _
  have hle : d ≤ m.environment.depth := hd.le_depth
  have hdepth : (m.insert d parent hidden).environment.depth = redirect d m.environment.depth := by
    rw [Environment.redirect_of_le hle,Environment.raise_of_le hle]
    exact Environment.depth_insert hle
  have hinner : (m.insert d parent hidden).environment.inner (redirect d scope) =
      (m.environment.inner scope).insert d parent hidden := Environment.inner_insert hle scope
  have hkeeps := hb.keeps { m with environment := m.environment.inner scope } _ (hm.opened ho) hin
  have hbody : body (redirect d m.environment.depth) { m.insert d parent hidden with
      environment := (m.environment.inner scope).insert d parent hidden } = _ :=
    hb.commutes { m with environment := m.environment.inner scope } _ d parent (hm.opened ho) hin
      (hd.inner hs) (.inr hle)
  have hsplits := (hd.inner hs).grows hkeeps.grows
  rw [inChild_eq ho,inChild_eq ho',hdepth,hinner,hbody,Environment.redirect_of_le hle,
    Environment.raise_of_le hle]
  generalize body _ _ = r at hsplits ⊢
  cases r with
  | ok a n =>
    exact congrArg (fun env => EStateM.Result.ok a { n with environment := env })
      (Environment.pop_insert hsplits hle)
  | error e n =>
    exact congrArg (fun env => EStateM.Result.error e { n with environment := env })
      (Environment.pop_insert hsplits hle)

end Blind

/-- Everything but calls, where the new scope does not have the variables that are named. -/
theorem blind_steps (hidden : Frame Value Callable) :
    Steps (fun x => hidden.findVariable x = none) (Blind hidden) where
  give a := ⟨keeps_rules.give a,fun _ _ _ _ _ _ _ _ => rfl⟩
  stop := ⟨keeps_rules.stop,fun _ _ _ _ _ _ _ _ => rfl⟩
  fail h := ⟨keeps_rules.fail h,fun _ _ _ _ _ _ _ _ => rfl⟩
  seq hx hk := .seq hx hk
  widen hx h := by
    refine ⟨keeps_rules.widen hx.keeps h,fun m scope d parent hm ho hd hs => ?_⟩
    refine hx.commutes m scope d parent hm ho hd (hs.imp_left fun hp => ⟨hp.1,?_⟩)
    exact List.subperm_nil.mp (hp.2 ▸ h)
  look hx := ⟨keeps_rules.look _,fun _ _ _ _ _ ho hd hs =>
    Blind.lookupVariable hd ho hx (hs.imp_left And.left)⟩
  define x v mutable := by
    refine ⟨keeps_rules.define x v mutable,fun m scope d parent _ ho hd hs => ?_⟩
    have hle : d ≤ scope := hs.resolve_left fun h => List.cons_ne_nil _ _ h.2
    rw [Environment.redirect_of_le hle]
    exact Blind.update (Environment.updateFrame_insert hd.le_depth _ ho)
  assign hx index v := ⟨keeps_rules.assign _ index v,fun _ _ _ _ _ ho hd hs =>
    Blind.assign hd ho hx (hs.imp_left And.left) index v⟩
  child hb := ⟨keeps_rules.child hb.keeps,fun _ _ _ _ hm ho hd hs =>
    Blind.child hd ho hm (hs.imp_left And.left) hb⟩

/-- Calls see only the root, so they are blind to any scope without functions. -/
theorem blind_calls (hf : hidden.functions = []) (fuel : Nat) :
    Steps.Calls (Blind hidden) (Run.call fuel) := by
  intro f vs
  refine ⟨keeps_rules.calls fuel f vs,fun m scope d parent hm ho hd hs => ?_⟩
  have hlt : Environment.root < d := Nat.lt_of_le_of_lt (Nat.zero_le parent) hd.parent_lt
  -- both calls are made from the root
  have hlookup : (m.insert d parent hidden).environment.lookupFunction (redirect d scope) f vs.length =
      (m.insert d parent hidden).environment.lookupFunction Environment.root f vs.length :=
    (Environment.lookupFunction_insert hd hf (hs.imp_left And.left) ho f vs.length).trans
      ((hm.nested.lookupFunction_eq_root ho f vs.length).trans
        (Environment.lookupFunction_insert_of_lt hd.le_depth hlt f vs.length).symm)
  rw [call_congr hlookup,call_eq_root hm ho]
  -- and do the same under the scopes of both machines
  obtain ⟨s,hs,hcall⟩ := call_root hm fuel f vs
  generalize Run.call fuel Environment.root f vs { m with environment := _ } = r at hs hcall
  have hbare := hcall (m.environment.scopes.drop 1)
  have hmore := hcall ((m.environment.insert d parent hidden).scopes.drop 1)
  rw [List.take_append_drop] at hbare
  rw [← Environment.take_one_insert (f := hidden) hd,List.take_append_drop] at hmore
  have hunder : (left r).environment.under ((m.environment.insert d parent hidden).scopes.drop 1) =
      ((left r).environment.under (m.environment.scopes.drop 1)).insert d parent hidden := by
    simp only [hs,Environment.under_cons,List.map_nil,List.append_nil]
    exact (Environment.insert_cons_drop hd s).symm
  refine hmore.trans ((?_ : _ = inserted d parent hidden _).trans (congrArg _ hbare.symm))
  cases r with
  | ok v n => exact congrArg (fun env => EStateM.Result.ok v { n with environment := env }) hunder
  | error e n =>
    exact congrArg (fun env => EStateM.Result.error e { n with environment := env }) hunder

lemma closing_inserted {d parent : Nat} {r : EStateM.Result Halt Machine α}
    (h : (left r).environment.Splits d parent) (hd : (left r).environment.depth = d) :
    closing d (inserted d parent hidden r) = r := by
  cases r with
  | ok a m =>
    exact congrArg (fun env => EStateM.Result.ok a { m with environment := env })
      (Environment.pop_insert_self h hd)
  | error e m =>
    exact congrArg (fun env => EStateM.Result.error e { m with environment := env })
      (Environment.pop_insert_self h hd)

/-- What is done in a new child by code that is blind to it is done without the child. -/
lemma Blind.closing {x : Nat → Run α} (h : Blind hidden [] x) {m : Machine} {scope : Nat}
    (hm : m.Reachable) (ho : m.environment.isOpen scope) :
    Run.closing m.environment.depth
      (x m.environment.depth (m.insert m.environment.depth scope hidden)) = x scope m := by
  have hd := Environment.Splits.last ho
  have hc := h.commutes m scope _ _ hm ho hd (.inl ⟨rfl,rfl⟩)
  have hg := (h.keeps m scope hm ho).grows
  rw [redirect,if_pos hd.parent_lt] at hc
  rw [hc]
  exact closing_inserted (hd.grows hg) hg.depth_eq

/-- Code that declares nothing in its scope does the same in a child of the scope. -/
lemma Blind.inChild_eq_self {x : Nat → Run α} (h : Blind .empty [] x) {m : Machine} {scope : Nat}
    (hm : m.Reachable) (ho : m.environment.isOpen scope) : inChild scope x m = x scope m := by
  rw [inChild_eq ho,← Machine.insert_depth]
  exact h.closing hm ho

end Run
end BlockScript
