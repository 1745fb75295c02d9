import BlockScript.Execution.Evaluate
import BlockScript.Proofs.Scopes.Growth
/-! The states that steps of a machine lead to, and how their scopes lie. -/
namespace BlockScript

/-- The scope in which the body of a function stands. -/
def Callable.home : Callable → Nat
  | print => Environment.root
  | declared _ scope => scope

/-- Names from outside: each variable once, and functions of the root scope. -/
structure Frame.Rooted (f : Frame Value Callable) : Prop where
  names : (f.bindings.map (·.name)).Nodup
  homes : ∀ e ∈ f.functions, e.value.home = Environment.root

/-- The scope at a position. Only the root has functions, and it alone has no parent. -/
structure Scope.Placed (i : Nat) (s : Scope Value Callable) : Prop where
  names : (s.frame.bindings.map (·.name)).Nodup
  functions : ∀ e ∈ s.frame.functions, i = Environment.root ∧ e.value.home = Environment.root
  parent : ∀ p, s.parent = some p → p < i
  orphan : s.parent = none → i = Environment.root

/-- Nested scopes: each stands after its parent, and all inside of the root. -/
structure Environment.Nested (env : Environment Value Callable) : Prop where
  depth : 0 < env.depth
  placed : ∀ (i : Nat) (s : Scope Value Callable), env.scopes[i]? = some s → s.Placed i

namespace Environment.Nested
variable {env : Environment Value Callable} {scope : Nat}

lemma isOpen_root (h : env.Nested) : env.isOpen root = true := isOpen_iff.mpr h.depth

lemma ofRoot {f : Frame Value Callable} (hf : f.Rooted) : (ofRoot f).Nested := by
  refine ⟨Nat.zero_lt_one,fun i s h => ?_⟩
  cases i with
  | zero =>
    obtain rfl := Option.some.inj h
    exact ⟨hf.names,fun e he => ⟨rfl,hf.homes e he⟩,by simp,fun _ => rfl⟩
  | succ i => cases h

lemma inner (h : env.Nested) (ho : env.isOpen scope) : (env.inner scope).Nested := by
  have ho := isOpen_iff.mp ho
  refine ⟨by simp [Environment.inner,Environment.depth],fun i s hs => ?_⟩
  simp only [Environment.inner,List.getElem?_append] at hs
  split at hs
  · exact h.placed i s hs
  · next hi =>
    obtain rfl := List.mem_singleton.mp (List.mem_of_getElem? hs)
    refine ⟨List.nodup_nil,by simp [Frame.empty],?_,by simp⟩
    rintro p ⟨⟩
    omega

lemma pop (h : env.Nested) (scope : Nat) : (env.pop scope).Nested := by
  constructor
  · have := h.depth
    simp only [Environment.depth,Environment.pop,List.length_take] at this ⊢
    omega
  · intro i s hs
    simp only [Environment.pop,List.getElem?_take] at hs
    split at hs
    · exact h.placed i s hs
    · cases hs

lemma setFrame (h : env.Nested) {f : Frame Value Callable}
    (hf : ∀ s, env.scopes[scope]? = some s → Scope.Placed scope { s with frame := f }) :
    (env.setFrame scope f).Nested := by
  refine ⟨by simpa [Environment.setFrame,Environment.depth] using h.depth,fun i s hs => ?_⟩
  simp only [Environment.setFrame,List.getElem?_modify] at hs
  obtain ⟨t,ht,rfl⟩ := Option.map_eq_some_iff.mp hs
  split
  · next hi =>
    subst hi
    exact hf t ht
  · exact h.placed i t ht

end Environment.Nested

namespace Environment
variable {α β : Type} {env env' : Environment α β} {scope : Nat}

lemma updateFrame_eq_ok {change : Frame α β → Except NameError (Frame α β)} :
    env.updateFrame scope change = .ok env' ↔ ∃ s f, env.scopes[scope]? = some s ∧
      change s.frame = .ok f ∧ env' = env.setFrame scope f := by
  unfold updateFrame
  cases env.scopes[scope]? with
  | none => simp
  | some s =>
    rw [exists_comm]
    cases h : change s.frame <;> simp [h,Except.map,eq_comm]

lemma defineVariable_eq_ok {b : Binding α} :
    env.defineVariable scope b = .ok env' ↔ ∃ s, env.scopes[scope]? = some s ∧
      s.frame.findVariable b.name = none ∧
      env' = env.setFrame scope { s.frame with bindings := b :: s.frame.bindings } := by
  rw [defineVariable,updateFrame_eq_ok]
  refine exists_congr fun s => ?_
  unfold Frame.defineVariable
  cases s.frame.findVariable b.name <;> simp

lemma defineFunction_eq_ok {f : String} {arity : Nat} {c : β} :
    env.defineFunction scope f arity c = .ok env' ↔ ∃ s, env.scopes[scope]? = some s ∧
      s.frame.findFunction f arity = none ∧
      env' = env.setFrame scope { s.frame with functions := ⟨f,arity,c⟩ :: s.frame.functions } := by
  rw [defineFunction,updateFrame_eq_ok]
  refine exists_congr fun s => ?_
  unfold Frame.defineFunction
  cases s.frame.findFunction f arity <;> simp

/-- A value is written to the scope in which the name is found. -/
lemma writeVariable_eq_ok {x : String} {v : α} :
    env.writeVariable scope x v = .ok env' ↔ ∃ owner b s,
      env.search (·.findVariable x) scope = some (owner,b) ∧ env.scopes[owner]? = some s ∧
      env' = env.setFrame owner (s.frame.writeVariable x v) := by
  unfold writeVariable
  cases h : env.lookup scope (·.findVariable x) (.undefinedVariable x) with
  | error e =>
    have hn : env.search (·.findVariable x) scope = none := by
      cases hs : env.search (·.findVariable x) scope with
      | none => rfl
      | some hit => rw [lookup_eq_ok.mpr hs] at h; cases h
    simp [hn,bind,Except.bind]
  | ok hit =>
    obtain ⟨owner,b⟩ := hit
    rw [lookup_eq_ok.mp h]
    change env.updateFrame owner (fun f => .ok (f.writeVariable x v)) = .ok env' ↔ _
    rw [updateFrame_eq_ok]
    simp

/-- The scope that is written to holds the variable that is found. -/
lemma writeVariable_of_lookup {x : String} {b : Binding α} {v : α}
    (hb : env.lookupVariable scope x = .ok b) (hw : env.writeVariable scope x v = .ok env') :
    ∃ owner s, env.scopes[owner]? = some s ∧ s.frame.findVariable x = some b ∧
      env' = env.setFrame owner (s.frame.writeVariable x v) := by
  obtain ⟨owner,b',s,hs,hso,rfl⟩ := writeVariable_eq_ok.mp hw
  have hbb : b' = b := by
    have := search_eq_chain env (·.findVariable x) scope
    rw [hs,lookupVariable_eq_ok.mp hb] at this
    exact Option.some.inj this
  obtain ⟨t,ht,hf⟩ := search_eq_some hs
  obtain rfl := Option.some.inj (hso.symm.trans ht)
  exact ⟨owner,s,hso,hbb ▸ hf,rfl⟩

end Environment

/-- Writing the value back that a variable has changes no scope. -/
lemma Environment.Nested.writeVariable_self {env : Environment Value Callable} (h : env.Nested)
    {scope : Nat} {x : String} {b : Binding Value} (hb : env.lookupVariable scope x = .ok b) :
    env.writeVariable scope x b.value = .ok env := by
  rw [lookupVariable_eq_ok,← search_eq_chain] at hb
  obtain ⟨⟨owner,_⟩,hs,rfl⟩ := Option.map_eq_some_iff.mp hb
  obtain ⟨s,hso,hf⟩ := search_eq_some hs
  refine writeVariable_eq_ok.mpr ⟨owner,_,s,hs,hso,?_⟩
  rw [Frame.writeVariable_self (h.placed owner s hso).names hf,setFrame_eq_self hso]

/-- The states of a machine from its start on: between any two of its steps, in any run of any
program. -/
inductive Machine.Reachable : Machine → Prop
  | start {prelude sink} (h : prelude.Rooted) : Reachable (.new prelude sink)
  | reset {m : Machine} (h : Reachable m) : Reachable { m with environment := .ofRoot m.prelude }
  | opened {m : Machine} {scope} (h : Reachable m) (ho : m.environment.isOpen scope) :
      Reachable { m with environment := m.environment.inner scope }
  | closed {m : Machine} (h : Reachable m) (scope : Nat) :
      Reachable { m with environment := m.environment.pop scope }
  | defined {m : Machine} {scope b env} (h : Reachable m)
      (hd : m.environment.defineVariable scope b = .ok env) : Reachable { m with environment := env }
  | declared {m : Machine} {f : Function} {env} (h : Reachable m)
      (hd : m.environment.defineFunction Environment.root f.name f.arity
        (.declared f Environment.root) = .ok env) : Reachable { m with environment := env }
  | written {m : Machine} {scope x v env} (h : Reachable m)
      (hw : m.environment.writeVariable scope x v = .ok env) : Reachable { m with environment := env }
  | printed {m : Machine} {sink} (h : Reachable m) : Reachable { m with sink := sink }

namespace Machine.Reachable
variable {m : Machine}

lemma prelude_rooted (h : m.Reachable) : m.prelude.Rooted := by
  induction h with
  | start h => exact h
  | _ => assumption

theorem nested (h : m.Reachable) : m.environment.Nested := by
  induction h with
  | start h => exact .ofRoot h
  | reset h => exact .ofRoot h.prelude_rooted
  | opened _ ho ih => exact ih.inner ho
  | closed _ scope ih => exact ih.pop scope
  | printed _ ih => exact ih
  | defined _ hd ih =>
    obtain ⟨s,hs,hn,rfl⟩ := Environment.defineVariable_eq_ok.mp hd
    refine ih.setFrame fun t ht => ?_
    obtain rfl := Option.some.inj (hs.symm.trans ht)
    obtain ⟨hnames,hf,hp,ho⟩ := ih.placed _ s hs
    refine ⟨?_,hf,hp,ho⟩
    rw [List.map_cons,List.nodup_cons]
    refine ⟨fun hm => ?_,hnames⟩
    obtain ⟨c,hc,hcn⟩ := List.mem_map.mp hm
    exact List.find?_eq_none.mp hn c hc (beq_iff_eq.mpr hcn)
  | declared _ hd ih =>
    obtain ⟨s,hs,_,rfl⟩ := Environment.defineFunction_eq_ok.mp hd
    refine ih.setFrame fun t ht => ?_
    obtain rfl := Option.some.inj (hs.symm.trans ht)
    obtain ⟨hnames,hf,hp,ho⟩ := ih.placed _ s hs
    exact ⟨hnames,List.forall_mem_cons.mpr ⟨⟨rfl,rfl⟩,hf⟩,hp,ho⟩
  | @written _ _ x v _ _ hw ih =>
    obtain ⟨owner,b,s,_,hs,rfl⟩ := Environment.writeVariable_eq_ok.mp hw
    refine ih.setFrame fun t ht => ?_
    obtain rfl := Option.some.inj (hs.symm.trans ht)
    obtain ⟨hnames,hf,hp,ho⟩ := ih.placed _ s hs
    refine ⟨?_,hf,hp,ho⟩
    have hn : (s.frame.writeVariable x v).bindings.map (·.name) = s.frame.bindings.map (·.name) := by
      simp only [Frame.writeVariable,List.map_map]
      refine List.map_congr_left fun b _ => ?_
      simp only [Function.comp_apply]
      split <;> rfl
    rw [hn]
    exact hnames

end Machine.Reachable
end BlockScript
