import BlockScript.Proofs.Execution.Reachable
/-! The order of the scopes under every sequence of changes: each stands after its parent. So a lookup
visits open scopes only and ends, and what is closed was in sight of nothing that stays open. -/
namespace BlockScript

namespace Environment
variable {α β γ : Type}

/-- Something that scopes are asked for. -/
inductive Change (α β : Type) where
  | push (parent : Nat)
  | pop (scope : Nat)
  | defineVariable (scope : Nat) (b : Binding α)
  | defineFunction (scope : Nat) (name : String) (arity : Nat) (value : β)
  | defineNative (name : String) (arity : Nat) (value : β)
  | writeVariable (scope : Nat) (name : String) (value : α)

namespace Change

/-- The scope that a change is made from; built-in functions are defined in the root. -/
def scope : Change α β → Nat
  | push i | pop i | defineVariable i _ | defineFunction i _ _ _ | writeVariable i _ _ => i
  | defineNative _ _ _ => root

def perform (env : Environment α β) : Change α β → Except NameError (Environment α β)
  | push parent => (env.push parent).map (·.2)
  | pop scope => .ok (env.pop scope)
  | defineVariable scope b => env.defineVariable scope b
  | defineFunction scope f arity c => env.defineFunction scope f arity c
  | defineNative f arity c => .ok (env.defineNative f arity c)
  | writeVariable scope x v => env.writeVariable scope x v

/-- The scopes after a change; one that is refused leaves them as they are. -/
def after (env : Environment α β) (c : Change α β) : Environment α β :=
  match c.perform env with
  | .ok env' => env'
  | .error _ => env

end Change

/-- The scopes that changes lead to from the root alone, each made from a scope that is open then. -/
inductive Reachable : Environment α β → Prop
  | empty : Reachable .empty
  | change {env} (h : Reachable env) (c : Change α β) (ho : env.isOpen c.scope = true) :
    Reachable (c.after env)

/-- The root is there and has no parent, and every other scope stands after its own. -/
structure Ordered (env : Environment α β) : Prop where
  root : ∃ s, env.scopes[Environment.root]? = some s ∧ s.parent = none
  parent : ∀ (i : Nat) (s : Scope α β), env.scopes[i]? = some s → i ≠ Environment.root →
    ∃ p, s.parent = some p ∧ p < i

namespace Ordered
variable {env env' : Environment α β} {scope : Nat}

lemma isOpen_root (h : env.Ordered) : env.isOpen Environment.root = true := by
  obtain ⟨s,hs,_⟩ := h.root
  exact isOpen_iff.mpr (List.getElem?_eq_some_iff.mp hs).1

lemma parent_lt (h : env.Ordered) {s : Scope α β} {p : Nat} (hs : env.scopes[scope]? = some s)
    (hp : s.parent = some p) : p < scope := by
  obtain ⟨r,hr,hnone⟩ := h.root
  by_cases hi : scope = Environment.root
  · subst hi
    obtain rfl := Option.some.inj (hs.symm.trans hr)
    rw [hp] at hnone
    cases hnone
  · obtain ⟨q,hq,hlt⟩ := h.parent scope s hs hi
    obtain rfl := Option.some.inj (hp.symm.trans hq)
    exact hlt

lemma empty : (Environment.empty : Environment α β).Ordered := by
  refine ⟨⟨_,rfl,rfl⟩,fun i s hs hi => ?_⟩
  cases i with
  | zero => exact absurd rfl hi
  | succ i => cases hs

/-- The order is one of the parents alone. -/
lemma of_parents (h : env.Ordered)
    (hp : ∀ i : Nat, env'.scopes[i]?.map Scope.parent = env.scopes[i]?.map Scope.parent) :
    env'.Ordered := by
  have hback {i : Nat} {s' : Scope α β} (hs : env'.scopes[i]? = some s') :
      ∃ s, env.scopes[i]? = some s ∧ s.parent = s'.parent := by
    have hi := hp i
    rw [hs,Option.map_some] at hi
    exact Option.map_eq_some_iff.mp hi.symm
  constructor
  · obtain ⟨r,hr,hnone⟩ := h.root
    have hi := hp Environment.root
    rw [hr,Option.map_some,hnone] at hi
    exact Option.map_eq_some_iff.mp hi
  · intro i s' hs hi
    obtain ⟨s,hs,hparent⟩ := hback hs
    rw [← hparent]
    exact h.parent i s hs hi

lemma modify (h : env.Ordered) (scope : Nat) (f : Scope α β → Frame α β) :
    Ordered ⟨env.scopes.modify scope fun s => { s with frame := f s }⟩ := by
  refine h.of_parents fun i => ?_
  simp only [List.getElem?_modify]
  split <;> cases env.scopes[i]? <;> rfl

lemma inner (h : env.Ordered) (ho : env.isOpen scope = true) : (env.inner scope).Ordered := by
  have hlt := isOpen_iff.mp ho
  obtain ⟨r,hr,hnone⟩ := h.root
  refine ⟨⟨r,?_,hnone⟩,fun i s hs hi => ?_⟩
  · rw [Environment.inner,List.getElem?_append_left (List.getElem?_eq_some_iff.mp hr).1]
    exact hr
  · simp only [Environment.inner,List.getElem?_append] at hs
    split at hs
    · exact h.parent i s hs hi
    · obtain rfl := List.mem_singleton.mp (List.mem_of_getElem? hs)
      exact ⟨scope,rfl,by omega⟩

lemma getElem?_pop (env : Environment α β) (scope i : Nat) :
    (env.pop scope).scopes[i]? = if i < max scope 1 then env.scopes[i]? else none :=
  List.getElem?_take

lemma pop (h : env.Ordered) (scope : Nat) : (env.pop scope).Ordered := by
  obtain ⟨r,hr,hnone⟩ := h.root
  refine ⟨⟨r,?_,hnone⟩,fun i s hs hi => ?_⟩
  · have hlt : Environment.root < max scope 1 := Nat.lt_of_lt_of_le Nat.one_pos (Nat.le_max_right scope 1)
    rw [getElem?_pop,if_pos hlt]
    exact hr
  · rw [getElem?_pop] at hs
    split at hs
    · exact h.parent i s hs hi
    · cases hs

/-- Every change keeps the order. -/
theorem after (h : env.Ordered) (c : Change α β) (ho : env.isOpen c.scope = true) :
    (c.after env).Ordered := by
  unfold Change.after
  cases hc : c.perform env with
  | error e => exact h
  | ok env' =>
    cases c with
    | push parent =>
      have ho : env.isOpen parent = true := ho
      rw [Change.perform,push_eq_ok ho] at hc
      cases hc
      exact h.inner ho
    | pop scope =>
      cases hc
      exact h.pop scope
    | defineVariable scope b =>
      obtain ⟨s,_,_,rfl⟩ := defineVariable_eq_ok.mp hc
      exact h.modify scope _
    | defineFunction scope f arity c =>
      obtain ⟨s,_,_,rfl⟩ := defineFunction_eq_ok.mp hc
      exact h.modify scope _
    | defineNative f arity c =>
      cases hc
      exact h.modify Environment.root _
    | writeVariable scope x v =>
      obtain ⟨owner,b,s,_,_,rfl⟩ := writeVariable_eq_ok.mp hc
      exact h.modify owner _

end Ordered

/-- Every sequence of changes keeps the order. -/
theorem Reachable.ordered {env : Environment α β} (h : env.Reachable) : env.Ordered := by
  induction h with
  | empty => exact .empty
  | change _ c ho ih => exact ih.after c ho

lemma exists_scope {env : Environment α β} {scope : Nat} (ho : env.isOpen scope = true) :
    ∃ s, env.scopes[scope]? = some s := ⟨_,List.getElem?_eq_getElem (isOpen_iff.mp ho)⟩

/-! ### Walks -/

/-- A search that no bound stops: it visits a scope, which has to be open, and goes on with the parent
as long as nothing is found. -/
inductive Walk (env : Environment α β) (found : Frame α β → Option γ) :
    Nat → List Nat → Option (Nat × γ) → Prop
  | here {i s x} (hs : env.scopes[i]? = some s) (hx : found s.frame = some x) :
    Walk env found i [i] (some (i,x))
  | top {i s} (hs : env.scopes[i]? = some s) (hn : found s.frame = none) (hp : s.parent = none) :
    Walk env found i [i] none
  | outward {i s p visited hit} (hs : env.scopes[i]? = some s) (hn : found s.frame = none)
    (hp : s.parent = some p) (h : Walk env found p visited hit) :
    Walk env found i (i :: visited) hit

lemma Walk.isOpen {env : Environment α β} {found : Frame α β → Option γ} {scope : Nat}
    {visited : List Nat} {hit : Option (Nat × γ)} (h : env.Walk found scope visited hit) :
    ∀ i ∈ visited, env.isOpen i = true := by
  induction h with
  | here hs _ | top hs _ _ =>
    exact List.forall_mem_singleton.mpr (isOpen_iff.mpr (List.getElem?_eq_some_iff.mp hs).1)
  | outward hs _ _ _ ih =>
    exact List.forall_mem_cons.mpr ⟨isOpen_iff.mpr (List.getElem?_eq_some_iff.mp hs).1,ih⟩

/-- A search from an open scope is a walk: the order of the scopes is all that bounds it. -/
theorem Ordered.walk {env : Environment α β} (h : env.Ordered) (found : Frame α β → Option γ)
    {scope : Nat} (ho : env.isOpen scope = true) :
    ∃ visited, env.Walk found scope visited (env.search found scope) := by
  induction scope using Nat.strongRecOn with
  | ind scope ih =>
    obtain ⟨s,hs⟩ := exists_scope ho
    rw [search]
    simp only [hs]
    cases hx : found s.frame with
    | some x => exact ⟨[scope],.here hs hx⟩
    | none =>
      cases hp : s.parent with
      | none => exact ⟨[scope],.top hs hx hp⟩
      | some p =>
        have hlt := h.parent_lt hs hp
        have hopen : env.isOpen p = true := by
          rw [isOpen_iff] at ho ⊢
          omega
        obtain ⟨visited,hw⟩ := ih p hlt hopen
        refine ⟨scope :: visited,.outward hs hx hp ?_⟩
        simpa only [hlt,↓reduceIte] using hw

/-! ### Lookups from one scope and from another -/

/-- Every variable and every function is looked up from one scope with the result, a meaning or an
error, that it has from another. -/
structure SameNames (env env' : Environment α β) (i j : Nat) : Prop where
  lookupVariable : ∀ x, env'.lookupVariable j x = env.lookupVariable i x
  lookupFunction : ∀ f arity, env'.lookupFunction j f arity = env.lookupFunction i f arity

/-- Frames in sight that say the same under every key. -/
lemma SameNames.of_chain {env env' : Environment α β} {i j : Nat} (hi : env.isOpen i = true)
    (hj : env'.isOpen j = true)
    (hc : ∀ {γ : Type} (found : Frame α β → Option γ), found .empty = none →
      (env'.chain j).findSome? found = (env.chain i).findSome? found) : SameNames env env' i j := by
  constructor
  · intro x
    rw [Environment.lookupVariable,Environment.lookupVariable,lookup_eq_chain hi,lookup_eq_chain hj,hc _ rfl]
  · intro f arity
    rw [Environment.lookupFunction,Environment.lookupFunction,lookup_eq_chain hi,lookup_eq_chain hj,hc _ rfl]

lemma isOpen_pop {env : Environment α β} (h : env.Ordered) {scope : Nat}
    (ho : env.isOpen scope = true) (i : Nat) :
    (env.pop scope).isOpen i = true ↔ i < scope ∨ i = root := by
  have hr := isOpen_iff.mp h.isOpen_root
  have hs := isOpen_iff.mp ho
  simp only [isOpen_iff,pop,List.length_take,root] at hr ⊢
  omega

lemma isOpen_inner {env : Environment α β} (parent i : Nat) :
    (env.inner parent).isOpen i = true ↔ env.isOpen i = true ∨ i = env.depth := by
  simp only [isOpen_iff,inner,List.length_append,List.length_singleton,depth]
  omega

lemma sameNames_pop {env : Environment α β} {scope i : Nat} (ho : env.isOpen i = true)
    (hi : (env.pop scope).isOpen i = true) : SameNames env (env.pop scope) i i := by
  refine .of_chain ho hi fun found _ => congrArg (List.findSome? found) ?_
  refine chain_congr i fun j hj => ?_
  have hlt : i < max scope 1 := by
    have := isOpen_iff.mp hi
    simp only [pop,List.length_take] at this
    omega
  rw [Ordered.getElem?_pop,if_pos (by omega)]

lemma sameNames_inner {env : Environment α β} {parent i : Nat} (ho : env.isOpen i = true) :
    SameNames env (env.inner parent) i i :=
  .of_chain ho ((isOpen_inner parent i).mpr (.inl ho)) fun _ _ => by
    rw [chain_inner_of_isOpen ho]

lemma sameNames_inner_depth {env : Environment α β} {parent : Nat} (ho : env.isOpen parent = true) :
    SameNames env (env.inner parent) parent env.depth :=
  .of_chain ho ((isOpen_inner parent _).mpr (.inr rfl)) fun _ hn => by
    rw [chain_inner_depth ho,List.findSome?_cons_of_isNone (Option.isNone_iff_eq_none.mpr hn)]

/-- After any sequence of changes every scope but the root, which has no parent, stands after its
parent. So a lookup from an open scope is a walk through open scopes that ends. Closing a scope closes
those opened after it, opening one only adds it, and neither changes what is looked up from a scope
that stays open; from a new scope everything is looked up as from its parent. -/
theorem reachable_keep_lookups {env : Environment α β} (h : env.Reachable) :
    env.Ordered ∧
    (∀ scope, env.isOpen scope = true → ∀ (γ : Type) (found : Frame α β → Option γ) (missing : NameError),
      ∃ visited hit, env.Walk found scope visited hit ∧ (∀ i ∈ visited, env.isOpen i = true) ∧
        env.lookup scope found missing = hit.elim (.error missing) .ok) ∧
    (∀ scope, env.isOpen scope = true →
      (∀ i, (env.pop scope).isOpen i = true ↔ i < scope ∨ i = root) ∧
      ∀ i, (env.pop scope).isOpen i = true → SameNames env (env.pop scope) i i) ∧
    ∀ parent, env.isOpen parent = true → ∃ env', env.push parent = .ok (env.depth,env') ∧
      (∀ i, env'.isOpen i = true ↔ env.isOpen i = true ∨ i = env.depth) ∧
      (∀ i, env.isOpen i = true → SameNames env env' i i) ∧
      SameNames env env' parent env.depth := by
  have hord := h.ordered
  refine ⟨hord,fun scope ho γ found missing => ?_,fun scope ho => ?_,fun parent ho => ?_⟩
  · obtain ⟨visited,hw⟩ := hord.walk found ho
    refine ⟨visited,_,hw,hw.isOpen,?_⟩
    rw [lookup,if_pos ho]
    cases env.search found scope <;> rfl
  · refine ⟨isOpen_pop hord ho,fun i hi => sameNames_pop ?_ hi⟩
    have hr := isOpen_iff.mp hord.isOpen_root
    have hs := isOpen_iff.mp ho
    rw [isOpen_iff]
    rcases (isOpen_pop hord ho i).mp hi with hlt | rfl
    · omega
    · exact hr
  · exact ⟨_,push_eq_ok ho,isOpen_inner parent,fun i hi => sameNames_inner hi,
      sameNames_inner_depth ho⟩

/-- A name of the root that a child hides, and the child closed again. -/
theorem reachable_keep_lookups_hidden :
    let env : Environment Nat Nat := Change.after (Change.after (Change.after .empty
      (.defineVariable root ⟨"x",1,true⟩)) (.push root)) (.defineVariable 1 ⟨"x",2,false⟩)
    env.Reachable ∧ env.isOpen 1 = true ∧ env.lookupVariable 1 "x" = .ok ⟨"x",2,false⟩ ∧
      SameNames env (env.pop 1) root root ∧ (env.pop 1).isOpen 1 = false ∧
      (env.pop 1).lookupVariable root "x" = .ok ⟨"x",1,true⟩ := by
  intro env
  have h : env.Reachable := ((Reachable.empty.change _ rfl).change _ rfl).change _ rfl
  have hroot := ((reachable_keep_lookups h).2.2.1 1 (by decide)).2 root (by decide)
  exact ⟨h,rfl,by decide +kernel,hroot,rfl,by decide +kernel⟩

end Environment
end BlockScript
