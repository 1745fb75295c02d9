import BlockScript.Environment
import Mathlib.Data.List.Basic
/-! The frames in sight of a scope, and what each change of the scopes does to them. -/
namespace BlockScript.Environment
variable {α β γ : Type}

/-- The frames from a scope out to the root, innermost first; a closed scope sees none. -/
def chain (env : Environment α β) (scope : Nat) : List (Frame α β) :=
  match env.scopes[scope]? with
  | none => []
  | some s =>
    match s.parent with
    | none => [s.frame]
    | some parent => if parent < scope then s.frame :: env.chain parent else [s.frame]
termination_by scope

/-- One more scope inside the given one, with no names yet. -/
def inner (env : Environment α β) (parent : Nat) : Environment α β :=
  ⟨env.scopes ++ [⟨some parent, .empty⟩]⟩

lemma isOpen_iff {env : Environment α β} {scope : Nat} :
    env.isOpen scope = true ↔ scope < env.scopes.length := by
  exact decide_eq_true_iff

lemma isOpen_eq_false {env : Environment α β} {scope : Nat} :
    env.isOpen scope = false ↔ env.scopes.length ≤ scope := by
  exact decide_eq_false_iff_not.trans Nat.not_lt

lemma push_eq_ok {env : Environment α β} {parent : Nat} (h : env.isOpen parent) :
    env.push parent = .ok (env.depth,env.inner parent) := by
  simp [push,h,inner]

lemma chain_eq_nil_iff {env : Environment α β} {scope : Nat} :
    env.chain scope = [] ↔ env.isOpen scope = false := by
  rw [chain]
  cases h : env.scopes[scope]? with
  | none => simpa [isOpen_eq_false] using h
  | some s =>
    have hlt := (List.getElem?_eq_some_iff.mp h).1
    have ho : env.isOpen scope = true := isOpen_iff.mpr hlt
    cases hp : s.parent with
    | none => simp [hp,ho]
    | some p => simp only [hp,ho]; split <;> simp

lemma isOpen_of_chain {env : Environment α β} {scope : Nat} {f : Frame α β} {fs : List (Frame α β)}
    (h : env.chain scope = f :: fs) : env.isOpen scope = true := by
  by_contra hn
  have := chain_eq_nil_iff.mpr (Bool.eq_false_iff.mpr hn)
  simp [h] at this

lemma getElem?_of_chain {env : Environment α β} {scope : Nat} {f : Frame α β}
    {fs : List (Frame α β)} (h : env.chain scope = f :: fs) :
    ∃ s, env.scopes[scope]? = some s ∧ s.frame = f := by
  rw [chain] at h
  cases hs : env.scopes[scope]? with
  | none => simp [hs] at h
  | some s =>
    refine ⟨s,rfl,?_⟩
    simp only [hs] at h
    split at h
    · exact (List.cons.inj h).1
    · split at h <;> exact (List.cons.inj h).1

/-- A search from a scope is a search through the frames in its sight. -/
theorem search_eq_chain (env : Environment α β) (found : Frame α β → Option γ) (scope : Nat) :
    (env.search found scope).map (·.2) = (env.chain scope).findSome? found := by
  induction scope using Nat.strongRecOn with
  | ind scope ih =>
    rw [search,chain]
    cases env.scopes[scope]? with
    | none => rfl
    | some s =>
      cases hf : found s.frame with
      | some x =>
        cases hp : s.parent with
        | none => simp [hf,hp]
        | some p => simp only [hp,hf]; split <;> simp [hf]
      | none =>
        cases hp : s.parent with
        | none => simp [hf,hp]
        | some p =>
          simp only [hp,hf]
          split
          · next hlt => simp [hf,ih p hlt]
          · simp [hf]

lemma lookup_eq_chain {env : Environment α β} {scope : Nat} (ho : env.isOpen scope)
    (found : Frame α β → Option γ) (missing : NameError) :
    (env.lookup scope found missing).map (·.2) =
      match (env.chain scope).findSome? found with
      | some x => .ok x
      | none => .error missing := by
  rw [lookup,if_pos ho,← search_eq_chain]
  cases env.search found scope <;> rfl

lemma lookup_eq_ok {env : Environment α β} {scope : Nat} {found : Frame α β → Option γ}
    {missing : NameError} {hit : Nat × γ} :
    env.lookup scope found missing = .ok hit ↔ env.search found scope = some hit := by
  unfold lookup
  by_cases ho : env.isOpen scope
  · rw [if_pos ho]
    cases env.search found scope <;> simp
  · rw [if_neg ho]
    have hn : env.scopes[scope]? = none := by
      simpa [isOpen_eq_false] using Bool.eq_false_iff.mpr ho
    rw [search]
    simp [hn]

lemma lookupVariable_eq_ok {env : Environment α β} {scope : Nat} {x : String} {b : Binding α} :
    env.lookupVariable scope x = .ok b ↔ (env.chain scope).findSome? (·.findVariable x) = some b := by
  rw [← search_eq_chain]
  unfold lookupVariable
  cases h : env.lookup scope (·.findVariable x) (.undefinedVariable x) with
  | ok hit => simp [Except.map,lookup_eq_ok.mp h]
  | error e =>
    have hn : env.search (·.findVariable x) scope = none := by
      cases hs : env.search (·.findVariable x) scope with
      | none => rfl
      | some hit => rw [lookup_eq_ok.mpr hs] at h; cases h
    simp [Except.map,hn]

lemma lookupFunction_eq_ok {env : Environment α β} {scope arity : Nat} {f : String} {s : β} :
    env.lookupFunction scope f arity = .ok s ↔
      (env.chain scope).findSome? (·.findFunction f arity) = some s := by
  rw [← search_eq_chain]
  unfold lookupFunction
  cases h : env.lookup scope (·.findFunction f arity) (.undefinedFunction f arity) with
  | ok hit => simp [Except.map,lookup_eq_ok.mp h]
  | error e =>
    have hn : env.search (·.findFunction f arity) scope = none := by
      cases hs : env.search (·.findFunction f arity) scope with
      | none => rfl
      | some hit => rw [lookup_eq_ok.mpr hs] at h; cases h
    simp [Except.map,hn]

/-- The root has no scope around it. -/
lemma chain_root {env : Environment α β} {s : Scope α β} (h : env.scopes[root]? = some s) :
    env.chain root = [s.frame] := by
  rw [chain,h]
  cases hp : s.parent <;> simp [hp,root]

@[simp] lemma chain_ofRoot (f : Frame α β) : (ofRoot f).chain root = [f] := by
  rw [chain]
  simp [ofRoot,root]

/-- What a scope sees depends on the scopes up to its own alone. -/
lemma chain_congr {env env' : Environment α β} (scope : Nat)
    (h : ∀ i ≤ scope, env.scopes[i]? = env'.scopes[i]?) : env.chain scope = env'.chain scope := by
  induction scope using Nat.strongRecOn with
  | ind scope ih =>
    rw [chain,chain,h scope (Nat.le_refl _)]
    split
    · rfl
    · split
      · rfl
      · split
        · next p _ hlt => rw [ih p hlt fun i hi => h i (by omega)]
        · rfl

/-- A scope that was just opened is open. -/
lemma isOpen_inner_depth (env : Environment α β) (parent : Nat) :
    (env.inner parent).isOpen env.depth = true := by
  simp [isOpen_iff,inner,depth]

lemma chain_inner_of_isOpen {env : Environment α β} {scope parent : Nat} (h : env.isOpen scope) :
    (env.inner parent).chain scope = env.chain scope := by
  apply chain_congr
  intro i hi
  have := isOpen_iff.mp h
  exact List.getElem?_append_left (by omega)

@[simp] lemma chain_inner_depth {env : Environment α β} {parent : Nat} (h : env.isOpen parent) :
    (env.inner parent).chain env.depth = .empty :: env.chain parent := by
  rw [chain]
  have hl : (env.inner parent).scopes[env.depth]? = some ⟨some parent,.empty⟩ := by
    simp [inner,depth]
  have hp : parent < env.depth := isOpen_iff.mp h
  simp only [hl,hp,ite_true]
  rw [chain_inner_of_isOpen h]

/-- New names in a scope stand in front of what it saw outside. -/
lemma chain_setFrame {env : Environment α β} {scope : Nat} {f f' : Frame α β}
    {fs : List (Frame α β)} (h : env.chain scope = f :: fs) :
    (env.setFrame scope f').chain scope = f' :: fs := by
  rw [chain] at h ⊢
  cases hs : env.scopes[scope]? with
  | none => simp [hs] at h
  | some s =>
    have hn : (env.setFrame scope f').scopes[scope]? = some { s with frame := f' } := by
      simp [setFrame,hs]
    simp only [hn,hs] at h ⊢
    cases hp : s.parent with
    | none => simp_all
    | some p =>
      simp only [hp] at h ⊢
      split
      · next hlt =>
        have hc : (env.setFrame scope f').chain p = env.chain p := by
          apply chain_congr
          intro i hi
          simp only [setFrame,List.getElem?_modify]
          simp [show scope ≠ i by omega]
        simp_all
      · simp_all

lemma setFrame_eq_self {env : Environment α β} {scope : Nat} {s : Scope α β}
    (h : env.scopes[scope]? = some s) : env.setFrame scope s.frame = env := by
  simp only [setFrame]
  congr 1
  apply List.ext_getElem?
  intro i
  rw [List.getElem?_modify]
  by_cases hs : scope = i
  · subst hs
    simp [h]
  · simp [hs]

lemma setFrame_chain {env : Environment α β} {scope : Nat} {f : Frame α β} {fs : List (Frame α β)}
    (h : env.chain scope = f :: fs) : env.setFrame scope f = env := by
  obtain ⟨s,hs,rfl⟩ := getElem?_of_chain h
  exact setFrame_eq_self hs

@[simp] lemma setFrame_setFrame (env : Environment α β) (scope : Nat) (f g : Frame α β) :
    (env.setFrame scope f).setFrame scope g = env.setFrame scope g := by
  simp only [setFrame,List.modify_modify_eq]
  rfl

/-- Closing a scope undoes its opening and all that was defined in it. -/
lemma pop_setFrame_inner (env : Environment α β) (parent : Nat) (f : Frame α β)
    (h : 0 < env.depth) : ((env.inner parent).setFrame env.depth f).pop env.depth = env := by
  have hm : max env.depth 1 = env.scopes.length := by
    rw [Nat.max_eq_left h]; rfl
  simp only [pop,setFrame,inner,hm]
  congr 1
  rw [List.take_modify]
  simp [depth,List.modify_eq_self]

end BlockScript.Environment
