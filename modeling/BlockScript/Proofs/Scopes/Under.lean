import BlockScript.Proofs.Execution.Reachable
/-! Scopes with others between the root and the rest: what is seen and what changes is the same, at
higher positions. -/
namespace BlockScript
variable {α β γ : Type}

/-- The position of a scope when more of them stand after the root. -/
def Environment.place (k i : Nat) : Nat := if i = root then root else i + k

def Scope.shift (k : Nat) (s : Scope α β) : Scope α β :=
  { s with parent := s.parent.map (Environment.place k) }

namespace Environment

/-- The same scopes with outer ones between the root and the rest. -/
def under (env : Environment α β) (outer : List (Scope α β)) : Environment α β :=
  ⟨env.scopes.take 1 ++ (outer ++ (env.scopes.drop 1).map (Scope.shift outer.length))⟩

@[simp] lemma place_root (k : Nat) : place k root = root := if_pos rfl

lemma place_succ (k i : Nat) : place k (i + 1) = i + k + 1 := by
  simp only [place,root,Nat.succ_ne_zero,↓reduceIte]
  omega

lemma place_lt_place {k i j : Nat} : place k i < place k j ↔ i < j := by
  unfold place root
  split <;> split <;> omega

lemma under_cons (s : Scope α β) (ss outer : List (Scope α β)) :
    under ⟨s :: ss⟩ outer = ⟨s :: (outer ++ ss.map (Scope.shift outer.length))⟩ := rfl

lemma modify_append (as bs : List α) (i : Nat) (f : α → α) :
    (as ++ bs).modify (i + as.length) f = as ++ bs.modify i f := by
  induction as with
  | nil => simp
  | cons a as ih => simp [← Nat.add_assoc,ih]

variable {env : Environment Value Callable} {scope : Nat}

/-- The root comes first and has no parent. -/
lemma Nested.exists_root (h : env.Nested) : ∃ s ss, env = ⟨s :: ss⟩ ∧ s.parent = none := by
  obtain ⟨hd,hp⟩ := h
  obtain ⟨scopes⟩ := env
  cases scopes with
  | nil => cases hd
  | cons s ss =>
    refine ⟨s,ss,rfl,Option.eq_none_iff_forall_ne_some.mpr fun p h => ?_⟩
    exact Nat.not_lt_zero p ((hp 0 s rfl).parent p h)

variable (h : env.Nested) (outer : List (Scope Value Callable))
include h

lemma getElem?_under (i : Nat) : (env.under outer).scopes[place outer.length i]? =
    env.scopes[i]?.map (Scope.shift outer.length) := by
  obtain ⟨⟨_,frame⟩,ss,rfl,hp⟩ := h.exists_root
  obtain rfl : _ = none := hp
  cases i with
  | zero => rfl
  | succ i =>
    rw [under_cons,place_succ,List.getElem?_cons_succ,List.getElem?_cons_succ,
      List.getElem?_append_right (Nat.le_add_left _ _),Nat.add_sub_cancel,List.getElem?_map]

lemma isOpen_under (i : Nat) : (env.under outer).isOpen (place outer.length i) = env.isOpen i := by
  rw [Bool.eq_iff_iff,isOpen_iff,isOpen_iff,← not_iff_not,Nat.not_lt,Nat.not_lt,
    ← List.getElem?_eq_none_iff,← List.getElem?_eq_none_iff,getElem?_under h]
  simp

lemma depth_under : (env.under outer).depth = place outer.length env.depth := by
  obtain ⟨s,ss,rfl,_⟩ := h.exists_root
  simp only [under_cons,depth,List.length_cons,List.length_append,List.length_map,place_succ]
  omega

/-- A search finds the same, at its place. -/
lemma search_under (found : Frame Value Callable → Option γ) (scope : Nat) :
    (env.under outer).search found (place outer.length scope) =
      (env.search found scope).map fun hit => (place outer.length hit.1,hit.2) := by
  induction scope using Nat.strongRecOn with
  | ind scope ih =>
    rw [search,search,getElem?_under h]
    cases env.scopes[scope]? with
    | none => rfl
    | some s =>
      simp only [Option.map_some,Scope.shift]
      cases found s.frame with
      | some x => rfl
      | none =>
        cases s.parent with
        | none => rfl
        | some p =>
          simp only [Option.map_some,place_lt_place]
          split
          · next hlt => exact ih p hlt
          · rfl

lemma lookup_under (ho : env.isOpen scope) (found : Frame Value Callable → Option γ)
    (missing : NameError) :
    (env.under outer).lookup (place outer.length scope) found missing =
      (env.lookup scope found missing).map fun hit => (place outer.length hit.1,hit.2) := by
  rw [lookup,lookup,isOpen_under h,search_under h,if_pos ho,if_pos ho]
  cases env.search found scope <;> rfl

lemma lookupVariable_under (ho : env.isOpen scope) (x : String) :
    (env.under outer).lookupVariable (place outer.length scope) x = env.lookupVariable scope x := by
  rw [lookupVariable,lookup_under h outer ho,lookupVariable]
  cases env.lookup scope (·.findVariable x) (.undefinedVariable x) <;> rfl

lemma lookupFunction_under (ho : env.isOpen scope) (f : String) (arity : Nat) :
    (env.under outer).lookupFunction (place outer.length scope) f arity =
      env.lookupFunction scope f arity := by
  rw [lookupFunction,lookup_under h outer ho,lookupFunction]
  cases env.lookup scope (·.findFunction f arity) (.undefinedFunction f arity) <;> rfl

lemma setFrame_under (scope : Nat) (f : Frame Value Callable) :
    (env.under outer).setFrame (place outer.length scope) f =
      (env.setFrame scope f).under outer := by
  obtain ⟨s,ss,rfl,_⟩ := h.exists_root
  cases scope with
  | zero => rfl
  | succ i =>
    simp only [setFrame,List.modify_succ_cons,under_cons,place_succ,modify_append]
    congr 3
    apply List.ext_getElem?
    intro j
    simp only [List.getElem?_modify,List.getElem?_map]
    cases ss[j]? with
    | none => rfl
    | some t => by_cases hj : i = j <;> simp [hj,Scope.shift]

lemma updateFrame_under (ho : env.isOpen scope)
    (change : Frame Value Callable → Except NameError (Frame Value Callable)) :
    (env.under outer).updateFrame (place outer.length scope) change =
      (env.updateFrame scope change).map (·.under outer) := by
  obtain ⟨s,hs⟩ : ∃ s, env.scopes[scope]? = some s := by
    rw [List.getElem?_eq_getElem (isOpen_iff.mp ho)]
    exact ⟨_,rfl⟩
  rw [updateFrame,updateFrame,getElem?_under h,hs]
  simp only [Option.map_some,Scope.shift]
  cases change s.frame with
  | error e => rfl
  | ok f => exact congrArg Except.ok (setFrame_under h outer scope f)

lemma writeVariable_under (ho : env.isOpen scope) (x : String) (v : Value) :
    (env.under outer).writeVariable (place outer.length scope) x v =
      (env.writeVariable scope x v).map (·.under outer) := by
  rw [writeVariable,lookup_under h outer ho,writeVariable]
  cases hl : env.lookup scope (·.findVariable x) (.undefinedVariable x) with
  | error e => rfl
  | ok hit =>
    obtain ⟨owner,b⟩ := hit
    obtain ⟨s,hs,_⟩ := search_eq_some (lookup_eq_ok.mp hl)
    have hopen := isOpen_iff.mpr (List.getElem?_eq_some_iff.mp hs).1
    exact updateFrame_under h outer hopen fun f => .ok (f.writeVariable x v)

lemma inner_under (parent : Nat) :
    (env.under outer).inner (place outer.length parent) = (env.inner parent).under outer := by
  obtain ⟨s,ss,rfl,_⟩ := h.exists_root
  simp [under_cons,inner,Scope.shift]

lemma pop_under (hs : scope ≠ root) :
    (env.under outer).pop (place outer.length scope) = (env.pop scope).under outer := by
  obtain ⟨s,ss,rfl,_⟩ := h.exists_root
  obtain ⟨i,rfl⟩ := Nat.exists_eq_succ_of_ne_zero hs
  have hi : max (i + 1) 1 = i + 1 := by omega
  have hk : max (i + outer.length + 1) 1 = outer.length + i + 1 := by omega
  simp only [pop,under_cons,place_succ,Nat.succ_eq_add_one,hi,hk,List.take_succ_cons,
    List.take_length_add_append,List.map_take]

omit h in
/-- The root and the scopes put under it together. -/
lemma under_take_drop (env : Environment α β) :
    under ⟨env.scopes.take 1⟩ (env.scopes.drop 1) = env := by
  obtain ⟨scopes⟩ := env
  cases scopes <;> simp [under]

end Environment
end BlockScript
