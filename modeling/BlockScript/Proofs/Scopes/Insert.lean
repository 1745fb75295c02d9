import BlockScript.Proofs.Scopes.Growth
/-! One more scope between some scopes and the scopes inside of them. Where it does not have a name
itself, what is seen from inside and what changes there is the same, one position higher. -/
namespace BlockScript
variable {α β γ : Type}

/-- The position of a scope when one more stands at a given position. -/
def Environment.raise (d i : Nat) : Nat := if i < d then i else i + 1

/-- The same, but for the scope around the new one: the new one takes its place. -/
def Environment.redirect (d i : Nat) : Nat := if i < d then d else i + 1

def Scope.redirect (d : Nat) (s : Scope α β) : Scope α β :=
  { s with parent := s.parent.map (Environment.redirect d) }

namespace Environment

/-- The same scopes with one more inside of a given one, and around those from a position on. -/
def insert (env : Environment α β) (d parent : Nat) (f : Frame α β) : Environment α β :=
  ⟨env.scopes.take d ++ ⟨some parent,f⟩ :: (env.scopes.drop d).map (Scope.redirect d)⟩

/-- The scopes from a position on stand inside of a scope before it, or of each other. -/
structure Splits (env : Environment α β) (d parent : Nat) : Prop where
  parent_lt : parent < d
  le_depth : d ≤ env.depth
  parents : ∀ (i : Nat) (s : Scope α β), d ≤ i → env.scopes[i]? = some s →
    ∀ q, s.parent = some q → q = parent ∨ d ≤ q

variable {env env' : Environment α β} {d parent scope : Nat} {f : Frame α β}

lemma redirect_of_le (h : d ≤ scope) : redirect d scope = raise d scope := by
  simp [redirect,raise,Nat.not_lt.mpr h]

lemma raise_of_le (h : d ≤ scope) : raise d scope = scope + 1 := if_neg (Nat.not_lt.mpr h)

/-! ## What stands where -/

lemma getElem?_insert_of_lt (hd : d ≤ env.depth) {i : Nat} (hi : i < d) :
    (env.insert d parent f).scopes[i]? = env.scopes[i]? := by
  have hlen : (env.scopes.take d).length = d := List.length_take_of_le hd
  rw [insert,List.getElem?_append_left (by omega),List.getElem?_take_of_lt hi]

lemma getElem?_insert_self (hd : d ≤ env.depth) :
    (env.insert d parent f).scopes[d]? = some ⟨some parent,f⟩ := by
  have hlen : (env.scopes.take d).length = d := List.length_take_of_le hd
  rw [insert,List.getElem?_append_right (by omega),hlen,Nat.sub_self]
  rfl

lemma getElem?_insert_succ (hd : d ≤ env.depth) {i : Nat} (hi : d ≤ i) :
    (env.insert d parent f).scopes[i + 1]? = env.scopes[i]?.map (Scope.redirect d) := by
  have hlen : (env.scopes.take d).length = d := List.length_take_of_le hd
  have hsub : i + 1 - d = i - d + 1 := by omega
  have hadd : d + (i - d) = i := by omega
  rw [insert,List.getElem?_append_right (by omega),hlen,hsub,List.getElem?_cons_succ,
    List.getElem?_map,List.getElem?_drop,hadd]

lemma depth_insert (hd : d ≤ env.depth) : (env.insert d parent f).depth = env.depth + 1 := by
  simp only [depth] at hd
  simp only [insert,depth,List.length_append,List.length_take,List.length_cons,List.length_map,
    List.length_drop]
  omega

lemma isOpen_insert (h : env.Splits d parent) (scope : Nat) :
    (env.insert d parent f).isOpen (redirect d scope) = env.isOpen scope := by
  have hp := h.parent_lt
  have hle : d ≤ env.scopes.length := h.le_depth
  have hdepth : (env.insert d parent f).scopes.length = env.scopes.length + 1 :=
    depth_insert h.le_depth
  rw [Bool.eq_iff_iff,isOpen_iff,isOpen_iff,hdepth,redirect]
  split <;> omega

/-! ## What is found -/

/-- A search goes outwards. -/
lemma search_le {found : Frame α β → Option γ} {owner : Nat} {x : γ}
    (h : env.search found scope = some (owner,x)) : owner ≤ scope := by
  induction scope using Nat.strongRecOn with
  | ind scope ih =>
    rw [search] at h
    cases hs : env.scopes[scope]? with
    | none => simp [hs] at h
    | some s =>
      simp only [hs] at h
      cases hf : found s.frame with
      | some y =>
        simp only [hf,Option.some.injEq,Prod.mk.injEq] at h
        omega
      | none =>
        simp only [hf] at h
        cases hp : s.parent with
        | none => simp [hp] at h
        | some p =>
          simp only [hp] at h
          split at h
          · next hlt => exact Nat.le_of_lt (Nat.lt_of_le_of_lt (ih p hlt h) hlt)
          · cases h

/-- A search looks at the scopes up to its own alone. -/
lemma search_congr (found : Frame α β → Option γ) (scope : Nat)
    (h : ∀ i ≤ scope, env.scopes[i]? = env'.scopes[i]?) :
    env.search found scope = env'.search found scope := by
  induction scope using Nat.strongRecOn with
  | ind scope ih =>
    rw [search,search,h scope (Nat.le_refl _)]
    cases env'.scopes[scope]? with
    | none => rfl
    | some s =>
      dsimp only
      cases found s.frame with
      | some x => rfl
      | none =>
        cases s.parent with
        | none => rfl
        | some p =>
          dsimp only
          split
          · next hlt => exact ih p hlt fun i hi => h i (by omega)
          · rfl

/-- Scopes before the new one see what they saw. -/
lemma search_insert_of_lt (hd : d ≤ env.depth) (found : Frame α β → Option γ) (hs : scope < d) :
    (env.insert d parent f).search found scope = env.search found scope :=
  search_congr found scope fun _ hi => getElem?_insert_of_lt hd (Nat.lt_of_le_of_lt hi hs)

/-- A name that the new scope does not have is found where it was. -/
lemma search_insert (h : env.Splits d parent) {found : Frame α β → Option γ} (hf : found f = none)
    (hs : scope = parent ∨ d ≤ scope) : (env.insert d parent f).search found (redirect d scope) =
      (env.search found scope).map fun hit => (raise d hit.1,hit.2) := by
  have hp := h.parent_lt
  have hparent : (env.insert d parent f).search found d =
      (env.search found parent).map fun hit => (raise d hit.1,hit.2) := by
    rw [search,getElem?_insert_self h.le_depth]
    simp only [hf,hp,↓reduceIte,search_insert_of_lt h.le_depth found hp]
    cases hr : env.search found parent with
    | none => rfl
    | some hit =>
      obtain ⟨owner,x⟩ := hit
      have hlt : owner < d := Nat.lt_of_le_of_lt (search_le hr) hp
      simp [raise,hlt]
  induction scope using Nat.strongRecOn with
  | ind scope ih =>
    rcases hs with rfl | hs
    · rw [redirect,if_pos hp]
      exact hparent
    · rw [redirect_of_le hs,raise_of_le hs,search,search,getElem?_insert_succ h.le_depth hs]
      cases hscope : env.scopes[scope]? with
      | none => rfl
      | some s =>
        simp only [Option.map_some,Scope.redirect]
        cases found s.frame with
        | some x => simp [raise_of_le hs]
        | none =>
          cases hq : s.parent with
          | none => rfl
          | some q =>
            have hin := h.parents scope s hs hscope q hq
            have hlt : redirect d q < scope + 1 ↔ q < scope := by
              rw [redirect]
              split <;> omega
            simp only [Option.map_some,hlt]
            split
            · next hq => exact ih q hq hin
            · rfl

lemma lookup_insert (h : env.Splits d parent) {found : Frame α β → Option γ} (hf : found f = none)
    (hs : scope = parent ∨ d ≤ scope) (missing : NameError) (ho : env.isOpen scope) :
    (env.insert d parent f).lookup (redirect d scope) found missing =
      (env.lookup scope found missing).map fun hit => (raise d hit.1,hit.2) := by
  rw [lookup,lookup,isOpen_insert h scope,if_pos ho,if_pos ho,search_insert h hf hs]
  cases env.search found scope <;> rfl

lemma lookupVariable_insert (h : env.Splits d parent) {x : String} (hf : f.findVariable x = none)
    (hs : scope = parent ∨ d ≤ scope) (ho : env.isOpen scope) :
    (env.insert d parent f).lookupVariable (redirect d scope) x = env.lookupVariable scope x := by
  rw [lookupVariable,lookup_insert h hf hs _ ho,lookupVariable]
  cases env.lookup scope (·.findVariable x) (.undefinedVariable x) <;> rfl

lemma lookupFunction_insert (h : env.Splits d parent) (hf : f.functions = [])
    (hs : scope = parent ∨ d ≤ scope) (ho : env.isOpen scope) (x : String) (arity : Nat) :
    (env.insert d parent f).lookupFunction (redirect d scope) x arity =
      env.lookupFunction scope x arity := by
  have hnone : f.findFunction x arity = none := by simp [Frame.findFunction,hf]
  rw [lookupFunction,lookup_insert h hnone hs _ ho,lookupFunction]
  cases env.lookup scope (·.findFunction x arity) (.undefinedFunction x arity) <;> rfl

/-- Scopes before the new one see the functions that they saw. -/
lemma lookupFunction_insert_of_lt (hd : d ≤ env.depth) (hs : scope < d) (x : String) (arity : Nat) :
    (env.insert d parent f).lookupFunction scope x arity = env.lookupFunction scope x arity := by
  have hle : d ≤ env.scopes.length := hd
  have hdepth : (env.insert d parent f).scopes.length = env.scopes.length + 1 := depth_insert hd
  have ho : (env.insert d parent f).isOpen scope = env.isOpen scope := by
    rw [Bool.eq_iff_iff,isOpen_iff,isOpen_iff,hdepth]
    omega
  rw [lookupFunction,lookup,ho,search_insert_of_lt hd _ hs,lookupFunction,lookup]

/-- The new scope sees its own names first. -/
lemma lookupVariable_insert_self (h : env.Splits d parent) {x : String} {b : Binding α}
    (hf : f.findVariable x = some b) : (env.insert d parent f).lookupVariable d x = .ok b := by
  have ho : (env.insert d parent f).isOpen d = true := by
    have hdepth : (env.insert d parent f).scopes.length = env.scopes.length + 1 :=
      depth_insert h.le_depth
    rw [isOpen_iff,hdepth]
    exact Nat.lt_succ_of_le h.le_depth
  rw [lookupVariable,lookup,if_pos ho,search,getElem?_insert_self h.le_depth]
  simp only [hf]
  rfl

/-! ## What changes -/

/-- Scopes are the given ones with one more if they are so at each position. -/
lemma eq_insert (hd : d ≤ env.depth) (hlt : ∀ j < d, env'.scopes[j]? = env.scopes[j]?)
    (hself : env'.scopes[d]? = some ⟨some parent,f⟩)
    (hgt : ∀ j, d ≤ j → env'.scopes[j + 1]? = env.scopes[j]?.map (Scope.redirect d)) :
    env' = env.insert d parent f := by
  obtain ⟨scopes⟩ := env'
  refine congrArg mk (List.ext_getElem? fun j => ?_)
  rcases Nat.lt_trichotomy j d with hj | rfl | hj
  · exact (hlt j hj).trans (getElem?_insert_of_lt hd hj).symm
  · exact hself.trans (getElem?_insert_self hd).symm
  · obtain ⟨j,rfl⟩ := Nat.exists_eq_succ_of_ne_zero (Nat.ne_zero_of_lt hj)
    have hle : d ≤ j := Nat.le_of_lt_succ hj
    exact (hgt j hle).trans (getElem?_insert_succ hd hle).symm

lemma setFrame_insert (hd : d ≤ env.depth) (i : Nat) (g : Frame α β) :
    (env.insert d parent f).setFrame (raise d i) g = (env.setFrame i g).insert d parent f := by
  have hne : raise d i ≠ d := by
    rw [raise]
    split <;> omega
  refine eq_insert (by simpa [setFrame,depth] using hd) (fun j hj => ?_) ?_ fun j hj => ?_
  · have hraise : raise d i = j ↔ i = j := by
      rw [raise]
      split <;> omega
    simp only [setFrame,List.getElem?_modify,getElem?_insert_of_lt hd hj,hraise]
  · simp only [setFrame,List.getElem?_modify,getElem?_insert_self hd,hne,↓reduceIte]
    rfl
  · have hraise : raise d i = j + 1 ↔ i = j := by
      rw [raise]
      split <;> omega
    simp only [setFrame,List.getElem?_modify,getElem?_insert_succ hd hj,hraise]
    cases env.scopes[j]? with
    | none => rfl
    | some s => by_cases hi : i = j <;> simp [hi,Scope.redirect]

/-- The new scope gets other names. -/
lemma setFrame_insert_self (hd : d ≤ env.depth) (g : Frame α β) :
    (env.insert d parent f).setFrame d g = env.insert d parent g := by
  refine eq_insert hd (fun j hj => ?_) ?_ fun j hj => ?_
  · simp [setFrame,getElem?_insert_of_lt hd hj,Nat.ne_of_gt hj]
  · simp [setFrame,getElem?_insert_self hd]
  · have hne : d ≠ j + 1 := by omega
    simp [setFrame,getElem?_insert_succ hd hj,hne]

lemma updateFrame_insert (hd : d ≤ env.depth) (change : Frame α β → Except NameError (Frame α β))
    {owner : Nat} (ho : env.isOpen owner) : (env.insert d parent f).updateFrame (raise d owner) change =
      (env.updateFrame owner change).map (·.insert d parent f) := by
  obtain ⟨s,hs⟩ : ∃ s, env.scopes[owner]? = some s :=
    ⟨_,List.getElem?_eq_getElem (isOpen_iff.mp ho)⟩
  obtain ⟨t,ht,hframe⟩ : ∃ t, (env.insert d parent f).scopes[raise d owner]? = some t ∧
      t.frame = s.frame := by
    by_cases hlt : owner < d
    · rw [raise,if_pos hlt,getElem?_insert_of_lt hd hlt]
      exact ⟨s,hs,rfl⟩
    · rw [raise,if_neg hlt,getElem?_insert_succ hd (Nat.le_of_not_lt hlt),hs]
      exact ⟨_,rfl,rfl⟩
  rw [updateFrame,updateFrame,hs,ht]
  dsimp only
  rw [hframe]
  cases change s.frame with
  | error e => rfl
  | ok g => exact congrArg Except.ok (setFrame_insert hd owner g)

lemma writeVariable_insert (h : env.Splits d parent) {x : String} (hf : f.findVariable x = none)
    (hs : scope = parent ∨ d ≤ scope) (ho : env.isOpen scope) (v : α) :
    (env.insert d parent f).writeVariable (redirect d scope) x v =
      (env.writeVariable scope x v).map (·.insert d parent f) := by
  rw [writeVariable,lookup_insert h hf hs _ ho,writeVariable]
  cases hl : env.lookup scope (·.findVariable x) (.undefinedVariable x) with
  | error e => rfl
  | ok hit =>
    obtain ⟨owner,b⟩ := hit
    obtain ⟨s,hs,_⟩ := search_eq_some (lookup_eq_ok.mp hl)
    exact updateFrame_insert h.le_depth (fun g => .ok (g.writeVariable x v))
      (isOpen_iff.mpr (List.getElem?_eq_some_iff.mp hs).1)

lemma inner_insert (hd : d ≤ env.depth) (scope : Nat) :
    (env.insert d parent f).inner (redirect d scope) = (env.inner scope).insert d parent f := by
  have hlen : d ≤ env.scopes.length := hd
  have hdrop : d - env.scopes.length = 0 := by omega
  simp only [inner,insert,List.take_append,List.drop_append,hdrop,List.take_zero,List.drop_zero,
    List.append_nil,List.map_append,List.append_assoc,List.cons_append]
  rfl

lemma pop_insert (h : env.Splits d parent) (hs : d ≤ scope) :
    (env.insert d parent f).pop (scope + 1) = (env.pop scope).insert d parent f := by
  have hp := h.parent_lt
  have hd : d ≤ env.scopes.length := h.le_depth
  have hm : max scope 1 = scope := by omega
  refine eq_insert ?_ (fun j hj => ?_) ?_ fun j hj => ?_
  · simp only [pop,depth,List.length_take]
    omega
  · have hj₁ : j < scope := by omega
    have hj₂ : j < scope + 1 := by omega
    simp [pop,hm,getElem?_insert_of_lt h.le_depth hj,hj₁,hj₂]
  · have hlt : d < scope + 1 := by omega
    simp [pop,getElem?_insert_self h.le_depth,hlt]
  · simp only [pop,hm,List.getElem?_take,Nat.max_eq_left (Nat.le_add_left 1 scope),
      getElem?_insert_succ h.le_depth hj,Nat.add_lt_add_iff_right]
    split <;> rfl

/-- At the end the new scope is a child like any other. -/
lemma inner_eq_insert (env : Environment α β) (parent : Nat) :
    env.inner parent = env.insert env.depth parent .empty := by
  simp [inner,insert,depth]

/-- When all scopes from it on are closed, none of the new ones is left. -/
lemma pop_insert_self (h : env.Splits d parent) (hd : env.depth = d) :
    (env.insert d parent f).pop d = env := by
  subst hd
  have hp := h.parent_lt
  have hm : max env.scopes.length 1 = env.scopes.length := by
    simp only [depth] at hp
    omega
  simp [pop,insert,depth,hm]

/-- The root is before the new scope. -/
lemma take_one_insert (h : env.Splits d parent) :
    (env.insert d parent f).scopes.take 1 = env.scopes.take 1 := by
  have hp := h.parent_lt
  have hd : d ≤ env.scopes.length := h.le_depth
  have hlen : 1 ≤ (env.scopes.take d).length := by
    rw [List.length_take]
    omega
  rw [insert,List.take_append_of_le_length hlen,List.take_take,Nat.min_eq_left (by omega)]

/-- The root may be another one. -/
lemma insert_cons_drop (h : env.Splits d parent) (s : Scope α β) :
    insert ⟨s :: env.scopes.drop 1⟩ d parent f = ⟨s :: (env.insert d parent f).scopes.drop 1⟩ := by
  have hp := h.parent_lt
  have hd := h.le_depth
  obtain ⟨d,rfl⟩ := Nat.exists_eq_succ_of_ne_zero (Nat.ne_zero_of_lt hp)
  obtain ⟨scopes⟩ := env
  cases scopes with
  | nil => cases hd
  | cons t ts => rfl

namespace Splits

/-- Everything that stands at the end stands inside of an open scope. -/
lemma last (ho : env.isOpen parent) : env.Splits env.depth parent := by
  refine ⟨isOpen_iff.mp ho,Nat.le_refl _,fun i s hi hs => ?_⟩
  have hlt := (List.getElem?_eq_some_iff.mp hs).1
  exact absurd hlt (Nat.not_lt.mpr hi)

lemma inner (h : env.Splits d parent) (hs : scope = parent ∨ d ≤ scope) :
    (env.inner scope).Splits d parent := by
  refine ⟨h.parent_lt,?_,fun i s hi his q hq => ?_⟩
  · have hd := h.le_depth
    simp only [Environment.inner,depth,List.length_append] at hd ⊢
    omega
  · simp only [Environment.inner,List.getElem?_append] at his
    split at his
    · exact h.parents i s hi his q hq
    · obtain rfl := List.mem_singleton.mp (List.mem_of_getElem? his)
      cases hq
      exact hs

/-- What runs in a scope leaves the scopes where they stand. -/
lemma grows {at_ : Nat} {names : List String} (h : env.Splits d parent)
    (hg : env.Grows at_ names env') : env'.Splits d parent := by
  refine ⟨h.parent_lt,?_,fun i s hi hs q hq => ?_⟩
  · rw [hg.depth_eq]
    exact h.le_depth
  · have hrel := hg i
    rw [hs] at hrel
    generalize hr : env.scopes[i]? = r at hrel
    cases hrel with
    | some ht => exact h.parents i _ hi hr q (ht.1.trans hq)

end Splits
end Environment
end BlockScript
