import BlockScript.Proofs.Scopes.Chain
/-! Two stacks of scopes of one shape with related frames, and the changes that keep them so. -/
namespace BlockScript

def Scope.Related {α β γ δ : Type} (r : Frame α β → Frame γ δ → Prop) (s : Scope α β)
    (t : Scope γ δ) : Prop :=
  s.parent = t.parent ∧ r s.frame t.frame

/-- Scopes at the same positions have the same parent and related frames. -/
def Environment.Related {α β γ δ : Type} (r : Frame α β → Frame γ δ → Prop)
    (env : Environment α β) (env' : Environment γ δ) : Prop :=
  ∀ i : Nat, Option.Rel (Scope.Related r) env.scopes[i]? env'.scopes[i]?

namespace Environment
variable {α β γ δ ε ζ : Type} {r : Frame α β → Frame γ δ → Prop} {env : Environment α β}
  {env' : Environment γ δ}

lemma search_eq_some {found : Frame α β → Option ε} {scope owner : Nat} {x : ε}
    (h : env.search found scope = some (owner,x)) :
    ∃ s, env.scopes[owner]? = some s ∧ found s.frame = some x := by
  induction scope using Nat.strongRecOn with
  | ind scope ih =>
    rw [search] at h
    cases hs : env.scopes[scope]? with
    | none => simp [hs] at h
    | some s =>
      simp only [hs] at h
      cases hf : found s.frame with
      | some y =>
        simp only [hf,Option.some.injEq,Prod.mk.injEq] at h
        obtain ⟨rfl,rfl⟩ := h
        exact ⟨s,hs,hf⟩
      | none =>
        simp only [hf] at h
        cases hp : s.parent with
        | none => simp [hp] at h
        | some p =>
          simp only [hp] at h
          split at h
          · next hlt => exact ih p hlt h
          · cases h

namespace Related

lemma depth_eq (h : Related r env env') : env.depth = env'.depth := by
  have hn : ∀ i : Nat, env.scopes[i]? = none ↔ env'.scopes[i]? = none := by
    intro i
    have hi := h i
    generalize env.scopes[i]? = a at hi
    generalize env'.scopes[i]? = b at hi
    cases hi <;> simp
  simp only [List.getElem?_eq_none_iff] at hn
  have h1 := (hn env.scopes.length).mp (Nat.le_refl _)
  have h2 := (hn env'.scopes.length).mpr (Nat.le_refl _)
  exact Nat.le_antisymm h2 h1

lemma of_getElem? (h : Related r env env') {i : Nat} {t : Scope γ δ}
    (ht : env'.scopes[i]? = some t) :
    ∃ s, env.scopes[i]? = some s ∧ Scope.Related r s t := by
  have hi := h i
  rw [ht] at hi
  generalize env.scopes[i]? = a at hi
  cases hi with
  | some hr => exact ⟨_,rfl,hr⟩

/-- A name is found in the same scope of both, with related meanings. -/
theorem search (h : Related r env env') {q : ε → ζ → Prop} {found : Frame α β → Option ε}
    {found' : Frame γ δ → Option ζ} (hf : ∀ f f', r f f' → Option.Rel q (found f) (found' f'))
    (scope : Nat) :
    Option.Rel (fun x y => x.1 = y.1 ∧ q x.2 y.2) (env.search found scope)
      (env'.search found' scope) := by
  induction scope using Nat.strongRecOn with
  | ind scope ih =>
    rw [Environment.search,Environment.search]
    have hi := h scope
    generalize env.scopes[scope]? = a at hi
    generalize env'.scopes[scope]? = b at hi
    cases hi with
    | none => exact .none
    | @some s t hst =>
      obtain ⟨hp,hr⟩ := hst
      simp only [hp]
      have hfr := hf _ _ hr
      generalize found s.frame = x at hfr
      generalize found' t.frame = y at hfr
      cases hfr with
      | some hq => exact .some ⟨rfl,hq⟩
      | none =>
        cases t.parent with
        | none => exact .none
        | some p =>
          dsimp only
          split
          · next hlt => exact ih p hlt
          · exact .none

lemma mono {r' : Frame α β → Frame γ δ → Prop} (h : Related r env env')
    (hr : ∀ f f', r f f' → r' f f') : Related r' env env' := by
  intro i
  have hi := h i
  generalize env.scopes[i]? = a at hi
  generalize env'.scopes[i]? = b at hi
  cases hi with
  | none => exact .none
  | some h => exact .some ⟨h.1,hr _ _ h.2⟩

/-- One scope of both gets new names. -/
lemma setFrame_setFrame (h : Related r env env') (scope : Nat) {f : Frame α β} {f' : Frame γ δ}
    (hr : r f f') : Related r (env.setFrame scope f) (env'.setFrame scope f') := by
  intro i
  have hi := h i
  simp only [setFrame,List.getElem?_modify]
  by_cases hs : scope = i
  · simp only [hs,↓reduceIte]
    generalize env.scopes[i]? = a at hi
    generalize env'.scopes[i]? = b at hi
    cases hi with
    | none => exact .none
    | some h => exact .some ⟨h.1,hr⟩
  · simp only [hs,↓reduceIte]
    generalize env.scopes[i]? = a at hi
    generalize env'.scopes[i]? = b at hi
    cases hi with
    | none => exact .none
    | some h => exact .some h

/-- One scope of the first gets new values. -/
lemma setFrame_left (h : Related r env env') {scope : Nat} {t : Scope γ δ} {f : Frame α β}
    (ht : env'.scopes[scope]? = some t) (hr : r f t.frame) :
    Related r (env.setFrame scope f) env' := by
  rw [← setFrame_eq_self ht]
  exact h.setFrame_setFrame scope hr

lemma inner (h : Related r env env') (hr : r .empty .empty) (parent : Nat) :
    Related r (env.inner parent) (env'.inner parent) := by
  intro i
  have hd : env.scopes.length = env'.scopes.length := h.depth_eq
  simp only [Environment.inner,List.getElem?_append,hd]
  split
  · exact h i
  · cases i - env'.scopes.length with
    | zero => exact .some ⟨rfl,hr⟩
    | succ n => exact .none

lemma pop (h : Related r env env') (scope : Nat) : Related r (env.pop scope) (env'.pop scope) := by
  intro i
  simp only [Environment.pop,List.getElem?_take]
  split
  · exact h i
  · exact .none

lemma ofRoot {f : Frame α β} {f' : Frame γ δ} (hr : r f f') :
    Related r (ofRoot f) (ofRoot f') := by
  intro i
  cases i with
  | zero => exact .some ⟨rfl,hr⟩
  | succ n => exact .none

end Related
end Environment
end BlockScript
