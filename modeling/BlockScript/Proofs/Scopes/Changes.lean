import BlockScript.Proofs.Scopes.Related
/-! What is asked of two related stacks of scopes has related answers, and a change that both of them
take leaves them related. -/
namespace BlockScript
variable {α β γ δ ε ζ : Type}

/-- Two answers that are both given, and related, or both refused for the same reason. -/
inductive NameError.Agree (q : ε → ζ → Prop) : Except NameError ε → Except NameError ζ → Prop
  | ok {a : ε} {b : ζ} (h : q a b) : Agree q (.ok a) (.ok b)
  | error (e : NameError) : Agree q (.error e) (.error e)

lemma NameError.Agree.map {η θ : Type} {q : ε → ζ → Prop} {q' : η → θ → Prop} {f : ε → η} {g : ζ → θ}
    {x : Except NameError ε} {y : Except NameError ζ} (h : Agree q x y)
    (hq : ∀ a b, q a b → q' (f a) (g b)) : Agree q' (x.map f) (y.map g) := by
  cases h with
  | ok h => exact .ok (hq _ _ h)
  | error e => exact .error e

namespace Environment.Related
variable {r : Frame α β → Frame γ δ → Prop} {env : Environment α β} {env' : Environment γ δ}

lemma isOpen_eq (h : Related r env env') (scope : ℕ) : env.isOpen scope = env'.isOpen scope := by
  unfold isOpen
  rw [h.depth_eq]

lemma lookup_agree (h : Related r env env') {q : ε → ζ → Prop} {found : Frame α β → Option ε}
    {found' : Frame γ δ → Option ζ} (hf : ∀ f f', r f f' → Option.Rel q (found f) (found' f'))
    (scope : ℕ) (missing : NameError) :
    NameError.Agree (fun x y => x.1 = y.1 ∧ q x.2 y.2) (env.lookup scope found missing)
      (env'.lookup scope found' missing) := by
  unfold Environment.lookup
  rw [h.isOpen_eq scope]
  split
  · have hs := h.search hf scope
    generalize env.search found scope = x at hs
    generalize env'.search found' scope = y at hs
    cases hs with
    | some hq => exact .ok hq
    | none => exact .error missing
  · exact .error _

lemma updateFrame_agree (h : Related r env env') (scope : ℕ)
    {change : Frame α β → Except NameError (Frame α β)}
    {change' : Frame γ δ → Except NameError (Frame γ δ)}
    (hc : ∀ f f', r f f' → NameError.Agree r (change f) (change' f')) :
    NameError.Agree (Related r) (env.updateFrame scope change) (env'.updateFrame scope change') := by
  unfold Environment.updateFrame
  have hi := h scope
  generalize env.scopes[scope]? = a at hi
  generalize env'.scopes[scope]? = b at hi
  cases hi with
  | none => exact .error _
  | some hst => exact (hc _ _ hst.2).map fun _ _ hr => h.setFrame_setFrame scope hr

lemma writeVariable_agree (h : Related r env env') {q : Binding α → Binding γ → Prop} (scope : ℕ)
    {x : String} {a : α} {c : γ}
    (hf : ∀ f f', r f f' → Option.Rel q (f.findVariable x) (f'.findVariable x))
    (hw : ∀ f f', r f f' → r (f.writeVariable x a) (f'.writeVariable x c)) :
    NameError.Agree (Related r) (env.writeVariable scope x a) (env'.writeVariable scope x c) := by
  unfold Environment.writeVariable
  have hl := h.lookup_agree hf scope (.undefinedVariable x)
  generalize env.lookup scope (·.findVariable x) (.undefinedVariable x) = y at hl
  generalize env'.lookup scope (·.findVariable x) (.undefinedVariable x) = z at hl
  cases hl with
  | error e => exact .error e
  | @ok hit hit' hq =>
    obtain ⟨owner,b⟩ := hit
    obtain ⟨rfl,_⟩ := hq
    exact h.updateFrame_agree _ fun f f' hr => .ok (hw f f' hr)

lemma push_agree (h : Related r env env') (hr : r .empty .empty) (parent : ℕ) :
    NameError.Agree (fun x y => x.1 = y.1 ∧ Related r x.2 y.2) (env.push parent)
      (env'.push parent) := by
  unfold Environment.push
  rw [h.isOpen_eq parent]
  split
  · exact .ok ⟨h.depth_eq,h.inner hr parent⟩
  · exact .error _

end Environment.Related
end BlockScript
