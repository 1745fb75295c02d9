import BlockScript.Frame
import Mathlib.Tactic.Lemma
import Mathlib.Tactic.Set
/-! What is found in one scope's names after each change of them. -/
namespace BlockScript.Frame
variable {α β : Type}

lemma findVariable_cons (f : Frame α β) (b : Binding α) (x : String) :
    findVariable { f with bindings := b :: f.bindings } x =
      if b.name = x then some b else f.findVariable x := by
  unfold findVariable
  rw [List.find?_cons]
  by_cases h : b.name = x
  · simp [h]
  · rw [if_neg h,beq_eq_false_iff_ne.mpr h]

lemma name_of_findVariable {f : Frame α β} {x : String} {b : Binding α}
    (h : f.findVariable x = some b) : b.name = x :=
  beq_iff_eq.mp (List.find?_some (p := fun b : Binding α => b.name == x) h)

/-- The variable that is written gets the value, and no other variable changes. -/
lemma findVariable_writeVariable (f : Frame α β) (x y : String) (v : α) :
    (f.writeVariable y v).findVariable x =
      if x = y then (f.findVariable x).map fun b => { b with value := v } else f.findVariable x := by
  have hmap : (f.writeVariable y v).findVariable x =
      (f.findVariable x).map fun b => if b.name == y then { b with value := v } else b := by
    simp only [findVariable,writeVariable,List.find?_map]
    congr 2
    funext b
    simp only [Function.comp_apply]
    split <;> rfl
  rw [hmap]
  cases h : f.findVariable x with
  | none => simp
  | some b =>
    have hb := name_of_findVariable h
    by_cases hx : x = y <;> simp [hb,hx]

lemma findFunction_cons (f : Frame α β) (e : Entry β) (x : String) (arity : Nat) :
    findFunction { f with functions := e :: f.functions } x arity =
      if e.name = x ∧ e.arity = arity then some e.value else f.findFunction x arity := by
  unfold findFunction
  rw [List.find?_cons]
  by_cases h : e.name = x ∧ e.arity = arity
  · simp [h]
  · rw [if_neg h]
    have hb : (e.name == x && e.arity == arity) = false := by
      rw [Bool.eq_false_iff]
      simpa using h
    rw [hb]

/-- A replaced function has its new meaning, and no other function changes. -/
lemma findFunction_replaceFunction (f : Frame α β) (x y : String) (arity n : Nat) (c : β) :
    (f.replaceFunction y n c).findFunction x arity =
      if y = x ∧ n = arity then some c else f.findFunction x arity := by
  set others := f.functions.filter fun e => !(e.name == y && e.arity == n) with hothers
  refine (findFunction_cons ⟨f.bindings,others⟩ ⟨y,n,c⟩ x arity).trans ?_
  split
  · rfl
  · next h =>
    simp only [findFunction,hothers,List.find?_filter]
    congr 2
    funext e
    -- the functions that are left out have the replaced key
    by_cases he : e.name = x ∧ e.arity = arity
    · obtain ⟨rfl,rfl⟩ := he
      have hne : ¬ (e.name = y ∧ e.arity = n) := fun hn => h ⟨hn.1.symm,hn.2.symm⟩
      simpa [Decidable.imp_iff_not_or] using hne
    · have hf : (e.name == x && e.arity == arity) = false := by
        rw [Bool.eq_false_iff]
        simpa using he
      simp [hf]

end BlockScript.Frame
