import BlockScript.Proofs.Scopes.Frames
import BlockScript.Proofs.Scopes.Related
import Mathlib.Data.List.Forall2
import Mathlib.Data.List.Nodup
import Mathlib.Data.List.Perm.Subperm
/-! What may happen to open scopes while something runs in one of them: variables change their values,
and that one scope gains some names. -/
namespace BlockScript
variable {α β : Type}

/-- The same variable later; one that is not mutable holds the same value. -/
structure Binding.Kept (b b' : Binding α) : Prop where
  name : b'.name = b.name
  mutable : b'.mutable = b.mutable
  value : b.mutable = false → b'.value = b.value

namespace Binding.Kept

lemma refl (b : Binding α) : b.Kept b := ⟨rfl,rfl,fun _ => rfl⟩

lemma trans {a b c : Binding α} (hab : a.Kept b) (hbc : b.Kept c) : a.Kept c :=
  ⟨hbc.name.trans hab.name,hbc.mutable.trans hab.mutable,
    fun h => (hbc.value (hab.mutable.trans h)).trans (hab.value h)⟩

lemma map_name {bs cs : List (Binding α)} (h : List.Forall₂ Kept bs cs) :
    cs.map (·.name) = bs.map (·.name) := by
  induction h with
  | nil => rfl
  | cons h _ ih => rw [List.map_cons,List.map_cons,h.name,ih]

lemma trans_all {as bs cs : List (Binding α)} (hab : List.Forall₂ Kept as bs)
    (hbc : List.Forall₂ Kept bs cs) : List.Forall₂ Kept as cs := by
  induction hab generalizing cs with
  | nil => exact hbc
  | cons h _ ih =>
    cases hbc with
    | cons h' hs' => exact .cons (h.trans h') (ih hs')

end Binding.Kept

namespace Frame
variable {f : Frame α β} {x : String} {b : Binding α}

/-- The variable that is found is the only one of its name. -/
lemma eq_of_findVariable (hn : (f.bindings.map (·.name)).Nodup) (hb : f.findVariable x = some b)
    {c : Binding α} (hc : c ∈ f.bindings) (hx : c.name = x) : c = b := by
  have hmem : b ∈ f.bindings := List.mem_of_find?_eq_some hb
  exact List.inj_on_of_nodup_map hn hc hmem (hx.trans (name_of_findVariable hb).symm)

/-- Writing the value back that is found changes nothing. -/
lemma writeVariable_self (hn : (f.bindings.map (·.name)).Nodup) (hb : f.findVariable x = some b) :
    f.writeVariable x b.value = f := by
  have hmap : (f.bindings.map fun c => if c.name == x then { c with value := b.value } else c) =
      f.bindings.map id := by
    apply List.map_congr_left
    intro c hc
    split
    · next hx => rw [eq_of_findVariable hn hb hc (beq_iff_eq.mp hx),id]
    · rfl
  rw [writeVariable,hmap,List.map_id]

end Frame

/-- The names of one scope later: all that were there and some of the given ones, each once. -/
structure Frame.Grows (names : List String) (f f' : Frame α β) : Prop where
  functions : f'.functions = f.functions
  bindings : ∃ added kept, f'.bindings = added ++ kept ∧
    List.Forall₂ Binding.Kept f.bindings kept ∧ (added.map (·.name)).Subperm names

namespace Frame.Grows
variable {xs ys : List String} {f g h : Frame α β}

lemma refl (f : Frame α β) : f.Grows [] f :=
  ⟨rfl,[],f.bindings,rfl,List.forall₂_same.mpr fun b _ => .refl b,List.nil_subperm⟩

lemma trans (hf : f.Grows xs g) (hg : g.Grows ys h) : f.Grows (xs ++ ys) h := by
  obtain ⟨hff,added,kept,hb,hk,ha⟩ := hf
  obtain ⟨hgf,more,later,hc,hl,hm⟩ := hg
  rw [hb] at hl
  -- the first names that came after `f` are among the later ones of `g`
  have hadded : List.Forall₂ Binding.Kept added (later.take added.length) := by
    simpa using List.forall₂_take added.length hl
  have hkept : List.Forall₂ Binding.Kept kept (later.drop added.length) := by
    simpa using List.forall₂_drop added.length hl
  refine ⟨hgf.trans hff,more ++ later.take added.length,later.drop added.length,?_,
    Binding.Kept.trans_all hk hkept,?_⟩
  · rw [hc,List.append_assoc,List.take_append_drop]
  · rw [List.map_append,Binding.Kept.map_name hadded]
    exact (hm.append ha).trans List.perm_append_comm.subperm

lemma mono (hf : f.Grows xs g) (h : xs.Subperm ys) : f.Grows ys g := by
  obtain ⟨hff,added,kept,hb,hk,ha⟩ := hf
  exact ⟨hff,added,kept,hb,hk,ha.trans h⟩

lemma define (f : Frame α β) (b : Binding α) :
    f.Grows [b.name] { f with bindings := b :: f.bindings } :=
  ⟨rfl,[b],f.bindings,rfl,List.forall₂_same.mpr fun b _ => .refl b,.refl _⟩

/-- A value is written to a variable that is mutable and has its name alone. -/
lemma write {x : String} {b : Binding α} (hn : (f.bindings.map (·.name)).Nodup)
    (hb : f.findVariable x = some b) (hm : b.mutable = true) (v : α) :
    f.Grows [] (f.writeVariable x v) := by
  refine ⟨rfl,[],_,rfl,?_,List.nil_subperm⟩
  rw [List.forall₂_map_right_iff,List.forall₂_same]
  intro c hc
  split
  · next hx =>
    obtain rfl := eq_of_findVariable hn hb hc (beq_iff_eq.mp hx)
    exact ⟨rfl,rfl,fun h => by simp [hm] at h⟩
  · exact .refl c

end Frame.Grows

namespace Environment

/-- Scopes later: the same ones are open, with the same parents, and the given one may have gained
some of the names. -/
def Grows (scope : Nat) (names : List String) (env env' : Environment α β) : Prop :=
  ∀ i : Nat, Option.Rel (fun s s' : Scope α β => s.parent = s'.parent ∧
    s.frame.Grows (if i = scope then names else []) s'.frame) env.scopes[i]? env'.scopes[i]?

namespace Grows
variable {scope : Nat} {xs ys : List String} {env env' env'' : Environment α β}

lemma refl (scope : Nat) (env : Environment α β) : env.Grows scope [] env := by
  intro i
  cases env.scopes[i]? with
  | none => exact .none
  | some s => exact .some ⟨rfl,by rw [ite_self]; exact .refl _⟩

lemma trans (h : env.Grows scope xs env') (h' : env'.Grows scope ys env'') :
    env.Grows scope (xs ++ ys) env'' := by
  intro i
  have hi := h i
  have hi' := h' i
  generalize env.scopes[i]? = a at hi
  generalize env'.scopes[i]? = b at hi hi'
  generalize env''.scopes[i]? = c at hi'
  cases hi with
  | none => cases hi'; exact .none
  | some hs =>
    cases hi' with
    | some hs' =>
      refine .some ⟨hs.1.trans hs'.1,?_⟩
      have hg := hs.2.trans hs'.2
      by_cases hi : i = scope
      · simpa only [hi,↓reduceIte] using hg
      · simpa only [hi,↓reduceIte,List.append_nil] using hg

lemma mono (h : env.Grows scope xs env') (hxs : xs.Subperm ys) : env.Grows scope ys env' := by
  intro i
  have hi := h i
  generalize env.scopes[i]? = a at hi
  generalize env'.scopes[i]? = b at hi
  cases hi with
  | none => exact .none
  | some hs =>
    refine .some ⟨hs.1,hs.2.mono ?_⟩
    split
    · exact hxs
    · exact .refl _

/-- Function tables stay. -/
lemma related (h : env.Grows scope xs env') :
    env.Related (fun f f' => f'.functions = f.functions) env' := by
  intro i
  have hi := h i
  generalize env.scopes[i]? = a at hi
  generalize env'.scopes[i]? = b at hi
  cases hi with
  | none => exact .none
  | some hs => exact .some ⟨hs.1,hs.2.functions⟩

lemma depth_eq (h : env.Grows scope xs env') : env'.depth = env.depth := h.related.depth_eq.symm

lemma isOpen (h : env.Grows scope xs env') (i : Nat) : env'.isOpen i = env.isOpen i := by
  rw [Environment.isOpen,h.depth_eq,Environment.isOpen]

/-- One frame changes. -/
lemma setFrame {s : Scope α β} {f : Frame α β} {owner : Nat} (hs : env.scopes[owner]? = some s)
    (hf : s.frame.Grows (if owner = scope then xs else []) f) :
    env.Grows scope xs (env.setFrame owner f) := by
  intro i
  rw [Environment.setFrame,List.getElem?_modify]
  by_cases hi : owner = i
  · subst hi
    simpa [hs] using hf
  · have := (refl scope env).mono (List.nil_subperm : [].Subperm xs) i
    simpa [hi] using this

/-- What ran in a child of a scope leaves the others as they were but for their values. -/
lemma pop_inner {parent : Nat} (hd : 0 < env.depth)
    (h : (env.inner parent).Grows env.depth xs env') :
    env.Grows scope [] (env'.pop env.depth) := by
  intro i
  have hm : max env.depth 1 = env.scopes.length := Nat.max_eq_left hd
  simp only [pop,hm,List.getElem?_take,ite_self]
  by_cases hi : i < env.scopes.length
  · have hrel := h i
    rw [inner,List.getElem?_append_left hi] at hrel
    simpa only [hi,Nat.ne_of_lt hi,depth,↓reduceIte] using hrel
  · rw [List.getElem?_eq_none (Nat.le_of_not_lt hi),if_neg hi]
    exact .none

end Grows
end Environment
end BlockScript
