import BlockScript.Typing.Program
import Mathlib.Data.List.Forall2
import Mathlib.Tactic.Tauto
/-! What a check that succeeds has found, one statement for each form of the tree. -/
namespace BlockScript

namespace Checked
variable {α β : Type}

lemma bind_eq_ok {x : Checked α} {f : α → Checked β} {b : β} :
    (x >>= f) = .ok b ↔ ∃ a, x = .ok a ∧ f a = .ok b := by
  cases x with
  | ok a => exact ⟨fun h => ⟨a,rfl,h⟩,fun ⟨_,ha,h⟩ => by cases ha; exact h⟩
  | error e => exact ⟨fun h => (by cases h),fun ⟨_,ha,_⟩ => (by cases ha)⟩

@[simp] lemma pure_eq_ok {a b : α} : (pure a : Checked α) = .ok b ↔ a = b :=
  ⟨fun h => by cases h; rfl,fun h => by rw [h]; rfl⟩

@[simp] lemma fail_ne_ok {cause : TypeError.Cause} {a : α} : fail cause ≠ .ok a := nofun

@[simp] lemma within_eq_ok {node : Unit → String} {r : Checked α} {a : α} :
    within node r = .ok a ↔ r = .ok a := by
  cases r <;> simp [within]

@[simp] lemma ofNames_eq_ok {r : Except NameError α} {a : α} : ofNames r = .ok a ↔ r = .ok a := by
  cases r <;> simp [ofNames]

end Checked

open Checked (bind_eq_ok)

lemma Ty.require_eq_ok {target source : Ty} {u : Unit} :
    target.require source = .ok u ↔ target.accepts source = true := by
  unfold Ty.require
  split <;> simp [*]

lemma Ty.named_eq_ok {name : String} {t : Ty} : Ty.named name = .ok t ↔ Ty.ofName? name = some t := by
  unfold Ty.named
  split <;> simp [*]

namespace Operator
variable {op : Operator} {left right t : Ty}

lemma numeric_eq_ok : type.numeric op left right = .ok t ↔
    t = left ∧ right = left ∧ (left = .integer ∨ left = .decimal) := by
  unfold type.numeric
  split
  · next h =>
    have ha : left.accepts right = true ↔ right = left := by
      rcases h with rfl | rfl <;> exact beq_iff_eq.trans eq_comm
    simp only [bind_eq_ok,Checked.pure_eq_ok,Ty.require_eq_ok,ha]
    constructor
    · rintro ⟨_,hr,rfl⟩
      exact ⟨rfl,hr,h⟩
    · rintro ⟨rfl,hr,_⟩
      exact ⟨(),hr,rfl⟩
  · next h => simp [h]

/-- The operands of an order are of ordered types, maybe of two. -/
lemma type_ordering (ho : op.isOrdering = true) :
    op.type left right = .ok t ↔ t = .boolean ∧ left.isOrdered = true ∧ right.isOrdered = true := by
  have h : op.type left right = .ok t ↔ ∃ _ : Unit, left.isOrdered = true ∧
      ∃ _ : Unit, right.isOrdered = true ∧ Ty.boolean = t := by
    cases op <;> first
      | exact absurd ho Bool.false_ne_true
      | simp only [type,bind_eq_ok,Checked.pure_eq_ok,Ty.require_eq_ok,Ty.accepts]
  rw [h]
  constructor
  · rintro ⟨_,hl,_,hr,rfl⟩
    exact ⟨rfl,hl,hr⟩
  · rintro ⟨rfl,hl,hr⟩
    exact ⟨(),hl,(),hr,rfl⟩

lemma type_logical (ho : op = .and ∨ op = .or) :
    op.type left right = .ok t ↔ t = .boolean ∧ left = .boolean ∧ right = .boolean := by
  have h : op.type left right = .ok t ↔ ∃ _ : Unit, Ty.boolean = left ∧
      ∃ _ : Unit, Ty.boolean = right ∧ Ty.boolean = t := by
    rcases ho with rfl | rfl <;>
      simp only [type,bind_eq_ok,Checked.pure_eq_ok,Ty.require_eq_ok,Ty.accepts,beq_iff_eq]
  rw [h]
  constructor
  · rintro ⟨_,rfl,_,rfl,rfl⟩
    exact ⟨rfl,rfl,rfl⟩
  · rintro ⟨rfl,rfl,rfl⟩
    exact ⟨(),rfl,(),rfl,rfl⟩

end Operator

namespace Context

lemma lookupVariable_eq_ok {Γ : Context} {x : String} {b : Binding Ty} :
    Γ.lookupVariable x = .ok b ↔ Γ.frames.findSome? (·.findVariable x) = some b := by
  unfold lookupVariable
  split <;> simp [*]

lemma lookupFunction_eq_ok {Γ : Context} {f : String} {arity : Nat} {s : Signature} :
    Γ.lookupFunction f arity = .ok s ↔ Γ.frames.findSome? (·.findFunction f arity) = some s := by
  unfold lookupFunction
  split <;> simp [*]

lemma requireMutable_eq_ok {Γ : Context} {x : String} {u : Unit} :
    Γ.requireMutable x = .ok u ↔ ∃ b, Γ.lookupVariable x = .ok b ∧ b.mutable = true := by
  unfold requireMutable
  rw [bind_eq_ok]
  refine exists_congr fun b => and_congr_right fun _ => ?_
  split <;> simp [*]

/-- A definition succeeds on a name that is new in the innermost frame, and puts it in front. -/
lemma defineVariable_eq_ok {Γ Δ : Context} {b : Binding Ty} :
    Γ.defineVariable b = .ok Δ ↔ Γ.current.findVariable b.name = none ∧
      Δ = ⟨{ Γ.current with bindings := b :: Γ.current.bindings },Γ.enclosing⟩ := by
  unfold defineVariable
  simp only [bind_eq_ok,Checked.ofNames_eq_ok,Checked.pure_eq_ok,Frame.defineVariable]
  cases Γ.current.findVariable b.name with
  | none => simp [eq_comm]
  | some _ => simp

lemma defineFunction_eq_ok {Γ Δ : Context} {f : String} {arity : Nat} {s : Signature} :
    Γ.defineFunction f arity s = .ok Δ ↔ Γ.current.findFunction f arity = none ∧
      Δ = ⟨{ Γ.current with functions := ⟨f,arity,s⟩ :: Γ.current.functions },Γ.enclosing⟩ := by
  unfold defineFunction
  simp only [bind_eq_ok,Checked.ofNames_eq_ok,Checked.pure_eq_ok,Frame.defineFunction]
  cases Γ.current.findFunction f arity with
  | none => simp [eq_comm]
  | some _ => simp

lemma defineAll_cons_eq_ok {Γ Δ : Context} {b : Binding Ty} {bs : List (Binding Ty)} :
    Γ.defineAll (b :: bs) = .ok Δ ↔ ∃ Θ, Γ.defineVariable b = .ok Θ ∧ Θ.defineAll bs = .ok Δ := by
  rw [defineAll,bind_eq_ok]

end Context

namespace Expr
variable {Γ : Context} {e' : Expr} {t : Ty}

lemma check_literal {v : Literal} {s : Option Ty} :
    (literal v s).check Γ = .ok (e',t) ↔ v.type = .ok t ∧ e' = literal v t := by
  rw [check]
  simp only [Checked.within_eq_ok,bind_eq_ok,Checked.pure_eq_ok,Prod.mk.injEq]
  exact ⟨fun ⟨_,hv,he,ht⟩ => ht ▸ ⟨hv,he.symm⟩,fun ⟨hv,he⟩ => ⟨t,hv,he.symm,rfl⟩⟩

example : (literal (.integer 1) none).check ⟨.empty,[]⟩ =
    .ok (literal (.integer 1) (some .integer),.integer) := by
  cbv

lemma check_group {e : Expr} {s : Option Ty} :
    (group e s).check Γ = .ok (e',t) ↔ ∃ i, e.check Γ = .ok (i,t) ∧ e' = group i t := by
  rw [check]
  simp only [Checked.within_eq_ok,bind_eq_ok,Checked.pure_eq_ok,Prod.mk.injEq]
  exact ⟨fun ⟨(i,_),hi,he,ht⟩ => ht ▸ ⟨i,hi,he.symm⟩,fun ⟨i,hi,he⟩ => ⟨(i,t),hi,he.symm,rfl⟩⟩

lemma check_binary {op : Operator} {l r : Expr} {s : Option Ty} :
    (binary op l r s).check Γ = .ok (e',t) ↔ ∃ l' tl r' tr, l.check Γ = .ok (l',tl) ∧
      r.check Γ = .ok (r',tr) ∧ op.type tl tr = .ok t ∧ e' = binary op l' r' t := by
  rw [check]
  simp only [Checked.within_eq_ok,bind_eq_ok,Checked.pure_eq_ok,Prod.mk.injEq]
  constructor
  · rintro ⟨⟨l',tl⟩,hl,⟨r',tr⟩,hr,_,ht,he,rfl⟩
    exact ⟨l',tl,r',tr,hl,hr,ht,he.symm⟩
  · rintro ⟨l',tl,r',tr,hl,hr,ht,rfl⟩
    exact ⟨(l',tl),hl,(r',tr),hr,t,ht,rfl,rfl⟩

lemma check_ref {x : String} {slot : Option (Binding Ty)} {s : Option Ty} :
    (ref x slot s).check Γ = .ok (e',t) ↔
      ∃ b, Γ.lookupVariable x = .ok b ∧ t = b.value ∧ e' = ref x b b.value := by
  rw [check]
  simp only [Checked.within_eq_ok,bind_eq_ok,Checked.pure_eq_ok,Prod.mk.injEq]
  exact exists_congr fun b => ⟨fun ⟨h,he,ht⟩ => ⟨h,ht.symm,he.symm⟩,fun ⟨h,ht,he⟩ => ⟨h,he.symm,ht.symm⟩⟩

lemma check_element {x : String} {i : Expr} {slot : Option (Binding Ty)} {s : Option Ty} :
    (element x i slot s).check Γ = .ok (e',t) ↔
      ∃ b i', Γ.lookupVariable x = .ok b ∧ b.value = .list t ∧ i.check Γ = .ok (i',.integer) ∧
        e' = element x i' b t := by
  rw [check]
  simp only [Checked.within_eq_ok,bind_eq_ok]
  constructor
  · rintro ⟨b,hb,h⟩
    cases hv : b.value with
    | list u =>
      simp only [hv,Ty.element?,bind_eq_ok,Checked.pure_eq_ok,Prod.mk.injEq] at h
      obtain ⟨⟨i',ti⟩,hi,_,hr,he,rfl⟩ := h
      have hint := Ty.require_eq_ok.mp hr
      simp only [Ty.accepts,beq_iff_eq] at hint
      subst hint
      exact ⟨b,i',hb,hv,hi,he.symm⟩
    | _ => simp [hv,Ty.element?] at h
  · rintro ⟨b,i',hb,hv,hi,rfl⟩
    refine ⟨b,hb,?_⟩
    simp only [hv,Ty.element?,bind_eq_ok,Checked.pure_eq_ok]
    exact ⟨(i',.integer),hi,(),Ty.require_eq_ok.mpr rfl,rfl⟩

lemma check_call {f : String} {es : List Expr} {slot : Option Signature} {s : Option Ty} :
    (call f es slot s).check Γ = .ok (e',t) ↔
      ∃ g es', Γ.lookupFunction f es.length = .ok g ∧
        checkArguments Γ es g.parameters = .ok es' ∧ t = g.result ∧ e' = call f es' g g.result := by
  rw [check]
  simp only [Checked.within_eq_ok,bind_eq_ok,Checked.pure_eq_ok,Prod.mk.injEq]
  constructor
  · rintro ⟨g,hg,es',hes,he,ht⟩
    exact ⟨g,es',hg,hes,ht.symm,he.symm⟩
  · rintro ⟨g,es',hg,hes,rfl,rfl⟩
    exact ⟨g,hg,es',hes,rfl,rfl⟩

lemma check_list {es : List Expr} {s : Option Ty} :
    (list es s).check Γ = .ok (e',t) ↔
      ∃ es' u, checkElements Γ none es = .ok (es',u) ∧ t = .list u ∧ e' = list es' (Ty.list u) := by
  rw [check]
  simp only [Checked.within_eq_ok,bind_eq_ok,Checked.pure_eq_ok,Prod.mk.injEq]
  constructor
  · rintro ⟨⟨es',u⟩,hes,he,ht⟩
    exact ⟨es',u,hes,ht.symm,he.symm⟩
  · rintro ⟨es',u,hes,rfl,rfl⟩
    exact ⟨(es',u),hes,rfl,rfl⟩

lemma checkArguments_cons {e : Expr} {es es' : List Expr} {ts : List Ty} :
    checkArguments Γ (e :: es) (t :: ts) = .ok es' ↔
      ∃ i u is, e.check Γ = .ok (i,u) ∧ t.accepts u = true ∧ checkArguments Γ es ts = .ok is ∧
        es' = i :: is := by
  rw [checkArguments]
  simp only [bind_eq_ok,Checked.pure_eq_ok]
  constructor
  · rintro ⟨⟨i,u⟩,hi,_,hr,is,his,rfl⟩
    exact ⟨i,u,is,hi,Ty.require_eq_ok.mp hr,his,rfl⟩
  · rintro ⟨i,u,is,hi,hr,his,rfl⟩
    exact ⟨(i,u),hi,(),Ty.require_eq_ok.mpr hr,is,his,rfl⟩

/-- The types of the elements all fit the type of the list's elements, which is the declared type
or else that of the first element. -/
lemma checkElements_cons {e : Expr} {es es' : List Expr} {expected : Option Ty} :
    checkElements Γ expected (e :: es) = .ok (es',t) ↔
      ∃ i u is, e.check Γ = .ok (i,u) ∧ (∀ d ∈ expected, d.accepts u = true) ∧
        checkElements Γ (some (expected.getD u)) es = .ok (is,t) ∧ es' = i :: is := by
  cases expected with
  | none =>
    simp only [checkElements,bind_eq_ok,Checked.pure_eq_ok,Prod.mk.injEq]
    constructor
    · rintro ⟨⟨i,u⟩,hi,_,rfl,⟨is,_⟩,his,rfl,rfl⟩
      exact ⟨i,u,is,hi,by simp,his,rfl⟩
    · rintro ⟨i,u,is,hi,_,his,rfl⟩
      exact ⟨(i,u),hi,u,rfl,(is,t),his,rfl,rfl⟩
  | some c =>
    simp only [checkElements,bind_eq_ok,Checked.pure_eq_ok,Prod.mk.injEq]
    constructor
    · rintro ⟨⟨i,u⟩,hi,_,hr,_,rfl,⟨is,_⟩,his,rfl,rfl⟩
      exact ⟨i,u,is,hi,by simpa using Ty.require_eq_ok.mp hr,his,rfl⟩
    · rintro ⟨i,u,is,hi,hd,his,rfl⟩
      exact ⟨(i,u),hi,(),Ty.require_eq_ok.mpr (hd c rfl),c,rfl,(is,t),his,rfl,rfl⟩

lemma checkElements_nil {es' : List Expr} {expected : Option Ty} :
    checkElements Γ expected [] = .ok (es',t) ↔ expected = some t ∧ es' = [] := by
  cases expected with
  | none => simp [checkElements]
  | some d => simp [checkElements,eq_comm,and_comm]

/-- The slot of a checked expression holds its type. -/
theorem ty_of_check {e : Expr} (h : e.check Γ = .ok (e',t)) : e'.ty = some t := by
  cases e with
  | literal v s => obtain ⟨_,rfl⟩ := check_literal.mp h; rfl
  | group e s => obtain ⟨_,_,rfl⟩ := check_group.mp h; rfl
  | binary op l r s => obtain ⟨_,_,_,_,_,_,_,rfl⟩ := check_binary.mp h; rfl
  | ref x slot s => obtain ⟨_,_,rfl,rfl⟩ := check_ref.mp h; rfl
  | element x i slot s => obtain ⟨_,_,_,_,_,rfl⟩ := check_element.mp h; rfl
  | call f es slot s => obtain ⟨_,_,_,_,rfl,rfl⟩ := check_call.mp h; rfl
  | list es s => obtain ⟨_,_,_,rfl,rfl⟩ := check_list.mp h; rfl

/-- A declaration has a type that its text names, or else that of its initial value. -/
lemma checkInitial_eq_ok {x : String} {typeName : Option String} {value value' : Option Expr} :
    checkInitial Γ x typeName value = .ok (value',t) ↔
      (value = none ∧ value' = none ∧ ∃ n, typeName = some n ∧ Ty.ofName? n = some t) ∨
      ∃ e i u, value = some e ∧ value' = some i ∧ e.check Γ = .ok (i,u) ∧
        ((typeName = none ∧ t = u) ∨
          ∃ n, typeName = some n ∧ Ty.ofName? n = some t ∧ t.accepts u = true) := by
  cases typeName with
  | none =>
    cases value with
    | none => simp [checkInitial]
    | some e =>
      simp only [checkInitial,bind_eq_ok,Checked.pure_eq_ok,Prod.mk.injEq,Prod.exists]
      constructor
      · rintro ⟨i,u,hi,rfl,rfl⟩
        exact .inr ⟨e,i,u,rfl,rfl,hi,.inl ⟨trivial,rfl⟩⟩
      · rintro (⟨h,_⟩ | ⟨_,i,u,h,rfl,hi,⟨_,rfl⟩ | ⟨_,h',_⟩⟩)
        · cases h
        · cases h; exact ⟨i,t,hi,rfl,rfl⟩
        · cases h'
  | some n =>
    cases value with
    | none =>
      simp only [checkInitial,bind_eq_ok,Checked.pure_eq_ok,Prod.mk.injEq,Ty.named_eq_ok]
      constructor
      · rintro ⟨_,hn,rfl,rfl⟩
        exact .inl ⟨trivial,rfl,n,rfl,hn⟩
      · rintro (⟨_,rfl,_,h,hn⟩ | ⟨_,_,_,h,_⟩)
        · cases h; exact ⟨t,hn,rfl,rfl⟩
        · cases h
    | some e =>
      simp only [checkInitial,bind_eq_ok,Checked.pure_eq_ok,Prod.mk.injEq,Prod.exists,
        Ty.named_eq_ok,Ty.require_eq_ok]
      constructor
      · rintro ⟨_,hn,i,u,hi,_,ha,rfl,rfl⟩
        exact .inr ⟨e,i,u,rfl,rfl,hi,.inr ⟨n,rfl,hn,ha⟩⟩
      · rintro (⟨h,_⟩ | ⟨_,i,u,h,rfl,hi,⟨h',_⟩ | ⟨_,h',hn,ha⟩⟩)
        · cases h
        · cases h'
        · cases h; cases h'; exact ⟨t,hn,i,u,hi,(),ha,rfl,rfl⟩

end Expr
end BlockScript
