import BlockScript.Proofs.Typing.Expression
import BlockScript.Proofs.Typing.Slots
/-! Checking an expression decides the rules for it, and fills its slots. -/
namespace BlockScript

lemma Frame.sees_iff {α β γ : Type} {find : Frame α β → Option γ} {fs : List (Frame α β)} {c : γ} :
    Sees find fs c ↔ fs.findSome? find = some c := by
  constructor
  · intro h
    induction h with
    | here h => simp [h]
    | outside h _ ih => simp [h,ih]
  · intro h
    induction fs with
    | nil => simp at h
    | cons f fs ih =>
      rw [List.findSome?_cons] at h
      split at h
      · next hf => exact .here (hf.trans h)
      · next hf => exact .outside hf (ih h)

/-- Every function takes as many arguments as its signature has types. -/
def Frame.Matched {α : Type} (f : Frame α Signature) : Prop :=
  ∀ e ∈ f.functions, e.arity = e.value.parameters.length

namespace Context
variable {Γ : Context}

lemma binds_iff {x : String} {b : Binding Ty} : Γ.Binds x b ↔ Γ.lookupVariable x = .ok b := by
  rw [lookupVariable_eq_ok,Binds,Frame.sees_iff]

lemma knows_iff {f : String} {arity : Nat} {s : Signature} :
    Γ.Knows f arity s ↔ Γ.lookupFunction f arity = .ok s := by
  rw [lookupFunction_eq_ok,Knows,Frame.sees_iff]

def Matched (Γ : Context) : Prop := ∀ f ∈ Γ.frames, f.Matched

lemma Matched.length_eq (h : Γ.Matched) {f : String} {arity : Nat} {s : Signature}
    (hs : Γ.lookupFunction f arity = .ok s) : arity = s.parameters.length := by
  obtain ⟨frame,hf,hs⟩ := List.exists_of_findSome?_eq_some (lookupFunction_eq_ok.mp hs)
  obtain ⟨e,he,rfl⟩ := Option.map_eq_some_iff.mp hs
  have hn := List.find?_some he
  simp only [Bool.and_eq_true,beq_iff_eq] at hn
  rw [← hn.2]
  exact h frame hf e (List.mem_of_find?_eq_some he)

lemma Matched.enter (h : Γ.Matched) : Γ.enter.Matched :=
  List.forall_mem_cons.mpr ⟨nofun,h⟩

lemma Matched.bind (h : Γ.Matched) (b : Binding Ty) : (Γ.bind b).Matched := by
  obtain ⟨hc,hs⟩ := List.forall_mem_cons.mp h
  exact List.forall_mem_cons.mpr ⟨hc,hs⟩

lemma Matched.declare (h : Γ.Matched) {f : Function} {s : Signature}
    (hs : f.arity = s.parameters.length) : (Γ.declare f s).Matched := by
  obtain ⟨hc,ho⟩ := List.forall_mem_cons.mp h
  exact List.forall_mem_cons.mpr ⟨List.forall_mem_cons.mpr ⟨hs,hc⟩,ho⟩

lemma defineVariable_iff {Δ : Context} {b : Binding Ty} :
    Γ.defineVariable b = .ok Δ ↔ Γ.current.findVariable b.name = none ∧ Δ = Γ.bind b :=
  defineVariable_eq_ok

end Context

lemma Ty.assignable_iff {t u : Ty} : t.Assignable u ↔ t.accepts u = true := by
  constructor
  · intro h
    cases h with
    | any => rfl
    | comparable h =>
      simp only [List.mem_cons,List.not_mem_nil,or_false] at h
      rcases h with rfl | rfl | rfl | rfl <;> rfl
    | same h => cases t <;> simp_all [accepts]
  · intro h
    cases t with
    | any => exact .any
    | comparable => cases u <;> simp_all [accepts,isOrdered,Assignable.comparable]
    | _ => simp only [accepts,beq_iff_eq] at h; subst h; exact .same (by simp)

lemma Ty.assignable_comparable {t : Ty} :
    comparable.Assignable t ↔ t.isOrdered = true := assignable_iff

lemma Power.fitsInt32_iff {n : Int} :
    fitsInt32 n = true ↔ -2147483648 ≤ n ∧ n ≤ 2147483647 := by
  simp only [fitsInt32,Bool.and_eq_true,decide_eq_true_eq]
  exact Iff.rfl

lemma Literal.hasType_iff {v : Literal} {t : Ty} : v.HasType t ↔ v.type = .ok t := by
  constructor
  · intro h
    cases h with
    | integer h => simp [type,Power.fitsInt32_iff.mpr h]
    | decimal h => simp [type,h]
    | _ => rfl
  · intro h
    cases v with
    | integer n =>
      simp only [type] at h
      split at h
      · next hn => cases h; exact .integer (Power.fitsInt32_iff.mp hn)
      · cases h
    | decimal d =>
      simp only [type] at h
      split at h
      · next hd => cases h; exact .decimal hd
      · cases h
    | _ => cases h; constructor

/-- What a result may be paired with is settled by the result. -/
lemma Checked.exists_eq_ok {α β : Type} {r : Checked (α × β)} {a : α} {b c : β}
    (h : r = .ok (a,b)) : (∃ d, r = .ok (d,c)) ↔ c = b := by
  rw [h]
  simp [eq_comm]

namespace Expr
variable {Γ : Context}

/-- The rules for operators are the table of their types. -/
lemma hasType_binary {op : Operator} {l r : Expr} {s : Option Ty} {t : Ty} :
    (binary op l r s).HasType Γ t ↔
      ∃ a b, l.HasType Γ a ∧ r.HasType Γ b ∧ op.type a b = .ok t := by
  constructor
  · intro h
    cases h with
    | logical ho hl hr => exact ⟨_,_,hl,hr,(Operator.type_logical ho).mpr ⟨rfl,rfl,rfl⟩⟩
    | ordering ho hl hr ha hb =>
      exact ⟨_,_,hl,hr,(Operator.type_ordering ho).mpr
        ⟨rfl,Ty.assignable_comparable.mp ha,Ty.assignable_comparable.mp hb⟩⟩
    | equality ho hl hr => rcases ho with rfl | rfl <;> exact ⟨_,_,hl,hr,rfl⟩
    | joining hl hr h => exact ⟨_,_,hl,hr,if_pos h⟩
    | arithmetic ho ht hl hr =>
      have hn : Operator.type.numeric op t t = .ok t := Operator.numeric_eq_ok.mpr ⟨rfl,rfl,ht⟩
      refine ⟨t,t,hl,hr,?_⟩
      simp only [List.mem_cons,List.not_mem_nil,or_false] at ho
      rcases ho with rfl | rfl | rfl | rfl
      · rw [← hn]
        exact if_neg (by rcases ht with rfl | rfl <;> simp)
      all_goals exact hn
    | power hl hr => exact ⟨_,_,hl,hr,rfl⟩
  · rintro ⟨a,b,hl,hr,h⟩
    have numeric {op : Operator} (ho : op ∈ [Operator.add,.subtract,.multiply,.divide])
        (hn : Operator.type.numeric op a b = .ok t) : (binary op l r s).HasType Γ t := by
      obtain ⟨rfl,rfl,ht⟩ := Operator.numeric_eq_ok.mp hn
      exact .arithmetic ho ht hl hr
    cases op with
    | and | or =>
      obtain ⟨rfl,rfl,rfl⟩ := (Operator.type_logical (by simp)).mp h
      exact .logical (by simp) hl hr
    | less | lessEqual | greater | greaterEqual =>
      obtain ⟨rfl,ha,hb⟩ := (Operator.type_ordering rfl).mp h
      exact .ordering rfl hl hr (Ty.assignable_comparable.mpr ha) (Ty.assignable_comparable.mpr hb)
    | equal | notEqual => cases h; exact .equality (by simp) hl hr
    | add =>
      simp only [Operator.type] at h
      split at h
      · next hs => cases h; exact .joining hl hr hs
      · exact numeric (by simp) h
    | subtract | multiply | divide => exact numeric (by simp) h
    | power =>
      simp only [Operator.type] at h
      split at h
      · next hi => obtain ⟨rfl,rfl⟩ := hi; cases h; exact .power hl hr
      · simp at h

mutual
/-- An expression is checked successfully at the types that the rules give it. -/
theorem check_iff (hΓ : Γ.Matched) (e : Expr) (t : Ty) :
    (∃ e', e.check Γ = .ok (e',t)) ↔ e.HasType Γ t := by
  cases e with
  | literal v s =>
    simp only [check_literal]
    constructor
    · rintro ⟨_,hv,_⟩
      exact .literal (Literal.hasType_iff.mpr hv)
    · intro h
      cases h with
      | literal hv => exact ⟨_,Literal.hasType_iff.mp hv,rfl⟩
  | group e s =>
    simp only [check_group]
    constructor
    · rintro ⟨_,e',he,_⟩
      exact .group ((check_iff hΓ e t).mp ⟨e',he⟩)
    · intro h
      cases h with
      | group he =>
        obtain ⟨e',he⟩ := (check_iff hΓ e t).mpr he
        exact ⟨_,e',he,rfl⟩
  | binary op l r s =>
    simp only [check_binary]
    rw [hasType_binary]
    constructor
    · rintro ⟨_,l',a,r',b,hl,hr,ht,_⟩
      exact ⟨a,b,(check_iff hΓ l a).mp ⟨l',hl⟩,(check_iff hΓ r b).mp ⟨r',hr⟩,ht⟩
    · rintro ⟨a,b,hl,hr,ht⟩
      obtain ⟨l',hl⟩ := (check_iff hΓ l a).mpr hl
      obtain ⟨r',hr⟩ := (check_iff hΓ r b).mpr hr
      exact ⟨_,l',a,r',b,hl,hr,ht,rfl⟩
  | ref x slot s =>
    simp only [check_ref]
    constructor
    · rintro ⟨_,b,hb,rfl,_⟩
      exact .ref (Context.binds_iff.mpr hb)
    · intro h
      cases h with
      | ref hb => exact ⟨_,_,Context.binds_iff.mp hb,rfl,rfl⟩
  | element x i slot s =>
    simp only [check_element]
    constructor
    · rintro ⟨_,b,i',hb,hv,hi,_⟩
      exact .element (Context.binds_iff.mpr hb) hv ((check_iff hΓ i .integer).mp ⟨i',hi⟩)
    · intro h
      cases h with
      | element hb hv hi =>
        obtain ⟨i',hi⟩ := (check_iff hΓ i .integer).mpr hi
        exact ⟨_,_,i',Context.binds_iff.mp hb,hv,hi,rfl⟩
  | call f es slot s =>
    simp only [check_call]
    constructor
    · rintro ⟨_,g,es',hg,hes,rfl,_⟩
      have hl := hΓ.length_eq hg
      exact .call (Context.knows_iff.mpr hg) ((checkArguments_iff hΓ es _ hl).mp ⟨es',hes⟩)
    · intro h
      cases h with
      | call hg hs =>
        have hg := Context.knows_iff.mp hg
        obtain ⟨es',hes⟩ := (checkArguments_iff hΓ es _ (hΓ.length_eq hg)).mpr hs
        exact ⟨_,_,es',hg,hes,rfl,rfl⟩
  | list es s =>
    simp only [check_list]
    cases es with
    | nil =>
      constructor
      · rintro ⟨_,_,_,h,_⟩
        simp [checkElements_nil] at h
      · exact nofun
    | cons e es =>
      constructor
      · rintro ⟨_,_,u,h,rfl,_⟩
        obtain ⟨e',v,es',he,_,hes,_⟩ := checkElements_cons.mp h
        obtain ⟨rfl,hs⟩ := (checkElements_iff hΓ es v u).mp ⟨es',hes⟩
        exact .list ((check_iff hΓ e u).mp ⟨e',he⟩) hs
      · intro h
        cases h with
        | @list _ _ u _ he hs =>
          obtain ⟨e',he⟩ := (check_iff hΓ e u).mpr he
          obtain ⟨es',hes⟩ := (checkElements_iff hΓ es u u).mpr ⟨rfl,hs⟩
          exact ⟨_,_,u,checkElements_cons.mpr ⟨e',u,es',he,by simp,hes,rfl⟩,rfl,rfl⟩

theorem checkArguments_iff (hΓ : Γ.Matched) (es : List Expr) (ts : List Ty)
    (hl : es.length = ts.length) : (∃ es', checkArguments Γ es ts = .ok es') ↔ Fit Γ es ts := by
  cases es with
  | nil =>
    cases ts with
    | nil => exact ⟨fun _ => .nil,fun _ => ⟨[],rfl⟩⟩
    | cons t ts => cases hl
  | cons e es =>
    cases ts with
    | nil => cases hl
    | cons t ts =>
      simp only [checkArguments_cons]
      constructor
      · rintro ⟨_,e',u,es',he,ha,hes,_⟩
        exact .cons ((check_iff hΓ e u).mp ⟨e',he⟩) (Ty.assignable_iff.mpr ha)
          ((checkArguments_iff hΓ es ts (Nat.succ.inj hl)).mp ⟨es',hes⟩)
      · intro h
        cases h with
        | @cons _ _ _ _ u he ha hs =>
          obtain ⟨e',he⟩ := (check_iff hΓ e u).mpr he
          obtain ⟨es',hes⟩ := (checkArguments_iff hΓ es ts (Nat.succ.inj hl)).mpr hs
          exact ⟨_,e',u,es',he,Ty.assignable_iff.mp ha,hes,rfl⟩

theorem checkElements_iff (hΓ : Γ.Matched) (es : List Expr) (d t : Ty) :
    (∃ es', checkElements Γ (some d) es = .ok (es',t)) ↔
      t = d ∧ Fit Γ es (List.replicate es.length d) := by
  cases es with
  | nil =>
    simp only [checkElements_nil,Option.some.injEq]
    exact ⟨fun ⟨_,h,_⟩ => ⟨h.symm,.nil⟩,fun ⟨h,_⟩ => ⟨[],h.symm,rfl⟩⟩
  | cons e es =>
    simp only [checkElements_cons,Option.getD_some,List.length_cons,List.replicate_succ]
    constructor
    · rintro ⟨_,e',u,es',he,ha,hes,_⟩
      obtain ⟨rfl,hs⟩ := (checkElements_iff hΓ es d t).mp ⟨es',hes⟩
      exact ⟨rfl,.cons ((check_iff hΓ e u).mp ⟨e',he⟩) (Ty.assignable_iff.mpr (ha _ rfl)) hs⟩
    · rintro ⟨rfl,h⟩
      cases h with
      | @cons _ _ _ _ u he ha hs =>
        obtain ⟨e',he⟩ := (check_iff hΓ e u).mpr he
        obtain ⟨es',hes⟩ := (checkElements_iff hΓ es t t).mpr ⟨rfl,hs⟩
        exact ⟨_,e',u,es',he,by simpa using Ty.assignable_iff.mp ha,hes,rfl⟩
end

mutual
/-- Slots are not read: a checked expression is checked to itself. -/
theorem check_again (e : Expr) {e' : Expr} {t : Ty} (h : e.check Γ = .ok (e',t)) :
    e'.check Γ = .ok (e',t) := by
  cases e with
  | literal v s =>
    obtain ⟨hv,rfl⟩ := check_literal.mp h
    exact check_literal.mpr ⟨hv,rfl⟩
  | group e s =>
    obtain ⟨i,hi,rfl⟩ := check_group.mp h
    exact check_group.mpr ⟨i,check_again e hi,rfl⟩
  | binary op l r s =>
    obtain ⟨l',a,r',b,hl,hr,ht,rfl⟩ := check_binary.mp h
    exact check_binary.mpr ⟨l',a,r',b,check_again l hl,check_again r hr,ht,rfl⟩
  | ref x slot s =>
    obtain ⟨b,hb,rfl,rfl⟩ := check_ref.mp h
    exact check_ref.mpr ⟨b,hb,rfl,rfl⟩
  | element x i slot s =>
    obtain ⟨b,i',hb,hv,hi,rfl⟩ := check_element.mp h
    exact check_element.mpr ⟨b,i',hb,hv,check_again i hi,rfl⟩
  | call f es slot s =>
    obtain ⟨g,es',hg,hes,rfl,rfl⟩ := check_call.mp h
    obtain ⟨hl,hs⟩ := checkArguments_again es hes
    exact check_call.mpr ⟨g,es',hl ▸ hg,hs,rfl,rfl⟩
  | list es s =>
    obtain ⟨es',u,hes,rfl,rfl⟩ := check_list.mp h
    exact check_list.mpr ⟨es',u,checkElements_again es hes,rfl,rfl⟩

theorem checkArguments_again (es : List Expr) {es' : List Expr} {ts : List Ty}
    (h : checkArguments Γ es ts = .ok es') :
    es.length = es'.length ∧ checkArguments Γ es' ts = .ok es' := by
  cases es with
  | nil => cases h; exact ⟨rfl,rfl⟩
  | cons e es =>
    cases ts with
    | nil => cases h; exact ⟨rfl,rfl⟩
    | cons t ts =>
      obtain ⟨e',u,is,he,ha,hes,rfl⟩ := checkArguments_cons.mp h
      obtain ⟨hl,hs⟩ := checkArguments_again es hes
      exact ⟨congrArg Nat.succ hl,checkArguments_cons.mpr ⟨e',u,is,check_again e he,ha,hs,rfl⟩⟩

theorem checkElements_again (es : List Expr) {es' : List Expr} {d : Option Ty} {t : Ty}
    (h : checkElements Γ d es = .ok (es',t)) : checkElements Γ d es' = .ok (es',t) := by
  cases es with
  | nil =>
    obtain ⟨rfl,rfl⟩ := checkElements_nil.mp h
    exact h
  | cons e es =>
    obtain ⟨e',u,is,he,hd,hes,rfl⟩ := checkElements_cons.mp h
    exact checkElements_cons.mpr ⟨e',u,is,check_again e he,hd,checkElements_again es hes,rfl⟩
end

lemma list_of_bare {e : Expr} {es : List Expr} {s : Option Ty} (h : e.bare = (list es s).bare) :
    ∃ es s, e = list es s := by
  cases e <;> simp_all [bare]

mutual
/-- Checking changes nothing but slots. -/
theorem bare_of_check (e : Expr) {e' : Expr} {t : Ty} (h : e.check Γ = .ok (e',t)) :
    e'.bare = e.bare := by
  cases e with
  | literal v s => obtain ⟨_,rfl⟩ := check_literal.mp h; rfl
  | group e s =>
    obtain ⟨i,hi,rfl⟩ := check_group.mp h
    simp only [bare,bare_of_check e hi]
  | binary op l r s =>
    obtain ⟨l',a,r',b,hl,hr,_,rfl⟩ := check_binary.mp h
    simp only [bare,bare_of_check l hl,bare_of_check r hr]
  | ref x slot s => obtain ⟨_,_,_,rfl⟩ := check_ref.mp h; rfl
  | element x i slot s =>
    obtain ⟨b,i',_,_,hi,rfl⟩ := check_element.mp h
    simp only [bare,bare_of_check i hi]
  | call f es slot s =>
    obtain ⟨g,es',_,hes,_,rfl⟩ := check_call.mp h
    simp only [bare,bareAll_of_checkArguments es hes]
  | list es s =>
    obtain ⟨es',u,hes,_,rfl⟩ := check_list.mp h
    simp only [bare,bareAll_of_checkElements es hes]

theorem bareAll_of_checkArguments (es : List Expr) {es' : List Expr} {ts : List Ty}
    (h : checkArguments Γ es ts = .ok es') : bareAll es' = bareAll es := by
  cases es with
  | nil => cases h; rfl
  | cons e es =>
    cases ts with
    | nil => cases h; rfl
    | cons t ts =>
      obtain ⟨e',u,is,he,_,hes,rfl⟩ := checkArguments_cons.mp h
      simp only [bareAll,bare_of_check e he,bareAll_of_checkArguments es hes]

theorem bareAll_of_checkElements (es : List Expr) {es' : List Expr} {d : Option Ty} {t : Ty}
    (h : checkElements Γ d es = .ok (es',t)) : bareAll es' = bareAll es := by
  cases es with
  | nil => obtain ⟨_,rfl⟩ := checkElements_nil.mp h; rfl
  | cons e es =>
    obtain ⟨e',u,is,he,_,hes,rfl⟩ := checkElements_cons.mp h
    simp only [bareAll,bare_of_check e he,bareAll_of_checkElements es hes]
end

lemma carries_of_check (hΓ : Γ.Matched) {e : Expr} {t : Ty} (h : e.check Γ = .ok (e,t)) :
    e.Carries Γ :=
  ⟨t,ty_of_check h,fun u => (check_iff hΓ e u).symm.trans (Checked.exists_eq_ok h)⟩

mutual
/-- Every node of a checked expression holds what the rules derive for it. -/
theorem filled_of_check (hΓ : Γ.Matched) (e : Expr) {e' : Expr} {t : Ty}
    (h : e.check Γ = .ok (e',t)) : e'.Filled Γ := by
  have hc := carries_of_check hΓ (check_again e h)
  cases e with
  | literal v s =>
    obtain ⟨_,rfl⟩ := check_literal.mp h
    exact hc
  | group e s =>
    obtain ⟨i,hi,rfl⟩ := check_group.mp h
    exact ⟨hc,filled_of_check hΓ e hi⟩
  | binary op l r s =>
    obtain ⟨l',a,r',b,hl,hr,_,rfl⟩ := check_binary.mp h
    exact ⟨hc,filled_of_check hΓ l hl,filled_of_check hΓ r hr⟩
  | ref x slot s =>
    obtain ⟨b,hb,rfl,rfl⟩ := check_ref.mp h
    exact ⟨hc,b,rfl,Context.binds_iff.mpr hb⟩
  | element x i slot s =>
    obtain ⟨b,i',hb,_,hi,rfl⟩ := check_element.mp h
    exact ⟨hc,⟨b,rfl,Context.binds_iff.mpr hb⟩,filled_of_check hΓ i hi⟩
  | call f es slot s =>
    obtain ⟨g,es',hg,hes,rfl,rfl⟩ := check_call.mp h
    have hl := (checkArguments_again es hes).1
    exact ⟨hc,⟨g,rfl,Context.knows_iff.mpr (hl ▸ hg)⟩,
      allFilled_of_checkArguments hΓ es (hΓ.length_eq hg) hes⟩
  | list es s =>
    obtain ⟨es',u,hes,rfl,rfl⟩ := check_list.mp h
    exact ⟨hc,allFilled_of_checkElements hΓ es hes⟩

theorem allFilled_of_checkArguments (hΓ : Γ.Matched) (es : List Expr) {es' : List Expr}
    {ts : List Ty} (hl : es.length = ts.length) (h : checkArguments Γ es ts = .ok es') :
    AllFilled Γ es' := by
  cases es with
  | nil => cases h; trivial
  | cons e es =>
    cases ts with
    | nil => cases hl
    | cons t ts =>
      obtain ⟨e',u,is,he,_,hes,rfl⟩ := checkArguments_cons.mp h
      exact ⟨filled_of_check hΓ e he,allFilled_of_checkArguments hΓ es (Nat.succ.inj hl) hes⟩

theorem allFilled_of_checkElements (hΓ : Γ.Matched) (es : List Expr) {es' : List Expr}
    {d : Option Ty} {t : Ty} (h : checkElements Γ d es = .ok (es',t)) : AllFilled Γ es' := by
  cases es with
  | nil => obtain ⟨_,rfl⟩ := checkElements_nil.mp h; trivial
  | cons e es =>
    obtain ⟨e',u,is,he,_,hes,rfl⟩ := checkElements_cons.mp h
    exact ⟨filled_of_check hΓ e he,allFilled_of_checkElements hΓ es hes⟩
end

variable {x : String} {typeName : Option String} {value value' : Option Expr} {t : Ty}

theorem checkInitial_iff (hΓ : Γ.Matched) :
    (∃ value', checkInitial Γ x typeName value = .ok (value',t)) ↔ Declares Γ typeName value t := by
  simp only [checkInitial_eq_ok]
  constructor
  · rintro ⟨_,⟨rfl,_,n,rfl,hn⟩ | ⟨e,i,u,rfl,_,hi,⟨rfl,rfl⟩ | ⟨n,rfl,hn,ha⟩⟩⟩
    · exact .typed hn
    · exact .initial ((check_iff hΓ e t).mp ⟨i,hi⟩)
    · exact .both hn ((check_iff hΓ e u).mp ⟨i,hi⟩) (Ty.assignable_iff.mpr ha)
  · intro h
    cases h with
    | typed hn => exact ⟨_,.inl ⟨rfl,rfl,_,rfl,hn⟩⟩
    | initial he =>
      obtain ⟨i,hi⟩ := (check_iff hΓ _ _).mpr he
      exact ⟨_,.inr ⟨_,i,_,rfl,rfl,hi,.inl ⟨rfl,rfl⟩⟩⟩
    | both hn he ha =>
      obtain ⟨i,hi⟩ := (check_iff hΓ _ _).mpr he
      exact ⟨_,.inr ⟨_,i,_,rfl,rfl,hi,.inr ⟨_,rfl,hn,Ty.assignable_iff.mp ha⟩⟩⟩

lemma checkInitial_again (h : checkInitial Γ x typeName value = .ok (value',t)) :
    checkInitial Γ x typeName value' = .ok (value',t) := by
  rcases checkInitial_eq_ok.mp h with ⟨rfl,rfl,_⟩ | ⟨e,i,u,rfl,rfl,hi,ht⟩
  · exact h
  · exact checkInitial_eq_ok.mpr (.inr ⟨i,i,u,rfl,rfl,check_again e hi,ht⟩)

/-- A checked initial value is an initial value of the same type, with filled slots. -/
theorem filled_of_checkInitial (hΓ : Γ.Matched)
    (h : checkInitial Γ x typeName value = .ok (value',t)) :
    (∀ u, Declares Γ typeName value' u ↔ u = t) ∧ (∀ e ∈ value', e.Filled Γ) ∧
      value'.map bare = value.map bare := by
  refine ⟨fun u => (checkInitial_iff hΓ).symm.trans
    (Checked.exists_eq_ok (checkInitial_again h)),?_⟩
  rcases checkInitial_eq_ok.mp h with ⟨rfl,rfl,_⟩ | ⟨e,i,u,rfl,rfl,hi,_⟩
  · exact ⟨by simp,rfl⟩
  · refine ⟨?_,by simp only [Option.map_some,bare_of_check e hi]⟩
    rintro _ ⟨⟩
    exact filled_of_check hΓ e hi

end Expr
end BlockScript
