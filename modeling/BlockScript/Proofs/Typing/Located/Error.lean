import BlockScript.Proofs.Typing.Located.Node
/-! What a check that fails has found: the causes that need a place and those that name it, and the first
member of a row at which it stopped. -/
namespace BlockScript

namespace TypeError

/-- The cause names the place by itself, and no node is added. -/
structure Plain (e : TypeError) : Prop where
  cause : e.cause.isUnplaced = false
  node : e.node = none

/-- An error with a place, or one that needs none, is the same from outside. -/
lemma within_eq_self {e : TypeError} (h : e.Plain ∨ e.node ≠ none) (node : String) :
    e.within node = e := by
  apply if_neg
  rw [Bool.and_eq_true,Option.isNone_iff_eq_none]
  intro ⟨hc,hn⟩
  rcases h with h | h
  · rw [h.cause] at hc
    cases hc
  · exact h hn

lemma within_of {cause : Cause} (h : cause.isUnplaced = true) (node : String) :
    (of cause).within node = ⟨cause,some node⟩ := by
  apply if_pos
  rw [Bool.and_eq_true]
  exact ⟨h,rfl⟩

lemma Plain.message {e : TypeError} (h : e.Plain) : e.message = e.cause.message := by
  rw [TypeError.message,h.node]

lemma message_of_node {e : TypeError} {node : String} (h : e.node = some node) :
    e.message = e.cause.message ++ " In `" ++ node ++ "`." := by
  rw [message,h]
  rfl

lemma plain_of {cause : Cause} (h : cause.isUnplaced = false) : Plain (.of cause) := ⟨h,rfl⟩

end TypeError

namespace Checked
variable {α β : Type} {e : TypeError}

lemma bind_eq_error {x : Checked α} {f : α → Checked β} :
    (x >>= f) = .error e ↔ x = .error e ∨ ∃ a, x = .ok a ∧ f a = .error e := by
  cases x with
  | ok a =>
    constructor
    · exact fun h => .inr ⟨a,rfl,h⟩
    · rintro (h | ⟨_,ha,h⟩)
      · cases h
      · cases ha
        exact h
  | error e' =>
    constructor
    · intro h
      cases h
      exact .inl rfl
    · rintro (h | ⟨_,ha,_⟩)
      · cases h
        rfl
      · cases ha

lemma bind_of_error {x : Checked α} {f : α → Checked β} (h : x = .error e) : (x >>= f) = .error e :=
  bind_eq_error.mpr (.inl h)

lemma bind_of_ok {x : Checked α} {f : α → Checked β} {a : α} (hx : x = .ok a) (h : f a = .error e) :
    (x >>= f) = .error e :=
  bind_eq_error.mpr (.inr ⟨a,hx,h⟩)

@[simp] lemma pure_ne_error {a : α} : (pure a : Checked α) ≠ .error e := nofun

@[simp] lemma fail_eq_error {cause : TypeError.Cause} :
    (fail cause : Checked α) = .error e ↔ e = .of cause := by
  rw [fail,Except.error.injEq,eq_comm]

lemma within_eq_error {node : Unit → String} {r : Checked α} :
    within node r = .error e ↔ ∃ i, r = .error i ∧ e = i.within (node ()) := by
  cases r <;> simp [within,eq_comm]

lemma within_of_error {node : Unit → String} {r : Checked α} (h : r = .error e) :
    within node r = .error (e.within (node ())) :=
  within_eq_error.mpr ⟨e,h,rfl⟩

lemma plain_of_fail {cause : TypeError.Cause} (hc : cause.isUnplaced = false)
    (h : (fail cause : Checked α) = .error e) : e.Plain := by
  rw [fail_eq_error.mp h]
  exact TypeError.plain_of hc

lemma plain_of_ofNames {r : Except NameError α} (h : ofNames r = .error e) : e.Plain := by
  unfold ofNames at h
  split at h
  · cases h
  · exact plain_of_fail rfl h

end Checked

open Checked (bind_eq_error bind_of_error bind_of_ok plain_of_fail)

/-! ### Causes that need a place -/

section
variable {e : TypeError}

lemma Ty.require_eq_error {target source : Ty} :
    target.require source = .error e ↔ target.accepts source = false ∧ e = .of (.mismatch target source) := by
  unfold Ty.require
  split <;> simp [*]

lemma Ty.require_boolean : Ty.boolean.require .boolean = .ok () := rfl

lemma Ty.require_of_not_accepts {target source : Ty} (h : target.accepts source = false) :
    target.require source = .error (.of (.mismatch target source)) :=
  Ty.require_eq_error.mpr ⟨h,rfl⟩

namespace Operator
variable {op : Operator} {left right : Ty}

lemma require_both_error {t : Ty} (h : (do
    t.require left
    t.require right
    return Ty.boolean) = Except.error e) : ∃ cause, cause.isUnplaced = true ∧ e = .of cause := by
  simp only [bind_eq_error,Ty.require_eq_error,Checked.pure_ne_error,and_false,exists_false,or_false] at h
  rcases h with ⟨_,rfl⟩ | ⟨_,_,_,rfl⟩
  · exact ⟨_,rfl,rfl⟩
  · exact ⟨_,rfl,rfl⟩

lemma numeric_error (h : type.numeric op left right = .error e) :
    ∃ cause, cause.isUnplaced = true ∧ e = .of cause := by
  unfold type.numeric at h
  split at h
  · simp only [bind_eq_error,Ty.require_eq_error,Checked.pure_ne_error,and_false,exists_false,or_false] at h
    exact ⟨_,rfl,h.2⟩
  · exact ⟨_,rfl,Checked.fail_eq_error.mp h⟩

/-- Operands that do not fit are told by their types alone. -/
lemma type_error (h : op.type left right = .error e) :
    ∃ cause, cause.isUnplaced = true ∧ e = .of cause := by
  cases op with
  | and | or | less | lessEqual | greater | greaterEqual => exact require_both_error h
  | equal | notEqual => cases h
  | add =>
    simp only [type] at h
    split at h
    · cases h
    · exact numeric_error h
  | subtract | multiply | divide => exact numeric_error h
  | power =>
    simp only [type] at h
    split at h
    · cases h
    · exact ⟨_,rfl,Checked.fail_eq_error.mp h⟩

end Operator

/-! ### Causes that name their place -/

lemma Ty.named_error {name : String} (h : Ty.named name = .error e) : e.Plain := by
  unfold Ty.named at h
  split at h
  · cases h
  · exact plain_of_fail rfl h

lemma Ty.mapM_named_error {typeName : Option String} (h : typeName.mapM named = .error e) : e.Plain := by
  cases typeName with
  | none => cases h
  | some n =>
    rcases bind_eq_error.mp h with h | ⟨_,_,h⟩
    · exact named_error h
    · cases h

lemma Literal.type_error {v : Literal} (h : v.type = .error e) : e.Plain := by
  cases v with
  | nil | boolean _ | character _ | string _ => cases h
  | integer _ | decimal _ =>
    simp only [type] at h
    split at h
    · cases h
    · exact plain_of_fail rfl h

namespace Context
variable {Γ : Context}

lemma lookupVariable_error {x : String} (h : Γ.lookupVariable x = .error e) : e.Plain := by
  unfold lookupVariable at h
  split at h
  · cases h
  · exact plain_of_fail rfl h

lemma lookupFunction_error {f : String} {arity : Nat} (h : Γ.lookupFunction f arity = .error e) :
    e.Plain := by
  unfold lookupFunction at h
  split at h
  · cases h
  · exact plain_of_fail rfl h

lemma requireMutable_error {x : String} (h : Γ.requireMutable x = .error e) : e.Plain := by
  unfold requireMutable at h
  rcases bind_eq_error.mp h with h | ⟨b,_,h⟩
  · exact lookupVariable_error h
  · split at h
    · cases h
    · exact plain_of_fail rfl h

lemma defineVariable_error {b : Binding Ty} (h : Γ.defineVariable b = .error e) : e.Plain := by
  unfold defineVariable at h
  rcases bind_eq_error.mp h with h | ⟨_,_,h⟩
  · exact Checked.plain_of_ofNames h
  · cases h

lemma defineFunction_error {f : String} {arity : Nat} {s : Signature}
    (h : Γ.defineFunction f arity s = .error e) : e.Plain := by
  unfold defineFunction at h
  rcases bind_eq_error.mp h with h | ⟨_,_,h⟩
  · exact Checked.plain_of_ofNames h
  · cases h

lemma defineAll_error {bs : List (Binding Ty)} (h : Γ.defineAll bs = .error e) : e.Plain := by
  induction bs generalizing Γ with
  | nil => cases h
  | cons b bs ih =>
    rw [defineAll] at h
    rcases bind_eq_error.mp h with h | ⟨_,_,h⟩
    · exact defineVariable_error h
    · exact ih h

end Context
end

/-! ### Rows of expressions and statements -/

section
variable {Γ : Context} {err : TypeError}

namespace Expr

lemma checkArguments_cons_error {e : Expr} {es : List Expr} {t : Ty} {ts : List Ty} :
    checkArguments Γ (e :: es) (t :: ts) = .error err ↔ e.check Γ = .error err ∨
      ∃ e' u, e.check Γ = .ok (e',u) ∧ ((t.accepts u = false ∧ err = .of (.mismatch t u)) ∨
        (t.accepts u = true ∧ checkArguments Γ es ts = .error err)) := by
  simp only [checkArguments,bind_eq_error,Ty.require_eq_error,Ty.require_eq_ok,Checked.pure_ne_error,
    and_false,exists_false,or_false,Prod.exists]
  simp only [exists_const]

/-- The first argument that fails or does not fit. -/
lemma checkArguments_eq_error {es : List Expr} {ts : List Ty} :
    checkArguments Γ es ts = .error err ↔ ∃ before e after us t us', es = before ++ e :: after ∧
      ts = us ++ t :: us' ∧ List.Forall₂ (Accepted Γ) before us ∧ (e.check Γ = .error err ∨
        ∃ e' u, e.check Γ = .ok (e',u) ∧ t.accepts u = false ∧ err = .of (.mismatch t u)) := by
  induction es generalizing ts with
  | nil => simp [checkArguments]
  | cons e es ih =>
    cases ts with
    | nil => simp [checkArguments]
    | cons t ts =>
      rw [checkArguments_cons_error,ih]
      constructor
      · rintro (h | ⟨e',u,he,⟨ha,rfl⟩ | ⟨ha,before,i,after,us,t',us',rfl,rfl,hs,h⟩⟩)
        · exact ⟨[],e,es,[],t,ts,rfl,rfl,.nil,.inl h⟩
        · exact ⟨[],e,es,[],t,ts,rfl,rfl,.nil,.inr ⟨e',u,he,ha,rfl⟩⟩
        · exact ⟨e :: before,i,after,t :: us,t',us',rfl,rfl,.cons ⟨e',u,he,ha⟩ hs,h⟩
      · rintro ⟨before,i,after,us,t',us',he,ht,hs,h⟩
        cases hs with
        | nil =>
          cases he
          cases ht
          rcases h with h | ⟨e',u,h,ha,rfl⟩
          · exact .inl h
          · exact .inr ⟨e',u,h,.inl ⟨ha,rfl⟩⟩
        | cons hfirst hs =>
          cases he
          cases ht
          obtain ⟨e',u,he,ha⟩ := hfirst
          exact .inr ⟨e',u,he,.inr ⟨ha,_,i,after,_,t',us',rfl,rfl,hs,h⟩⟩

lemma checkElements_cons_error {d : Option Ty} {e : Expr} {es : List Expr} :
    checkElements Γ d (e :: es) = .error err ↔ e.check Γ = .error err ∨
      ∃ e' u, e.check Γ = .ok (e',u) ∧
        ((∃ t, d = some t ∧ t.accepts u = false ∧ err = .of (.mismatch t u)) ∨
        ((∀ t ∈ d, t.accepts u = true) ∧ checkElements Γ (some (d.getD u)) es = .error err)) := by
  cases d with
  | none =>
    simp only [checkElements,bind_eq_error,Checked.pure_ne_error,Checked.pure_eq_ok,and_false,exists_false,
      or_false,false_or,Prod.exists,exists_eq_left']
    simp
  | some t =>
    simp only [checkElements,bind_eq_error,Ty.require_eq_error,Ty.require_eq_ok,Checked.pure_ne_error,
      Checked.pure_eq_ok,and_false,exists_false,or_false,Prod.exists]
    simp

/-- The first element that fails or does not fit; without any, the declared type is missing. -/
lemma checkElements_eq_error {d : Option Ty} {es : List Expr} :
    checkElements Γ d es = .error err ↔ (d = none ∧ es = [] ∧ err = .of .emptyList) ∨
      ∃ before e after d', es = before ++ e :: after ∧ Expects Γ d before d' ∧ (e.check Γ = .error err ∨
        ∃ e' u t, d' = some t ∧ e.check Γ = .ok (e',u) ∧ t.accepts u = false ∧
          err = .of (.mismatch t u)) := by
  induction es generalizing d with
  | nil => cases d <;> simp [checkElements]
  | cons e es ih =>
    simp only [checkElements_cons_error,ih]
    constructor
    · rintro (h | ⟨e',u,he,⟨t,rfl,ha,rfl⟩ | ⟨ha,⟨h,_⟩ | ⟨before,i,after,d',rfl,hs,h⟩⟩⟩)
      · exact .inr ⟨[],e,es,d,rfl,.nil,.inl h⟩
      · exact .inr ⟨[],e,es,_,rfl,.nil,.inr ⟨e',u,t,rfl,he,ha,rfl⟩⟩
      · cases h
      · exact .inr ⟨e :: before,i,after,d',rfl,.cons he ha hs,h⟩
    · rintro (⟨_,h,_⟩ | ⟨before,i,after,d',he,hs,h⟩)
      · cases h
      · cases hs with
        | nil =>
          cases he
          rcases h with h | ⟨e',u,t,rfl,h,ha,rfl⟩
          · exact .inl h
          · exact .inr ⟨e',u,h,.inl ⟨t,rfl,ha,rfl⟩⟩
        | cons hfirst ha hs =>
          cases he
          exact .inr ⟨_,_,hfirst,.inr ⟨ha,.inr ⟨_,i,after,d',rfl,hs,h⟩⟩⟩

lemma checkInitial_error {x : String} {typeName : Option String} {value : Option Expr}
    (h : checkInitial Γ x typeName value = .error err) :
    err.Plain ∨ ∃ e, value = some e ∧ (∀ n ∈ typeName, ∃ t, Ty.ofName? n = some t) ∧
      (e.check Γ = .error err ∨ ∃ n t e' u, typeName = some n ∧ Ty.ofName? n = some t ∧
        e.check Γ = .ok (e',u) ∧ t.accepts u = false ∧ err = .of (.mismatch t u)) := by
  cases typeName with
  | none =>
    cases value with
    | none => exact .inl (plain_of_fail rfl h)
    | some e =>
      simp only [checkInitial,bind_eq_error,Checked.pure_ne_error,and_false,exists_false,or_false] at h
      have hn : ∀ n ∈ (none : Option String), ∃ t, Ty.ofName? n = some t := by simp
      exact .inr ⟨e,rfl,hn,.inl h⟩
  | some n =>
    cases value with
    | none =>
      simp only [checkInitial,bind_eq_error,Checked.pure_ne_error,and_false,exists_false,or_false] at h
      exact .inl (Ty.named_error h)
    | some e =>
      simp only [checkInitial,bind_eq_error,Ty.named_eq_ok,Ty.require_eq_error,Checked.pure_ne_error,
        and_false,exists_false,or_false,Prod.exists] at h
      rcases h with h | ⟨t,ht,h⟩
      · exact .inl (Ty.named_error h)
      · have hn : ∀ m ∈ some n, ∃ t, Ty.ofName? m = some t := by
          intro m hm
          cases hm
          exact ⟨t,ht⟩
        rcases h with h | ⟨e',u,he,ha,rfl⟩
        · exact .inr ⟨e,rfl,hn,.inl h⟩
        · exact .inr ⟨e,rfl,hn,.inr ⟨n,t,e',u,rfl,ht,he,ha,rfl⟩⟩

lemma checkInitial_of_error {x : String} {typeName : Option String} {e : Expr}
    (hn : ∀ n ∈ typeName, ∃ t, Ty.ofName? n = some t) (h : e.check Γ = .error err) :
    checkInitial Γ x typeName (some e) = .error err := by
  cases typeName with
  | none => exact bind_of_error h
  | some n =>
    obtain ⟨t,ht⟩ := hn n rfl
    exact bind_of_ok (Ty.named_eq_ok.mpr ht) (bind_of_error h)

lemma checkInitial_of_mismatch {x n : String} {t u : Ty} {e e' : Expr} (hn : Ty.ofName? n = some t)
    (he : e.check Γ = .ok (e',u)) (ha : t.accepts u = false) :
    checkInitial Γ x (some n) (some e) = .error (.of (.mismatch t u)) :=
  bind_of_ok (Ty.named_eq_ok.mpr hn) (bind_of_ok he (bind_of_error (Ty.require_of_not_accepts ha)))

end Expr

/-- The first statement that fails. -/
lemma Stmt.checkBlock_eq_error {result : Ty} {ss : List Stmt} :
    checkBlock Γ result ss = .error err ↔ ∃ before before' s after Δ, ss = before ++ s :: after ∧
      Leads result Γ before before' Δ ∧ s.check Δ result = .error err := by
  induction ss generalizing Γ with
  | nil => simp [checkBlock]
  | cons s ss ih =>
    simp only [checkBlock,bind_eq_error,Checked.pure_ne_error,and_false,exists_false,or_false,Prod.exists,ih]
    constructor
    · rintro (h | ⟨s',Θ,hs,before,before',i,after,Δ,rfl,hl,h⟩)
      · exact ⟨[],[],s,ss,Γ,rfl,.nil,h⟩
      · exact ⟨s :: before,s' :: before',i,after,Δ,rfl,.cons hs hl,h⟩
    · rintro ⟨before,before',i,after,Δ,he,hl,h⟩
      cases hl with
      | nil =>
        cases he
        exact .inl h
      | cons hs hl =>
        cases he
        exact .inr ⟨_,_,hs,_,_,i,after,Δ,rfl,hl,h⟩

namespace Case
variable {result t : Ty}

/-- How an arm fails, with the arms after it. -/
inductive Stops (Γ : Context) (result t : Ty) (err : TypeError) : Case → List Case → Prop
  | value {e : Expr} {body : List Stmt} {later : List Case} (hl : later ≠ [])
      (he : e.check Γ = .error err) : Stops Γ result t err (mk (some e) body) later
  | mismatch {e e' : Expr} {u : Ty} {body : List Stmt} {later : List Case} (hl : later ≠ [])
      (he : e.check Γ = .ok (e',u)) (ha : t.accepts u = false) (hr : err = .of (.mismatch t u)) :
    Stops Γ result t err (mk (some e) body) later
  | body {e : Expr} {body : List Stmt} {later : List Case} (hl : later ≠ []) (he : e.Accepted Γ t)
      (hb : Stmt.checkBlock Γ.enter result body = .error err) : Stops Γ result t err (mk (some e) body) later
  | default {body : List Stmt} (hb : Stmt.checkBlock Γ.enter result body = .error err) :
    Stops Γ result t err (mk none body) []

lemma checkAll_arm_error {e : Expr} {body : List Stmt} {later : List Case} (hl : later ≠ []) :
    checkAll Γ result t (mk (some e) body :: later) = .error err ↔ e.check Γ = .error err ∨
      ∃ e' u, e.check Γ = .ok (e',u) ∧ ((t.accepts u = false ∧ err = .of (.mismatch t u)) ∨
        (t.accepts u = true ∧ (Stmt.checkBlock Γ.enter result body = .error err ∨
          ∃ body', Stmt.checkBlock Γ.enter result body = .ok body' ∧
            checkAll Γ result t later = .error err))) := by
  cases later with
  | nil => exact absurd rfl hl
  | cons c cs =>
    simp only [checkAll,bind_eq_error,Ty.require_eq_error,Ty.require_eq_ok,Checked.pure_ne_error,
      and_false,exists_false,or_false,Prod.exists,exists_const]

/-- The first arm that fails, or a default that is missing or not the last arm. -/
lemma checkAll_error {cs : List Case} (h : checkAll Γ result t cs = .error err) :
    err.Plain ∨ ∃ earlier c later, cs = earlier ++ c :: later ∧
      (∀ d ∈ earlier, d.Passed Γ result t) ∧ Stops Γ result t err c later := by
  induction cs with
  | nil => exact .inl (plain_of_fail rfl h)
  | cons c cs ih =>
    obtain ⟨value,body⟩ := c
    cases cs with
    | nil =>
      cases value with
      | some e => exact .inl (plain_of_fail rfl h)
      | none =>
        rw [checkAll] at h
        rcases bind_eq_error.mp h with h | ⟨_,_,h⟩
        · exact .inr ⟨[],_,[],rfl,List.forall_mem_nil _,.default h⟩
        · cases h
    | cons d ds =>
      have hl : d :: ds ≠ [] := List.cons_ne_nil d ds
      cases value with
      | none => exact .inl (plain_of_fail rfl h)
      | some e =>
        rcases (checkAll_arm_error hl).mp h with
          h | ⟨e',u,he,⟨ha,hr⟩ | ⟨ha,h | ⟨body',hb,h⟩⟩⟩
        · exact .inr ⟨[],_,_,rfl,List.forall_mem_nil _,.value hl h⟩
        · exact .inr ⟨[],_,_,rfl,List.forall_mem_nil _,.mismatch hl he ha hr⟩
        · exact .inr ⟨[],_,_,rfl,List.forall_mem_nil _,.body hl ⟨e',u,he,ha⟩ h⟩
        · rcases ih h with h | ⟨earlier,c,later,hcs,hp,hs⟩
          · exact .inl h
          · refine .inr ⟨_ :: earlier,c,later,by rw [hcs,List.cons_append],?_,hs⟩
            rw [List.forall_mem_cons]
            exact ⟨⟨⟨e,rfl,e',u,he,ha⟩,body',hb⟩,hp⟩

lemma checkAll_of_stops {earlier later : List Case} {c : Case} (hp : ∀ d ∈ earlier, d.Passed Γ result t)
    (h : Stops Γ result t err c later) : checkAll Γ result t (earlier ++ c :: later) = .error err := by
  induction earlier with
  | nil =>
    cases h with
    | value hl he => exact (checkAll_arm_error hl).mpr (.inl he)
    | mismatch hl he ha hr => exact (checkAll_arm_error hl).mpr (.inr ⟨_,_,he,.inl ⟨ha,hr⟩⟩)
    | body hl he hb =>
      obtain ⟨e',u,he,ha⟩ := he
      exact (checkAll_arm_error hl).mpr (.inr ⟨e',u,he,.inr ⟨ha,.inl hb⟩⟩)
    | default hb =>
      rw [List.nil_append,checkAll]
      exact bind_eq_error.mpr (.inl hb)
  | cons d earlier ih =>
    obtain ⟨hd,hrest⟩ := List.forall_mem_cons.mp hp
    obtain ⟨value,body⟩ := d
    obtain ⟨⟨e,hv,e',u,he,ha⟩,body',hb⟩ := hd
    obtain rfl : value = some e := hv
    have hl : earlier ++ c :: later ≠ [] := List.append_ne_nil_of_right_ne_nil _ (List.cons_ne_nil c later)
    exact (checkAll_arm_error hl).mpr (.inr ⟨e',u,he,.inr ⟨ha,.inr ⟨body',hb,ih hrest⟩⟩⟩)

end Case
end

end BlockScript
