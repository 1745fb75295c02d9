import BlockScript.Proofs.Typing.Located.Error
/-! The rule of a node that fails: its error comes from a node that the rule comes to, from the rule itself, or
has a cause that names its place. -/
namespace BlockScript

open Checked (bind_eq_error bind_of_error bind_of_ok within_eq_error within_of_error plain_of_fail)

lemma Global.checkValue_of_not_list {Γ : Context} {g : Global} {e : Expr} (hv : g.value = some e)
    (hl : e.isList = false) : g.checkValue Γ =
      Checked.within (fun _ => g.render) (Expr.checkInitial Γ g.name g.typeName (some e)) := by
  unfold checkValue
  rw [hv]
  cases e with
  | list es s => cases hl
  | _ => rfl

namespace Node
variable {Γ : Context} {err i : TypeError}

/-- An error as the rule of a node meets it. -/
inductive Meets (n : Node) : TypeError → Prop
  | raises {cause : TypeError.Cause} (h : n.Raises cause) : n.Meets (.of cause)
  | comes {m : Node} {i : TypeError} (h : n.Comes m) (hm : m.Fails i) : n.Meets i
  | plain {i : TypeError} (h : i.Plain) : n.Meets i

lemma meets_of_expr {e : Expr} (h : e.check Γ = .error err) :
    ∃ i, (expr Γ e).Meets i ∧ err = i.within e.render := by
  rw [Expr.check.eq_def] at h
  obtain ⟨i,hi,he⟩ := within_eq_error.mp h
  refine ⟨i,?_,he⟩
  clear h he
  cases e with
  | literal v s =>
    simp only [bind_eq_error,Checked.pure_ne_error,and_false,exists_false,or_false] at hi
    exact .plain (Literal.type_error hi)
  | group e s =>
    simp only [bind_eq_error,Checked.pure_ne_error,and_false,exists_false,or_false] at hi
    exact .comes .group hi
  | binary op l r s =>
    simp only [bind_eq_error,Checked.pure_ne_error,and_false,exists_false,or_false,Prod.exists] at hi
    rcases hi with h | ⟨l',a,hl,h | ⟨r',b,hr,h⟩⟩
    · exact .comes .left h
    · exact .comes (.right hl) h
    · obtain ⟨cause,_,rfl⟩ := Operator.type_error h
      exact .raises (.operands hl hr h)
  | ref x slot s =>
    simp only [bind_eq_error,Checked.pure_ne_error,and_false,exists_false,or_false] at hi
    exact .plain (Context.lookupVariable_error hi)
  | element x j slot s =>
    dsimp only at hi
    rcases bind_eq_error.mp hi with h | ⟨b,hb,h⟩
    · exact .plain (Context.lookupVariable_error h)
    · split at h
      · exact .plain (plain_of_fail rfl h)
      · next t ht =>
        simp only [bind_eq_error,Ty.require_eq_error,Checked.pure_ne_error,and_false,exists_false,or_false,
          Prod.exists] at h
        rcases h with h | ⟨j',u,hj,ha,rfl⟩
        · exact .comes (.index hb ht) h
        · exact .raises (.index hb ht hj ha)
  | call f es slot s =>
    simp only [bind_eq_error,Checked.pure_ne_error,and_false,exists_false,or_false] at hi
    rcases hi with h | ⟨g,hf,h⟩
    · exact .plain (Context.lookupFunction_error h)
    · obtain ⟨before,e,after,us,t,us',rfl,hp,hs,h | ⟨e',u,he,ha,rfl⟩⟩ :=
        Expr.checkArguments_eq_error.mp h
      · exact .comes (.argument hf hp hs) h
      · exact .raises (.argument hf hp hs he ha)
  | list es s =>
    simp only [bind_eq_error,Checked.pure_ne_error,and_false,exists_false,or_false] at hi
    rcases Expr.checkElements_eq_error.mp hi with
      ⟨_,_,rfl⟩ | ⟨before,e,after,d,rfl,hs,h | ⟨e',u,t,rfl,he,ha,rfl⟩⟩
    · exact .plain (TypeError.plain_of rfl)
    · exact .comes (.element hs) h
    · exact .raises (.element hs he ha)

lemma meets_of_stmt {result : Ty} {s : Stmt} (h : s.check Γ result = .error err) :
    ∃ i, (stmt Γ result s).Meets i ∧ err = i.within s.render := by
  rw [Stmt.check.eq_def] at h
  obtain ⟨i,hi,he⟩ := within_eq_error.mp h
  refine ⟨i,?_,he⟩
  clear h he
  cases s with
  | expression e =>
    simp only [bind_eq_error,Checked.pure_ne_error,and_false,exists_false,or_false] at hi
    exact .comes .expression hi
  | declaration x typeName value slot =>
    simp only [bind_eq_error,Checked.pure_ne_error,and_false,exists_false,or_false,Prod.exists] at hi
    rcases hi with h | ⟨_,_,_,h⟩
    · rcases Expr.checkInitial_error h with h | ⟨e,rfl,hn,h | ⟨n,t,e',u,rfl,ht,he,ha,rfl⟩⟩
      · exact .plain h
      · exact .comes (.initial hn) h
      · exact .raises (.initial ht he ha)
    · exact .plain (Context.defineVariable_error h)
  | assignment r e =>
    dsimp only at hi
    split at hi
    · exact .plain (plain_of_fail rfl hi)
    · next x hx =>
      simp only [bind_eq_error,Ty.require_eq_error,Checked.pure_ne_error,and_false,exists_false,or_false,
        Prod.exists] at hi
      rcases hi with h | ⟨r',t,hr,h | ⟨_,hm,h | ⟨e',u,he,ha,rfl⟩⟩⟩
      · exact .comes (.receiver hx) h
      · exact .plain (Context.requireMutable_error h)
      · exact .comes (.assigned hx hr hm) h
      · exact .raises (.assigned hx hr hm he ha)
  | ifElse c thenBlock elseBlock =>
    simp only [bind_eq_error,Ty.require_eq_error,Ty.require_eq_ok,Stmt.accepts_boolean,Prod.exists] at hi
    rcases hi with h | ⟨c',t,hc,⟨ha,rfl⟩ | ⟨_,rfl,h⟩⟩
    · exact .comes .condition h
    · exact .raises (.condition hc ha)
    · split at h
      · rcases bind_eq_error.mp h with h | ⟨_,h,_⟩
        · exact .plain (plain_of_fail rfl h)
        · cases h
      · next hn =>
        simp only [bind_eq_error,Checked.pure_ne_error,and_false,exists_false,or_false,
          Stmt.checkBlock_eq_error] at h
        rcases h with ⟨before,before',s,after,Δ,rfl,hl,h⟩ | ⟨then',ht,before,before',s,after,Δ,rfl,hl,h⟩
        · exact .comes (.thenBlock hc hl) h
        · exact .comes (.elseBlock hc (by simpa using hn) ht hl) h
  | switch c cs =>
    simp only [bind_eq_error,Checked.pure_ne_error,and_false,exists_false,or_false,Prod.exists] at hi
    rcases hi with h | ⟨c',t,hc,h⟩
    · exact .comes .scrutinee h
    · rcases Case.checkAll_error h with h | ⟨earlier,_,_,rfl,hp,hs⟩
      · exact .plain h
      · cases hs with
        | value hl he => exact .comes (.armValue hc hp hl) he
        | mismatch hl he ha hr =>
          subst hr
          exact .raises (.armValue hc hp hl he ha)
        | body hl he hb =>
          obtain ⟨before,before',s,after,Δ,rfl,hlead,hs⟩ := Stmt.checkBlock_eq_error.mp hb
          exact .comes (.armBody hc hp hl he hlead) hs
        | default hb =>
          obtain ⟨before,before',s,after,Δ,rfl,hlead,hs⟩ := Stmt.checkBlock_eq_error.mp hb
          exact .comes (.defaultBody hc hp hlead) hs
  | loop c body =>
    simp only [bind_eq_error,Ty.require_eq_error,Ty.require_eq_ok,Stmt.accepts_boolean,
      Checked.pure_ne_error,and_false,exists_false,or_false,Stmt.checkBlock_eq_error,Prod.exists] at hi
    rcases hi with h | ⟨c',t,hc,⟨ha,rfl⟩ | ⟨_,rfl,before,before',s,after,Δ,rfl,hl,h⟩⟩
    · exact .comes .guard h
    · exact .raises (.guard hc ha)
    · exact .comes (.loopBody hc hl) h
  | ret e =>
    simp only [bind_eq_error,Prod.exists] at hi
    rcases hi with h | ⟨e',u,he,h⟩
    · exact .comes .returned h
    · split at h
      · exact absurd h Checked.pure_ne_error
      · next hne =>
        rw [Checked.fail_eq_error.mp h]
        exact .raises (.returned he hne)

lemma meets_of_global {g : Global} (h : g.checkValue Γ = .error err) :
    ∃ i, (global Γ g).Meets i ∧ err = i.within g.render := by
  rw [Global.checkValue] at h
  obtain ⟨i,hi,he⟩ := within_eq_error.mp h
  refine ⟨i,?_,he⟩
  clear h he
  split at hi
  · next es s hv =>
    simp only [bind_eq_error,Checked.pure_ne_error,and_false,exists_false,or_false] at hi
    rcases hi with h | ⟨d,hd,h⟩
    · exact .plain (Ty.mapM_named_error h)
    · rcases Expr.checkElements_eq_error.mp h with
        ⟨_,_,rfl⟩ | ⟨before,e,after,d',rfl,hs,h | ⟨e',u,t,rfl,he,ha,rfl⟩⟩
      · exact .plain (TypeError.plain_of rfl)
      · exact .comes (.globalElement hv hd hs) h
      · exact .raises (.globalElement hv hd hs he ha)
  · next hl =>
    have hlist {e : Expr} (hv : g.value = some e) : e.isList = false := by
      cases e with
      | list es s => exact absurd hv (hl es s)
      | _ => rfl
    rcases Expr.checkInitial_error hi with h | ⟨e,hv,hn,h | ⟨n,t,e',u,hn,ht,he,ha,rfl⟩⟩
    · exact .plain h
    · exact .comes (.globalInitial hv (hlist hv) hn) h
    · exact .raises (.globalInitial hv (hlist hv) hn ht he ha)

/-- The rule of a node that fails meets the error, and the node is offered as its place. -/
theorem Fails.meets {n : Node} (h : n.Fails err) : ∃ i, n.Meets i ∧ err = i.within n.render := by
  cases n with
  | expr Γ e => exact meets_of_expr h
  | stmt Γ result s => exact meets_of_stmt h
  | global Γ g => exact meets_of_global h

/-- The check of a node fails with the error of the node it comes to. -/
theorem Comes.fails {n m : Node} (h : n.Comes m) (hm : m.Fails i) : n.Fails (i.within n.render) := by
  cases h with
  | group | left =>
    rw [Fails,Expr.check]
    exact within_of_error (bind_of_error hm)
  | right hl =>
    rw [Fails,Expr.check]
    exact within_of_error (bind_of_ok hl (bind_of_error hm))
  | index hb ht =>
    rw [Fails,Expr.check]
    apply within_of_error
    apply bind_of_ok hb
    rw [ht]
    exact bind_of_error hm
  | argument hf hp hs =>
    rw [Fails,Expr.check]
    apply within_of_error
    apply bind_of_ok hf
    apply bind_of_error
    exact Expr.checkArguments_eq_error.mpr ⟨_,_,_,_,_,_,rfl,hp,hs,.inl hm⟩
  | element hs =>
    rw [Fails,Expr.check]
    apply within_of_error
    apply bind_of_error
    exact Expr.checkElements_eq_error.mpr (.inr ⟨_,_,_,_,rfl,hs,.inl hm⟩)
  | expression | condition | scrutinee | guard | returned =>
    rw [Fails,Stmt.check]
    exact within_of_error (bind_of_error hm)
  | initial hn =>
    rw [Fails,Stmt.check]
    exact within_of_error (bind_of_error (Expr.checkInitial_of_error hn hm))
  | receiver hx =>
    rw [Fails,Stmt.check,hx]
    exact within_of_error (bind_of_error hm)
  | assigned hx hr ha =>
    rw [Fails,Stmt.check,hx]
    exact within_of_error (bind_of_ok hr (bind_of_ok ha (bind_of_error hm)))
  | thenBlock hc hl =>
    rw [Fails,Stmt.check]
    apply within_of_error
    apply bind_of_ok hc
    apply bind_of_ok Ty.require_boolean
    rw [if_neg (by simp)]
    apply bind_of_error
    exact Stmt.checkBlock_eq_error.mpr ⟨_,_,_,_,_,rfl,hl,hm⟩
  | elseBlock hc hn ht hl =>
    rw [Fails,Stmt.check]
    apply within_of_error
    apply bind_of_ok hc
    apply bind_of_ok Ty.require_boolean
    rw [if_neg (by simpa using hn)]
    apply bind_of_ok ht
    apply bind_of_error
    exact Stmt.checkBlock_eq_error.mpr ⟨_,_,_,_,_,rfl,hl,hm⟩
  | armValue hc hp hl =>
    rw [Fails,Stmt.check]
    apply within_of_error
    apply bind_of_ok hc
    apply bind_of_error
    exact Case.checkAll_of_stops hp (.value hl hm)
  | armBody hc hp hl he hs =>
    rw [Fails,Stmt.check]
    apply within_of_error
    apply bind_of_ok hc
    apply bind_of_error
    exact Case.checkAll_of_stops hp
      (.body hl he (Stmt.checkBlock_eq_error.mpr ⟨_,_,_,_,_,rfl,hs,hm⟩))
  | defaultBody hc hp hs =>
    rw [Fails,Stmt.check]
    apply within_of_error
    apply bind_of_ok hc
    apply bind_of_error
    exact Case.checkAll_of_stops hp
      (.default (Stmt.checkBlock_eq_error.mpr ⟨_,_,_,_,_,rfl,hs,hm⟩))
  | loopBody hc hl =>
    rw [Fails,Stmt.check]
    apply within_of_error
    apply bind_of_ok hc
    apply bind_of_ok Ty.require_boolean
    apply bind_of_error
    exact Stmt.checkBlock_eq_error.mpr ⟨_,_,_,_,_,rfl,hl,hm⟩
  | globalElement hv hd hs =>
    rw [Fails,Global.checkValue,hv]
    apply within_of_error
    apply bind_of_ok hd
    apply bind_of_error
    exact Expr.checkElements_eq_error.mpr (.inr ⟨_,_,_,_,rfl,hs,.inl hm⟩)
  | globalInitial hv hl hn =>
    rw [Fails,Global.checkValue_of_not_list hv hl]
    exact within_of_error (Expr.checkInitial_of_error hn hm)

/-- The check of a node fails with the error of its own rule. -/
theorem Raises.fails {n : Node} {cause : TypeError.Cause} (h : n.Raises cause) :
    n.Fails ((TypeError.of cause).within n.render) := by
  cases h with
  | operands hl hr h =>
    rw [Fails,Expr.check]
    exact within_of_error (bind_of_ok hl (bind_of_ok hr (bind_of_error h)))
  | index hb ht hi h =>
    rw [Fails,Expr.check]
    apply within_of_error
    apply bind_of_ok hb
    rw [ht]
    exact bind_of_ok hi (bind_of_error (Ty.require_of_not_accepts h))
  | argument hf hp hs he h =>
    rw [Fails,Expr.check]
    apply within_of_error
    apply bind_of_ok hf
    apply bind_of_error
    exact Expr.checkArguments_eq_error.mpr ⟨_,_,_,_,_,_,rfl,hp,hs,.inr ⟨_,_,he,h,rfl⟩⟩
  | element hs he h =>
    rw [Fails,Expr.check]
    apply within_of_error
    apply bind_of_error
    exact Expr.checkElements_eq_error.mpr (.inr ⟨_,_,_,_,rfl,hs,.inr ⟨_,_,_,rfl,he,h,rfl⟩⟩)
  | initial hn he h =>
    rw [Fails,Stmt.check]
    exact within_of_error (bind_of_error (Expr.checkInitial_of_mismatch hn he h))
  | assigned hx hr hm he h =>
    rw [Fails,Stmt.check,hx]
    apply within_of_error
    exact bind_of_ok hr (bind_of_ok hm (bind_of_ok he (bind_of_error (Ty.require_of_not_accepts h))))
  | condition hc h | guard hc h =>
    rw [Fails,Stmt.check]
    exact within_of_error (bind_of_ok hc (bind_of_error (Ty.require_of_not_accepts h)))
  | armValue hc hp hl he h =>
    rw [Fails,Stmt.check]
    apply within_of_error
    apply bind_of_ok hc
    apply bind_of_error
    exact Case.checkAll_of_stops hp (.mismatch hl he h rfl)
  | returned he h =>
    rw [Fails,Stmt.check]
    apply within_of_error
    apply bind_of_ok he
    dsimp only
    rw [if_neg h]
    rfl
  | globalElement hv hd hs he h =>
    rw [Fails,Global.checkValue,hv]
    apply within_of_error
    apply bind_of_ok hd
    apply bind_of_error
    exact Expr.checkElements_eq_error.mpr (.inr ⟨_,_,_,_,rfl,hs,.inr ⟨_,_,_,rfl,he,h,rfl⟩⟩)
  | globalInitial hv hl hn ht he h =>
    rw [Fails,Global.checkValue_of_not_list hv hl,hn]
    exact within_of_error (Expr.checkInitial_of_mismatch ht he h)

end Node
end BlockScript
