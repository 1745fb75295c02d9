import BlockScript.Proofs.Typing.Program
/-! More functions in sight change nothing: what is checked with some functions is checked in the same
way with those and others. -/
namespace BlockScript

/-- The same variables in sight, and every function of the first. -/
structure Context.Extends (Γ Δ : Context) : Prop where
  current : Δ.current.bindings = Γ.current.bindings
  bindings : ∀ x, Δ.frames.findSome? (·.findVariable x) = Γ.frames.findSome? (·.findVariable x)
  functions : ∀ f arity s, Γ.frames.findSome? (·.findFunction f arity) = some s →
    Δ.frames.findSome? (·.findFunction f arity) = some s

namespace Context.Extends
variable {Γ Δ Γ' : Context}

lemma lookupVariable (h : Γ.Extends Δ) {x : String} {b : Binding Ty}
    (hb : Γ.lookupVariable x = .ok b) : Δ.lookupVariable x = .ok b := by
  rw [lookupVariable_eq_ok] at hb ⊢
  exact (h.bindings x).trans hb

lemma lookupFunction (h : Γ.Extends Δ) {f : String} {arity : Nat} {s : Signature}
    (hs : Γ.lookupFunction f arity = .ok s) : Δ.lookupFunction f arity = .ok s := by
  rw [lookupFunction_eq_ok] at hs ⊢
  exact h.functions f arity s hs

lemma enter (h : Γ.Extends Δ) : Γ.enter.Extends Δ.enter := ⟨rfl,h.bindings,h.functions⟩

/-- A name that is defined in one is defined in the other. -/
lemma defineVariable (h : Γ.Extends Δ) {b : Binding Ty} (hd : Γ.defineVariable b = .ok Γ') :
    ∃ Δ', Δ.defineVariable b = .ok Δ' ∧ Γ'.Extends Δ' := by
  obtain ⟨hn,rfl⟩ := defineVariable_eq_ok.mp hd
  have hfind (x : String) : Δ.current.findVariable x = Γ.current.findVariable x := by
    rw [Frame.findVariable,h.current,Frame.findVariable]
  refine ⟨_,defineVariable_eq_ok.mpr ⟨(hfind b.name).trans hn,rfl⟩,by rw [h.current],fun x => ?_,
    h.functions⟩
  have hx := h.bindings x
  simp only [frames,List.findSome?_cons,Frame.findVariable,List.find?_cons] at hx ⊢
  cases b.name == x with
  | true => rfl
  | false => exact hx

lemma defineAll (h : Γ.Extends Δ) {bs : List (Binding Ty)} (hd : Γ.defineAll bs = .ok Γ') :
    ∃ Δ', Δ.defineAll bs = .ok Δ' ∧ Γ'.Extends Δ' := by
  induction bs generalizing Γ Δ with
  | nil => cases hd; exact ⟨Δ,rfl,h⟩
  | cons b bs ih =>
    obtain ⟨Θ,hΘ,hd⟩ := defineAll_cons_eq_ok.mp hd
    obtain ⟨Ξ,hΞ,h'⟩ := h.defineVariable hΘ
    obtain ⟨Δ',hΔ',h'⟩ := ih h' hd
    exact ⟨Δ',defineAll_cons_eq_ok.mpr ⟨Ξ,hΞ,hΔ'⟩,h'⟩

end Context.Extends

section
variable {Γ Δ : Context} {result : Ty}

mutual
theorem Expr.check_extends (h : Γ.Extends Δ) (e : Expr) {e' : Expr} {t : Ty}
    (hc : e.check Γ = .ok (e',t)) : e.check Δ = .ok (e',t) := by
  match e with
  | .literal v s =>
    exact check_literal.mpr (check_literal.mp hc)
  | .group i s =>
    obtain ⟨i',hi,rfl⟩ := check_group.mp hc
    exact check_group.mpr ⟨i',i.check_extends h hi,rfl⟩
  | .binary op l r s =>
    obtain ⟨l',tl,r',tr,hl,hr,ht,rfl⟩ := check_binary.mp hc
    exact check_binary.mpr ⟨l',tl,r',tr,l.check_extends h hl,r.check_extends h hr,ht,rfl⟩
  | .ref x slot s =>
    obtain ⟨b,hb,rfl,rfl⟩ := check_ref.mp hc
    exact check_ref.mpr ⟨b,h.lookupVariable hb,rfl,rfl⟩
  | .element x i slot s =>
    obtain ⟨b,i',hb,hl,hi,rfl⟩ := check_element.mp hc
    exact check_element.mpr ⟨b,i',h.lookupVariable hb,hl,i.check_extends h hi,rfl⟩
  | .call f es slot s =>
    obtain ⟨g,es',hg,hes,rfl,rfl⟩ := check_call.mp hc
    exact check_call.mpr ⟨g,es',h.lookupFunction hg,checkArguments_extends h es hes,rfl,rfl⟩
  | .list es s =>
    obtain ⟨es',u,hes,rfl,rfl⟩ := check_list.mp hc
    exact check_list.mpr ⟨es',u,checkElements_extends h es hes,rfl,rfl⟩

theorem Expr.checkArguments_extends (h : Γ.Extends Δ) (es : List Expr) {ts : List Ty}
    {es' : List Expr} (hc : Expr.checkArguments Γ es ts = .ok es') :
    Expr.checkArguments Δ es ts = .ok es' := by
  match es,ts with
  | [],_ => simpa only [checkArguments] using hc
  | e :: es,[] => simpa only [checkArguments] using hc
  | e :: es,t :: ts =>
    obtain ⟨i,u,is,hi,ha,his,rfl⟩ := checkArguments_cons.mp hc
    exact checkArguments_cons.mpr
      ⟨i,u,is,e.check_extends h hi,ha,checkArguments_extends h es his,rfl⟩

theorem Expr.checkElements_extends (h : Γ.Extends Δ) (es : List Expr) {expected : Option Ty}
    {es' : List Expr} {t : Ty} (hc : Expr.checkElements Γ expected es = .ok (es',t)) :
    Expr.checkElements Δ expected es = .ok (es',t) := by
  match es with
  | [] => exact checkElements_nil.mpr (checkElements_nil.mp hc)
  | e :: es =>
    obtain ⟨i,u,is,hi,ha,his,rfl⟩ := checkElements_cons.mp hc
    exact checkElements_cons.mpr
      ⟨i,u,is,e.check_extends h hi,ha,checkElements_extends h es his,rfl⟩
end

lemma Expr.checkInitial_extends (h : Γ.Extends Δ) {x : String} {typeName : Option String}
    {value value' : Option Expr} {t : Ty}
    (hc : Expr.checkInitial Γ x typeName value = .ok (value',t)) :
    Expr.checkInitial Δ x typeName value = .ok (value',t) := by
  rcases checkInitial_eq_ok.mp hc with hn | ⟨e,i,u,hv,hv',hi,ht⟩
  · exact checkInitial_eq_ok.mpr (.inl hn)
  · exact checkInitial_eq_ok.mpr (.inr ⟨e,i,u,hv,hv',e.check_extends h hi,ht⟩)

end

section
variable {result : Ty}

mutual
/-- The statement is filled in the same way, and the names after it extend each other again. -/
theorem Stmt.check_extends {Γ Δ Γ' : Context} (h : Γ.Extends Δ) (s : Stmt) {s' : Stmt}
    (hc : s.check Γ result = .ok (s',Γ')) :
    ∃ Δ', s.check Δ result = .ok (s',Δ') ∧ Γ'.Extends Δ' := by
  match s with
  | .expression e =>
    obtain ⟨e',t,he,rfl,rfl⟩ := Stmt.check_expression.mp hc
    exact ⟨Δ,Stmt.check_expression.mpr ⟨e',t,e.check_extends h he,rfl,rfl⟩,h⟩
  | .declaration x typeName value slot =>
    obtain ⟨value',t,hv,hd,rfl⟩ := Stmt.check_declaration.mp hc
    obtain ⟨Δ',hd',h'⟩ := h.defineVariable hd
    exact ⟨Δ',Stmt.check_declaration.mpr ⟨value',t,Expr.checkInitial_extends h hv,hd',rfl⟩,h'⟩
  | .assignment receiver e =>
    obtain ⟨x,r',t,b,e',u,hx,hr,hb,hm,he,ha,rfl,rfl⟩ := Stmt.check_assignment.mp hc
    exact ⟨Δ,Stmt.check_assignment.mpr ⟨x,r',t,b,e',u,hx,receiver.check_extends h hr,
      h.lookupVariable hb,hm,e.check_extends h he,ha,rfl,rfl⟩,h⟩
  | .ifElse c thenBlock elseBlock =>
    obtain ⟨c',then',else',hcond,hn,ht,he,rfl,rfl⟩ := Stmt.check_ifElse.mp hc
    exact ⟨Δ,Stmt.check_ifElse.mpr ⟨c',then',else',c.check_extends h hcond,hn,
      Stmt.checkBlock_extends h.enter thenBlock ht,Stmt.checkBlock_extends h.enter elseBlock he,
      rfl,rfl⟩,h⟩
  | .switch c cases =>
    obtain ⟨c',t,cases',hcond,hs,rfl,rfl⟩ := Stmt.check_switch.mp hc
    exact ⟨Δ,Stmt.check_switch.mpr ⟨c',t,cases',c.check_extends h hcond,
      Case.checkAll_extends h cases hs,rfl,rfl⟩,h⟩
  | .loop c body =>
    obtain ⟨c',body',hcond,hb,rfl,rfl⟩ := Stmt.check_loop.mp hc
    exact ⟨Δ,Stmt.check_loop.mpr ⟨c',body',c.check_extends h hcond,
      Stmt.checkBlock_extends h.enter body hb,rfl,rfl⟩,h⟩
  | .ret e =>
    obtain ⟨e',he,rfl,rfl⟩ := Stmt.check_ret.mp hc
    exact ⟨Δ,Stmt.check_ret.mpr ⟨e',e.check_extends h he,rfl,rfl⟩,h⟩

theorem Stmt.checkBlock_extends {Γ Δ : Context} (h : Γ.Extends Δ) (ss : List Stmt)
    {ss' : List Stmt} (hc : Stmt.checkBlock Γ result ss = .ok ss') :
    Stmt.checkBlock Δ result ss = .ok ss' := by
  match ss with
  | [] => exact Stmt.checkBlock_nil.mpr (Stmt.checkBlock_nil.mp hc)
  | s :: ss =>
    obtain ⟨t,Θ,ts,ht,hts,rfl⟩ := Stmt.checkBlock_cons.mp hc
    obtain ⟨Ξ,hs,h'⟩ := Stmt.check_extends h s ht
    exact Stmt.checkBlock_cons.mpr ⟨t,Ξ,ts,hs,Stmt.checkBlock_extends h' ss hts,rfl⟩

theorem Case.checkAll_extends {Γ Δ : Context} (h : Γ.Extends Δ) {t : Ty} (cs : List Case)
    {cs' : List Case} (hc : Case.checkAll Γ result t cs = .ok cs') :
    Case.checkAll Δ result t cs = .ok cs' := by
  match cs with
  | [] => exact absurd hc Case.checkAll_nil
  | .mk value body :: cs =>
    rcases Case.checkAll_eq_ok.mp hc with
      ⟨hn,hv,body',hb,hs⟩ | ⟨hn,e,e',u,body',ds,hv,he,ha,hb,hds,hs⟩
    · exact Case.checkAll_eq_ok.mpr (.inl ⟨hn,hv,body',Stmt.checkBlock_extends h.enter body hb,hs⟩)
    · exact Case.checkAll_eq_ok.mpr (.inr ⟨hn,e,e',u,body',ds,hv,e.check_extends h he,ha,
        Stmt.checkBlock_extends h.enter body hb,Case.checkAll_extends h cs hds,hs⟩)
end

lemma Function.check_extends {Γ Δ : Context} (h : Γ.Extends Δ) {f f' : Function} {s : Signature}
    (hc : f.check Γ s = .ok f') : f.check Δ s = .ok f' := by
  obtain ⟨Θ,body,hΘ,hb,rfl⟩ := check_eq_ok.mp hc
  obtain ⟨Ξ,hΞ,h'⟩ := h.enter.defineAll hΘ
  exact check_eq_ok.mpr ⟨Ξ,body,hΞ,Stmt.checkBlock_extends h' f.body hb,rfl⟩

end
end BlockScript
