import BlockScript.Proofs.Soundness.Expression
import BlockScript.Proofs.Typing.Program
/-! Checked statements end as they should and keep the names in scope beside their declarations. -/
namespace BlockScript

open Traced (Ensures)

/-- A statement that returns cannot complete normally, and a value on its way to the enclosing call
fits the result of the function. -/
def Completion.Sound (blank : Bool) (result : Ty) (returns : Bool) : Completion → Prop
  | normal => returns = false
  | returned v => result.Fits blank v

section
variable {blank : Bool} {names : Option (Frame Ty Signature)} {rounds : Nat} {result : Ty}
  {call : Traced.Caller}

lemma Completion.Sound.imp {c : Completion} {r r' : Bool} (h : c.Sound blank result r)
    (hr : r = false → r' = false) : c.Sound blank result r' := by
  cases c with
  | normal => exact hr h
  | returned v => exact h

/-- A block is checked among the names of a fresh scope and runs in one. -/
lemma Ensures.child {decls : Environment Ty Signature} {scope : Nat} {Γ : Context}
    {body : Nat → Traced Completion} {returns : Bool} (hΓ : decls.chain scope = Γ.frames)
    (hb : ∀ inner, 0 < inner → (decls.inner scope).chain inner = Γ.enter.frames →
      Ensures blank names (decls.inner scope) (body inner) (fun c decls' =>
        c.Sound blank result returns ∧
          ∃ frame, (decls.inner scope).setFrame inner frame = decls')) :
    Ensures blank names decls (Traced.inChild scope body)
      (fun c decls' => c.Sound blank result returns ∧ decls = decls') := by
  have ho := Context.isOpen_of_chain hΓ
  have hpos : 0 < decls.depth := Nat.lt_of_le_of_lt (Nat.zero_le _) (Environment.isOpen_iff.mp ho)
  have hc : (decls.inner scope).chain decls.depth = Γ.enter.frames := by
    rw [Environment.chain_inner_depth ho,hΓ]
    rfl
  exact .inChild ho (hb _ hpos hc)

mutual
/-- A checked statement leads to the names in scope that the check found after it. -/
theorem Stmt.trace_sound (hcall : call.Sound blank names) {decls : Environment Ty Signature}
    {scope : Nat} (hpos : 0 < scope) {Γ : Context} (hΓ : decls.chain scope = Γ.frames) (s : Stmt)
    {s' : Stmt} {Δ : Context} (h : s.check Γ result = .ok (s',Δ)) (hi : blank = false → s'.initialised = true) :
    Ensures blank names decls (s'.trace call rounds scope) (fun c decls' =>
      c.Sound blank result s'.returns ∧ decls.setFrame scope Δ.current = decls') := by
  have hself : decls.setFrame scope Γ.current = decls := Environment.setFrame_chain hΓ
  unfold Stmt.trace
  refine .around trivial ?_ fun _ _ _ => trivial
  match s with
  | .expression e =>
    obtain ⟨e',t,he,rfl,rfl⟩ := Stmt.check_expression.mp h
    refine .bind (Expr.trace_sound hcall hΓ e he) ?_
    intro v _ hpost
    obtain ⟨rfl,_⟩ := hpost
    exact .pure ⟨rfl,hself⟩
  | .declaration x typeName value _ =>
    obtain ⟨value',t,hv,hd,rfl⟩ := Stmt.check_declaration.mp h
    obtain ⟨hn,rfl⟩ := Context.defineVariable_eq_ok.mp hd
    refine .bind (Expr.traceInitial_sound hcall hΓ hv hi) ?_
    intro v _ hpost
    obtain ⟨rfl,hfit⟩ := hpost
    refine .bind (.define (d := ⟨x,t,true⟩) (.inr hpos) hΓ hn hfit) ?_
    intro _ _ hpost
    obtain rfl := hpost
    exact .pure ⟨rfl,rfl⟩
  | .assignment (.ref x slot s) e =>
    obtain ⟨y,r',t,b,e',u,hy,hr,hb,hm,he,ha,rfl,rfl⟩ := Stmt.check_assignment.mp h
    obtain ⟨d,hd,rfl,rfl⟩ := Expr.check_ref.mp hr
    cases hy
    obtain rfl : d = b := Except.ok.inj (hd.symm.trans hb)
    refine .bind (Expr.trace_sound hcall hΓ e he) ?_
    intro v _ hpost
    obtain ⟨rfl,hv⟩ := hpost
    refine .bind (.assign (Context.lookupVariable_of_chain hΓ hd) hm (hv.of_accepts ha)) ?_
    intro _ _ hpost
    obtain rfl := hpost
    exact .pure ⟨rfl,hself⟩
  | .assignment (.element x i slot s) e =>
    obtain ⟨y,r',t,b,e',u,hy,hr,hb,hm,he,ha,rfl,rfl⟩ := Stmt.check_assignment.mp h
    obtain ⟨d,i',hd,hlist,hindex,rfl⟩ := Expr.check_element.mp hr
    cases hy
    obtain rfl : d = b := Except.ok.inj (hd.symm.trans hb)
    refine .bind (Expr.trace_sound hcall hΓ i hindex) ?_
    intro index _ hpost
    obtain ⟨rfl,hi⟩ := hpost
    refine .bind (Expr.trace_sound hcall hΓ e he) ?_
    intro v _ hpost
    obtain ⟨rfl,hv⟩ := hpost
    refine .bind (.assign (Context.lookupVariable_of_chain hΓ hd) hm
      ⟨t,hlist,hi,hv.of_accepts ha⟩) ?_
    intro _ _ hpost
    obtain rfl := hpost
    exact .pure ⟨rfl,hself⟩
  | .assignment (.literal ..) _ | .assignment (.group ..) _ | .assignment (.binary ..) _
  | .assignment (.call ..) _ | .assignment (.list ..) _ =>
    obtain ⟨_,_,_,_,_,_,hy,_⟩ := Stmt.check_assignment.mp h
    cases hy
  | .ifElse c thenBlock elseBlock =>
    obtain ⟨c',then',else',hc,_,ht,he,rfl,rfl⟩ := Stmt.check_ifElse.mp h
    simp only [Stmt.initialised,Bool.and_eq_true] at hi
    refine .bind (Expr.traceBoolean_sound hcall hΓ hc) ?_
    intro go _ hpost
    obtain rfl := hpost
    refine .ite (fun _ => ?_) (fun _ => ?_)
    · refine (Ensures.child hΓ fun inner hp hin =>
        Stmt.traceBlock_sound hcall hp hin thenBlock ht fun hb => (hi hb).1).imp ?_
      intro c _ hpost
      obtain ⟨hs,rfl⟩ := hpost
      exact ⟨hs.imp fun hr => by simp [Stmt.returns,hr],hself⟩
    · refine (Ensures.child hΓ fun inner hp hin =>
        Stmt.traceBlock_sound hcall hp hin elseBlock he fun hb => (hi hb).2).imp ?_
      intro c _ hpost
      obtain ⟨hs,rfl⟩ := hpost
      exact ⟨hs.imp fun hr => by simp [Stmt.returns,hr],hself⟩
  | .switch c cases =>
    obtain ⟨c',t,cases',hc,hcs,rfl,rfl⟩ := Stmt.check_switch.mp h
    refine .bind (Expr.trace_sound hcall hΓ c hc) ?_
    intro v _ hpost
    obtain ⟨rfl,_⟩ := hpost
    apply (Case.traceFirst_sound hcall hΓ cases hcs hi).imp
    intro c _ hpost
    obtain ⟨hs,rfl⟩ := hpost
    exact ⟨hs,hself⟩
  | .loop c body =>
    obtain ⟨c',body',hc,hb,rfl,rfl⟩ := Stmt.check_loop.mp h
    refine (Ensures.repeatWhile (Q := result.Fits blank)
      (Expr.traceBoolean_sound hcall hΓ hc) ?_ rounds).imp ?_
    · refine (Ensures.child hΓ fun inner hp hin =>
        Stmt.traceBlock_sound hcall hp hin body hb hi).imp ?_
      intro c _ hpost
      obtain ⟨hs,rfl⟩ := hpost
      exact ⟨fun v hv => by subst hv; exact hs,rfl⟩
    · intro c _ hpost
      obtain ⟨hs,rfl⟩ := hpost
      refine ⟨?_,hself⟩
      cases c with
      | normal => rfl
      | returned v => exact hs v rfl
  | .ret e =>
    obtain ⟨e',he,rfl,rfl⟩ := Stmt.check_ret.mp h
    refine .bind (Expr.trace_sound hcall hΓ e he) ?_
    intro v _ hpost
    obtain ⟨rfl,hv⟩ := hpost
    exact .pure ⟨hv,hself⟩

/-- A checked block adds names to its own scope only. -/
theorem Stmt.traceBlock_sound (hcall : call.Sound blank names) {decls : Environment Ty Signature}
    {scope : Nat} (hpos : 0 < scope) {Γ : Context} (hΓ : decls.chain scope = Γ.frames)
    (ss : List Stmt) {ss' : List Stmt} (h : Stmt.checkBlock Γ result ss = .ok ss')
    (hi : blank = false → Stmt.blockInitialised ss' = true) :
    Ensures blank names decls (Stmt.traceBlock call rounds scope ss') (fun c decls' =>
      c.Sound blank result (Stmt.blockReturns ss') ∧
        ∃ frame, decls.setFrame scope frame = decls') := by
  match ss with
  | [] =>
    obtain rfl := Stmt.checkBlock_nil.mp h
    exact .pure ⟨rfl,Γ.current,Environment.setFrame_chain hΓ⟩
  | s :: ss =>
    obtain ⟨t,Δ,ts,ht,hts,rfl⟩ := Stmt.checkBlock_cons.mp h
    simp only [Stmt.blockInitialised,Bool.and_eq_true] at hi
    refine .bind (Stmt.trace_sound hcall hpos hΓ s ht fun hb => (hi hb).1) ?_
    intro c _ hpost
    obtain ⟨hs,rfl⟩ := hpost
    cases c with
    | normal =>
      have hΔ := Context.chain_setFrame hΓ (Stmt.enclosing_of_check ht)
      apply (Stmt.traceBlock_sound hcall hpos hΔ ss hts fun hb => (hi hb).2).imp
      intro c _ hpost
      obtain ⟨hc,frame,rfl⟩ := hpost
      refine ⟨hc.imp fun hr => ?_,frame,(Environment.setFrame_setFrame ..).symm⟩
      rw [Stmt.blockReturns,show t.returns = false from hs,hr]
      rfl
    | returned v => exact .pure ⟨hs,Δ.current,rfl⟩

/-- A checked switch takes one of its arms. -/
theorem Case.traceFirst_sound (hcall : call.Sound blank names) {decls : Environment Ty Signature}
    {scope : Nat} {Γ : Context} (hΓ : decls.chain scope = Γ.frames) {v : Value} {t : Ty} (cs : List Case) {cs' : List Case}
    (h : Case.checkAll Γ result t cs = .ok cs')
    (hi : blank = false → Case.allInitialised cs' = true) :
    Ensures blank names decls (Case.traceFirst call rounds scope v cs') (fun c decls' =>
      c.Sound blank result (Case.allReturn cs') ∧ decls = decls') := by
  match cs with
  | [] => exact absurd h Case.checkAll_nil
  | .mk value body :: cs =>
    rcases Case.checkAll_eq_ok.mp h with ⟨rfl,_,body',hb,rfl⟩ | ⟨_,e,e',u,body',ds,_,he,_,hb,hds,rfl⟩
    · simp only [Case.allInitialised,Bool.and_true] at hi
      refine (Ensures.child hΓ fun inner hp hin =>
        Stmt.traceBlock_sound hcall hp hin body hb hi).imp ?_
      intro c _ hpost
      obtain ⟨hs,rfl⟩ := hpost
      exact ⟨hs.imp fun hr => by simp [Case.allReturn,hr],rfl⟩
    · simp only [Case.allInitialised,Bool.and_eq_true] at hi
      refine .bind (P := fun _ decls' => decls = decls') ?_ ?_
      · refine .bind (Expr.trace_sound hcall hΓ e he) ?_
        intro w _ hpost
        obtain ⟨rfl,_⟩ := hpost
        exact .pure rfl
      · intro taken _ hpost
        obtain rfl := hpost
        refine .ite (fun _ => ?_) (fun _ => ?_)
        · refine (Ensures.child hΓ fun inner hp hin =>
            Stmt.traceBlock_sound hcall hp hin body hb fun hb => (hi hb).1).imp ?_
          intro c _ hpost
          obtain ⟨hs,rfl⟩ := hpost
          exact ⟨hs.imp fun hr => by simp [Case.allReturn,hr],rfl⟩
        · apply (Case.traceFirst_sound hcall hΓ cs hds fun hb => (hi hb).2).imp
          intro c _ hpost
          obtain ⟨hs,rfl⟩ := hpost
          exact ⟨hs.imp fun hr => by simp [Case.allReturn,hr],rfl⟩
end

end
end BlockScript
