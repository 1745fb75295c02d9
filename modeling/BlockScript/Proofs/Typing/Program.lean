import BlockScript.Proofs.Scopes.Frames
import BlockScript.Proofs.Typing.Expression
/-! What a check of statements, functions and programs that succeeds has found. -/
namespace BlockScript

open Checked (bind_eq_ok)

namespace Stmt
variable {Γ Δ : Context} {result : Ty} {s' : Stmt}

lemma check_expression {e : Expr} :
    (expression e).check Γ result = .ok (s',Δ) ↔
      ∃ e' t, e.check Γ = .ok (e',t) ∧ s' = expression e' ∧ Δ = Γ := by
  rw [check]
  simp only [Checked.within_eq_ok,bind_eq_ok,Checked.pure_eq_ok,Prod.mk.injEq,Prod.exists]
  exact exists_congr fun _ => exists_congr fun _ => by tauto

example : (expression (.literal (.integer 1) none)).check ⟨.empty,[]⟩ .nil =
    .ok (expression (.literal (.integer 1) (some .integer)),⟨.empty,[]⟩) := by
  cbv

lemma check_declaration {x : String} {typeName : Option String} {value : Option Expr}
    {slot : Option (Binding Ty)} :
    (declaration x typeName value slot).check Γ result = .ok (s',Δ) ↔
      ∃ value' t, Expr.checkInitial Γ x typeName value = .ok (value',t) ∧
        Γ.defineVariable ⟨x,t,true⟩ = .ok Δ ∧
        s' = declaration x typeName value' (some ⟨x,t,true⟩) := by
  rw [check]
  simp only [Checked.within_eq_ok,bind_eq_ok,Checked.pure_eq_ok,Prod.mk.injEq,Prod.exists]
  refine exists_congr fun _ => exists_congr fun _ => and_congr_right fun _ => ?_
  constructor
  · rintro ⟨_,hd,rfl,rfl⟩
    exact ⟨hd,rfl⟩
  · rintro ⟨hd,rfl⟩
    exact ⟨Δ,hd,rfl,rfl⟩

/-- The receiver is checked first, then whether its name is mutable, then the value. -/
lemma check_assignment {receiver e : Expr} :
    (assignment receiver e).check Γ result = .ok (s',Δ) ↔
      ∃ x r' t b e' u, receiver.receiver? = some x ∧ receiver.check Γ = .ok (r',t) ∧
        Γ.lookupVariable x = .ok b ∧ b.mutable = true ∧ e.check Γ = .ok (e',u) ∧
        t.accepts u = true ∧ s' = assignment r' e' ∧ Δ = Γ := by
  rw [check]
  simp only [Checked.within_eq_ok]
  cases receiver.receiver? with
  | none => simp
  | some x =>
    simp only [bind_eq_ok,Checked.pure_eq_ok,Prod.mk.injEq,Prod.exists,Ty.require_eq_ok,
      Context.requireMutable_eq_ok]
    constructor
    · rintro ⟨r',t,hr,_,⟨b,hb,hm⟩,e',u,he,_,ha,rfl,rfl⟩
      exact ⟨x,r',t,b,e',u,rfl,hr,hb,hm,he,ha,rfl,rfl⟩
    · rintro ⟨_,r',t,b,e',u,hx,hr,hb,hm,he,ha,rfl,rfl⟩
      cases hx
      exact ⟨r',t,hr,(),⟨b,hb,hm⟩,e',u,he,(),ha,rfl,rfl⟩

lemma accepts_boolean {t : Ty} : Ty.boolean.accepts t = true ↔ t = .boolean := by
  simp only [Ty.accepts,beq_iff_eq]
  exact eq_comm

lemma check_ifElse {c : Expr} {thenBlock elseBlock : List Stmt} :
    (ifElse c thenBlock elseBlock).check Γ result = .ok (s',Δ) ↔
      ∃ c' then' else', c.check Γ = .ok (c',.boolean) ∧ thenBlock ≠ [] ∧
        checkBlock Γ.enter result thenBlock = .ok then' ∧
        checkBlock Γ.enter result elseBlock = .ok else' ∧
        s' = ifElse c' then' else' ∧ Δ = Γ := by
  rw [check]
  simp only [Checked.within_eq_ok,bind_eq_ok,Prod.exists,Ty.require_eq_ok,accepts_boolean]
  constructor
  · rintro ⟨c',_,hc,_,rfl,h⟩
    split at h
    · simp [Checked.fail,bind,Except.bind] at h
    · next hne =>
      simp only [bind_eq_ok,Checked.pure_eq_ok,Prod.mk.injEq] at h
      obtain ⟨then',ht,else',he,rfl,rfl⟩ := h
      exact ⟨c',then',else',hc,by simpa using hne,ht,he,rfl,rfl⟩
  · rintro ⟨c',then',else',hc,hne,ht,he,rfl,rfl⟩
    refine ⟨c',.boolean,hc,(),rfl,?_⟩
    rw [if_neg (by simpa using hne)]
    simp only [bind_eq_ok,Checked.pure_eq_ok]
    exact ⟨then',ht,else',he,rfl⟩

lemma check_switch {c : Expr} {cases : List Case} :
    (switch c cases).check Γ result = .ok (s',Δ) ↔
      ∃ c' t cases', c.check Γ = .ok (c',t) ∧ Case.checkAll Γ result t cases = .ok cases' ∧
        s' = switch c' cases' ∧ Δ = Γ := by
  rw [check]
  simp only [Checked.within_eq_ok,bind_eq_ok,Checked.pure_eq_ok,Prod.mk.injEq,Prod.exists]
  constructor
  · rintro ⟨c',t,hc,cases',hs,rfl,rfl⟩
    exact ⟨c',t,cases',hc,hs,rfl,rfl⟩
  · rintro ⟨c',t,cases',hc,hs,rfl,rfl⟩
    exact ⟨c',t,hc,cases',hs,rfl,rfl⟩

lemma check_loop {c : Expr} {body : List Stmt} :
    (loop c body).check Γ result = .ok (s',Δ) ↔
      ∃ c' body', c.check Γ = .ok (c',.boolean) ∧ checkBlock Γ.enter result body = .ok body' ∧
        s' = loop c' body' ∧ Δ = Γ := by
  rw [check]
  simp only [Checked.within_eq_ok,bind_eq_ok,Checked.pure_eq_ok,Prod.mk.injEq,Prod.exists,
    Ty.require_eq_ok,accepts_boolean]
  constructor
  · rintro ⟨c',_,hc,_,rfl,body',hb,rfl,rfl⟩
    exact ⟨c',body',hc,hb,rfl,rfl⟩
  · rintro ⟨c',body',hc,hb,rfl,rfl⟩
    exact ⟨c',.boolean,hc,(),rfl,body',hb,rfl,rfl⟩

lemma check_ret {e : Expr} :
    (ret e).check Γ result = .ok (s',Δ) ↔
      ∃ e', e.check Γ = .ok (e',result) ∧ s' = ret e' ∧ Δ = Γ := by
  rw [check]
  simp only [Checked.within_eq_ok,bind_eq_ok,Prod.exists]
  constructor
  · rintro ⟨e',t,he,h⟩
    split at h
    · next heq =>
      subst heq
      simp only [Checked.pure_eq_ok,Prod.mk.injEq] at h
      exact ⟨e',he,h.1.symm,h.2.symm⟩
    · simp at h
  · rintro ⟨e',he,rfl,rfl⟩
    exact ⟨e',result,he,by simp⟩

lemma checkBlock_nil {ss' : List Stmt} : checkBlock Γ result [] = .ok ss' ↔ ss' = [] := by
  rw [checkBlock]
  simp [eq_comm]

lemma checkBlock_cons {s : Stmt} {ss ss' : List Stmt} :
    checkBlock Γ result (s :: ss) = .ok ss' ↔
      ∃ t Θ ts, s.check Γ result = .ok (t,Θ) ∧ checkBlock Θ result ss = .ok ts ∧ ss' = t :: ts := by
  rw [checkBlock]
  simp only [bind_eq_ok,Checked.pure_eq_ok,Prod.exists]
  constructor
  · rintro ⟨t,Θ,ht,ts,hts,rfl⟩
    exact ⟨t,Θ,ts,ht,hts,rfl⟩
  · rintro ⟨t,Θ,ts,ht,hts,rfl⟩
    exact ⟨t,Θ,ht,ts,hts,rfl⟩

/-- Only a declaration changes the names in sight, and only those of the innermost frame. -/
theorem enclosing_of_check {s : Stmt} (h : s.check Γ result = .ok (s',Δ)) :
    Δ.enclosing = Γ.enclosing := by
  cases s with
  | expression e => obtain ⟨_,_,_,_,rfl⟩ := check_expression.mp h; rfl
  | declaration x typeName value slot =>
    obtain ⟨_,_,_,hd,_⟩ := check_declaration.mp h
    rw [(Context.defineVariable_eq_ok.mp hd).2]
  | assignment receiver e => obtain ⟨_,_,_,_,_,_,_,_,_,_,_,_,_,rfl⟩ := check_assignment.mp h; rfl
  | ifElse c thenBlock elseBlock => obtain ⟨_,_,_,_,_,_,_,_,rfl⟩ := check_ifElse.mp h; rfl
  | switch c cases => obtain ⟨_,_,_,_,_,_,rfl⟩ := check_switch.mp h; rfl
  | loop c body => obtain ⟨_,_,_,_,_,rfl⟩ := check_loop.mp h; rfl
  | ret e => obtain ⟨_,_,_,rfl⟩ := check_ret.mp h; rfl

end Stmt

namespace Case
variable {Γ : Context} {result t : Ty} {cs' : List Case}

/-- A checked switch has arms with values and after them one without. -/
lemma checkAll_eq_ok {c : Case} {cs : List Case} :
    checkAll Γ result t (c :: cs) = .ok cs' ↔
      (cs = [] ∧ c.value = none ∧ ∃ body', Stmt.checkBlock Γ.enter result c.body = .ok body' ∧
        cs' = [mk none body']) ∨
      (cs ≠ [] ∧ ∃ e e' u body' ds, c.value = some e ∧ e.check Γ = .ok (e',u) ∧
        t.accepts u = true ∧ Stmt.checkBlock Γ.enter result c.body = .ok body' ∧
        checkAll Γ result t cs = .ok ds ∧ cs' = mk (some e') body' :: ds) := by
  obtain ⟨value,body⟩ := c
  cases cs with
  | nil =>
    cases value with
    | some e => simp [checkAll,Case.value]
    | none =>
      simp only [checkAll,bind_eq_ok,Checked.pure_eq_ok,Case.value,Case.body]
      constructor
      · rintro ⟨body',hb,rfl⟩
        exact .inl ⟨trivial,trivial,body',hb,rfl⟩
      · rintro (⟨_,_,body',hb,rfl⟩ | ⟨h,_⟩)
        · exact ⟨body',hb,rfl⟩
        · exact absurd rfl h
  | cons d ds =>
    cases value with
    | none => simp [checkAll,Case.value]
    | some e =>
      simp only [checkAll,bind_eq_ok,Checked.pure_eq_ok,Prod.exists,Ty.require_eq_ok,Case.value,
        Case.body]
      constructor
      · rintro ⟨e',u,he,_,ha,body',hb,ds',hds,rfl⟩
        exact .inr ⟨by simp,e,e',u,body',ds',rfl,he,ha,hb,hds,rfl⟩
      · rintro (⟨h,_⟩ | ⟨_,_,e',u,body',ds',h,he,ha,hb,hds,rfl⟩)
        · cases h
        · cases h
          exact ⟨e',u,he,(),ha,body',hb,ds',hds,rfl⟩

lemma checkAll_nil : checkAll Γ result t [] ≠ .ok cs' := by
  simp [checkAll]

end Case

namespace Global
variable {Γ Δ : Context}

lemma check_eq_ok {g g' : Global} :
    g.check Γ = .ok (g',Δ) ↔ ∃ value t, g.checkValue Γ = .ok (value,t) ∧
      Γ.defineVariable ⟨g.name,t,g.mutable⟩ = .ok Δ ∧
      g' = { g with value := value, binding := some ⟨g.name,t,g.mutable⟩ } := by
  unfold check
  simp only [bind_eq_ok,Checked.pure_eq_ok,Prod.mk.injEq,Prod.exists]
  refine exists_congr fun _ => exists_congr fun _ => and_congr_right fun _ => ?_
  constructor
  · rintro ⟨_,hd,rfl,rfl⟩
    exact ⟨hd,rfl⟩
  · rintro ⟨hd,rfl⟩
    exact ⟨Δ,hd,rfl,rfl⟩

/-- A list is checked against its declared element type, every other global like a declaration. -/
lemma checkValue_eq_ok {g : Global} {value : Option Expr} {t : Ty} :
    g.checkValue Γ = .ok (value,t) ↔
      (∃ es s d es' u, g.value = some (.list es s) ∧ g.typeName.mapM Ty.named = .ok d ∧
        Expr.checkElements Γ d es = .ok (es',u) ∧ t = .list u ∧
        value = some (.list es' (Ty.list u))) ∨
      ((∀ es s, g.value ≠ some (.list es s)) ∧
        Expr.checkInitial Γ g.name g.typeName g.value = .ok (value,t)) := by
  unfold checkValue
  rw [Checked.within_eq_ok]
  split
  · next es s hv =>
    simp only [bind_eq_ok,Checked.pure_eq_ok,Prod.mk.injEq,Prod.exists]
    constructor
    · rintro ⟨d,hd,es',u,hes,rfl,rfl⟩
      exact .inl ⟨es,s,d,es',u,hv,hd,hes,rfl,rfl⟩
    · rintro (⟨_,_,d,es',u,h,hd,hes,rfl,rfl⟩ | ⟨h,_⟩)
      · rw [hv] at h
        cases h
        exact ⟨d,hd,es',u,hes,rfl,rfl⟩
      · exact absurd hv (h es s)
  · next hn =>
    constructor
    · exact fun h => .inr ⟨hn,h⟩
    · rintro (⟨es,s,_,_,_,h,_⟩ | ⟨_,h⟩)
      · exact absurd h (hn es s)
      · exact h

lemma checkAll_nil {gs' : List Global} : checkAll Γ [] = .ok (gs',Δ) ↔ gs' = [] ∧ Δ = Γ := by
  simp [checkAll,eq_comm]

lemma checkAll_cons {g : Global} {gs gs' : List Global} :
    checkAll Γ (g :: gs) = .ok (gs',Δ) ↔
      ∃ h Θ hs, g.check Γ = .ok (h,Θ) ∧ checkAll Θ gs = .ok (hs,Δ) ∧ gs' = h :: hs := by
  rw [checkAll]
  simp only [bind_eq_ok,Checked.pure_eq_ok,Prod.mk.injEq,Prod.exists]
  constructor
  · rintro ⟨h,Θ,hg,hs,_,hgs,rfl,rfl⟩
    exact ⟨h,Θ,hs,hg,hgs,rfl⟩
  · rintro ⟨h,Θ,hs,hg,hgs,rfl⟩
    exact ⟨h,Θ,hg,hs,Δ,hgs,rfl,rfl⟩

lemma enclosing_of_checkAll {gs gs' : List Global} (h : checkAll Γ gs = .ok (gs',Δ)) :
    Δ.enclosing = Γ.enclosing := by
  induction gs generalizing gs' Γ with
  | nil => obtain ⟨_,rfl⟩ := checkAll_nil.mp h; rfl
  | cons g gs ih =>
    obtain ⟨_,Θ,_,hg,hgs,_⟩ := checkAll_cons.mp h
    obtain ⟨_,_,_,hd,_⟩ := check_eq_ok.mp hg
    rw [ih hgs,(Context.defineVariable_eq_ok.mp hd).2]

end Global

lemma Checked.mapM_eq_ok {α β : Type} {f : α → Checked β} {as : List α} {bs : List β} :
    as.mapM f = .ok bs ↔ List.Forall₂ (fun a b => f a = .ok b) as bs := by
  induction as generalizing bs with
  | nil =>
    rw [List.mapM_nil,pure_eq_ok,List.forall₂_nil_left_iff]
    exact eq_comm
  | cons a as ih =>
    simp only [List.mapM_cons,bind_eq_ok,pure_eq_ok]
    constructor
    · rintro ⟨b,hb,bs',hbs,rfl⟩
      exact .cons hb (ih.mp hbs)
    · intro h
      cases h with
      | cons hb hbs => exact ⟨_,hb,_,ih.mpr hbs,rfl⟩

namespace Function
variable {Γ Δ : Context}

lemma declared_eq_ok {f : Function} {s : Signature} :
    f.declared = .ok s ↔ f.parameterTypeNames.mapM Ty.named = .ok s.parameters ∧
      ((f.resultTypeName = none ∧ s.result = .nil) ∨
        ∃ n, f.resultTypeName = some n ∧ Ty.ofName? n = some s.result) := by
  unfold declared
  obtain ⟨ts,t⟩ := s
  cases f.resultTypeName with
  | none =>
    simp only [bind_eq_ok,Checked.pure_eq_ok,Signature.mk.injEq]
    constructor
    · rintro ⟨_,hts,_,rfl,rfl,rfl⟩
      exact ⟨hts,.inl ⟨trivial,rfl⟩⟩
    · rintro ⟨hts,⟨_,rfl⟩ | ⟨_,h,_⟩⟩
      · exact ⟨ts,hts,.nil,rfl,rfl,rfl⟩
      · cases h
  | some n =>
    simp only [bind_eq_ok,Checked.pure_eq_ok,Ty.named_eq_ok,Signature.mk.injEq]
    constructor
    · rintro ⟨_,hts,_,hn,rfl,rfl⟩
      exact ⟨hts,.inr ⟨n,rfl,hn⟩⟩
    · rintro ⟨hts,⟨h,_⟩ | ⟨_,h,hn⟩⟩
      · cases h
      · cases h
        exact ⟨ts,hts,t,hn,rfl,rfl⟩

lemma declareAll_nil {fs : List (Function × Signature)} :
    declareAll Γ [] = .ok (fs,Δ) ↔ fs = [] ∧ Δ = Γ := by
  simp [declareAll,eq_comm]

lemma declareAll_cons {f : Function} {fs : List Function} {gs : List (Function × Signature)} :
    declareAll Γ (f :: fs) = .ok (gs,Δ) ↔
      ∃ s Θ hs, f.declared = .ok s ∧ Γ.defineFunction f.name f.arity s = .ok Θ ∧
        declareAll Θ fs = .ok (hs,Δ) ∧ gs = (f,s) :: hs := by
  rw [declareAll]
  simp only [bind_eq_ok,Checked.pure_eq_ok,Prod.mk.injEq,Prod.exists]
  constructor
  · rintro ⟨s,hs,Θ,hd,gs',_,hgs,rfl,rfl⟩
    exact ⟨s,Θ,gs',hs,hd,hgs,rfl⟩
  · rintro ⟨s,Θ,gs',hs,hd,hgs,rfl⟩
    exact ⟨s,hs,Θ,hd,gs',Δ,hgs,rfl,rfl⟩

lemma enclosing_of_declareAll {fs : List Function} {gs : List (Function × Signature)}
    (h : declareAll Γ fs = .ok (gs,Δ)) : Δ.enclosing = Γ.enclosing := by
  induction fs generalizing gs Γ with
  | nil => obtain ⟨_,rfl⟩ := declareAll_nil.mp h; rfl
  | cons f fs ih =>
    obtain ⟨_,Θ,_,_,hd,hfs,_⟩ := declareAll_cons.mp h
    rw [ih hfs,(Context.defineFunction_eq_ok.mp hd).2]

/-- Every function is declared with the types that its text names, and what is declared stays. -/
lemma declareAll_spec {fs : List Function} {gs : List (Function × Signature)}
    (h : declareAll Γ fs = .ok (gs,Δ)) :
    (∀ g ∈ gs, g.1 ∈ fs ∧ g.1.declared = .ok g.2) ∧
      (∀ x arity s, Γ.current.findFunction x arity = some s →
        Δ.current.findFunction x arity = some s) ∧
      ∀ f ∈ fs, ∃ s, f.declared = .ok s ∧ Δ.current.findFunction f.name f.arity = some s := by
  induction fs generalizing gs Γ with
  | nil =>
    obtain ⟨rfl,rfl⟩ := declareAll_nil.mp h
    exact ⟨nofun,fun _ _ _ h => h,nofun⟩
  | cons f fs ih =>
    obtain ⟨s,Θ,hs,hd,hΘ,hfs,rfl⟩ := declareAll_cons.mp h
    obtain ⟨hn,rfl⟩ := Context.defineFunction_eq_ok.mp hΘ
    obtain ⟨hmem,hkeep,hfind⟩ := ih hfs
    refine ⟨?_,?_,?_⟩
    · intro g hg
      rcases List.mem_cons.mp hg with rfl | hg
      · exact ⟨List.mem_cons_self,hd⟩
      · exact ⟨List.mem_cons_of_mem _ (hmem g hg).1,(hmem g hg).2⟩
    · intro x arity t ht
      apply hkeep
      rw [Frame.findFunction_cons]
      split
      · next he =>
        obtain ⟨rfl,rfl⟩ := he
        rw [hn] at ht
        cases ht
      · exact ht
    · intro g hg
      rcases List.mem_cons.mp hg with rfl | hg
      · exact ⟨s,hd,hkeep _ _ _ (by rw [Frame.findFunction_cons,if_pos ⟨rfl,rfl⟩])⟩
      · exact hfind g hg

lemma check_eq_ok {f f' : Function} {s : Signature} :
    f.check Γ s = .ok f' ↔ ∃ Θ body, Γ.enter.defineAll (f.bindings s) = .ok Θ ∧
      Stmt.checkBlock Θ s.result f.body = .ok body ∧
      f' = { f with body := body, signature := some s } := by
  unfold check
  simp only [bind_eq_ok,Checked.pure_eq_ok]
  constructor
  · rintro ⟨Θ,hd,body,hb,rfl⟩
    exact ⟨Θ,body,hd,hb,rfl⟩
  · rintro ⟨Θ,body,hd,hb,rfl⟩
    exact ⟨Θ,hd,body,hb,rfl⟩

end Function

/-- A program is checked in three passes: the globals in order, the signatures of all functions,
and their bodies. -/
lemma Program.check_eq_ok {prelude : Frame Ty Signature} {p p' : Program} :
    p.check prelude = .ok p' ↔ p.functions.any Function.isMain = true ∧
      ∃ gs Γ fs Δ fs', Global.checkAll (.ofFrame prelude) p.globals = .ok (gs,Γ) ∧
        Function.declareAll Γ p.functions = .ok (fs,Δ) ∧
        fs.mapM (fun f => f.1.check Δ f.2) = .ok fs' ∧ p' = ⟨gs,fs'⟩ := by
  unfold check
  by_cases hm : p.functions.any Function.isMain = true
  · simp only [hm,↓reduceIte,bind_eq_ok,Checked.pure_eq_ok,Prod.exists,true_and]
    constructor
    · rintro ⟨gs,Γ,hg,fs,Δ,hf,fs',hfs,rfl⟩
      exact ⟨gs,Γ,fs,Δ,fs',hg,hf,hfs,rfl⟩
    · rintro ⟨gs,Γ,fs,Δ,fs',hg,hf,hfs,rfl⟩
      exact ⟨gs,Γ,hg,fs,Δ,hf,fs',hfs,rfl⟩
  · simp [hm,Checked.fail,bind,Except.bind]

end BlockScript
