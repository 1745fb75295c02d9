import BlockScript.Proofs.Typing.Decides.Expression
import BlockScript.Proofs.Typing.Program
/-! Checking a program decides the typing rules, and fills the slots of its tree. -/
namespace BlockScript

namespace Stmt
variable {result : Ty}

lemma Typed.matched {Γ Δ : Context} {s : Stmt} (h : Typed result Γ s Δ) (hΓ : Γ.Matched) : Δ.Matched := by
  cases h with
  | declaration => exact hΓ.bind _
  | _ => exact hΓ

mutual
theorem check_iff {Γ : Context} (hΓ : Γ.Matched) (s : Stmt) (Δ : Context) :
    (∃ s', s.check Γ result = .ok (s',Δ)) ↔ Typed result Γ s Δ := by
  cases s with
  | expression e =>
    simp only [check_expression]
    constructor
    · rintro ⟨_,e',t,he,_,rfl⟩
      exact .expression ((e.check_iff hΓ t).mp ⟨e',he⟩)
    · intro h
      cases h with
      | expression he =>
        obtain ⟨e',he⟩ := (e.check_iff hΓ _).mpr he
        exact ⟨_,e',_,he,rfl,rfl⟩
  | declaration x typeName value slot =>
    simp only [check_declaration,Context.defineVariable_iff]
    constructor
    · rintro ⟨_,v,t,hv,⟨hx,rfl⟩,_⟩
      exact .declaration ((Expr.checkInitial_iff hΓ).mp ⟨v,hv⟩) hx
    · intro h
      cases h with
      | declaration hv hx =>
        obtain ⟨v,hv⟩ := (Expr.checkInitial_iff (x := x) hΓ).mpr hv
        exact ⟨_,v,_,hv,⟨hx,rfl⟩,rfl⟩
  | assignment r e =>
    simp only [check_assignment]
    constructor
    · rintro ⟨_,x,r',t,b,e',u,hx,hr,hb,hm,he,ha,_,rfl⟩
      exact .assignment hx ((r.check_iff hΓ t).mp ⟨r',hr⟩) (Context.binds_iff.mpr hb) hm
        ((e.check_iff hΓ u).mp ⟨e',he⟩) (Ty.assignable_iff.mpr ha)
    · intro h
      cases h with
      | assignment hx hr hb hm he ha =>
        obtain ⟨r',hr⟩ := (r.check_iff hΓ _).mpr hr
        obtain ⟨e',he⟩ := (e.check_iff hΓ _).mpr he
        exact ⟨_,_,r',_,_,e',_,hx,hr,Context.binds_iff.mp hb,hm,he,Ty.assignable_iff.mp ha,rfl,rfl⟩
  | ifElse c thenBlock elseBlock =>
    simp only [check_ifElse]
    constructor
    · rintro ⟨_,c',t',e',hc,hn,ht,he,_,rfl⟩
      exact .ifElse ((c.check_iff hΓ _).mp ⟨c',hc⟩) hn
        ((checkBlock_iff hΓ.enter thenBlock).mp ⟨t',ht⟩)
        ((checkBlock_iff hΓ.enter elseBlock).mp ⟨e',he⟩)
    · intro h
      cases h with
      | ifElse hc hn ht he =>
        obtain ⟨c',hc⟩ := (c.check_iff hΓ _).mpr hc
        obtain ⟨t',ht⟩ := (checkBlock_iff hΓ.enter thenBlock).mpr ht
        obtain ⟨e',he⟩ := (checkBlock_iff hΓ.enter elseBlock).mpr he
        exact ⟨_,c',t',e',hc,hn,ht,he,rfl,rfl⟩
  | switch c cs =>
    simp only [check_switch]
    constructor
    · rintro ⟨_,c',t,cs',hc,hcs,_,rfl⟩
      exact .switch ((c.check_iff hΓ t).mp ⟨c',hc⟩) ((checkCases_iff hΓ t cs).mp ⟨cs',hcs⟩)
    · intro h
      cases h with
      | switch hc hcs =>
        obtain ⟨c',hc⟩ := (c.check_iff hΓ _).mpr hc
        obtain ⟨cs',hcs⟩ := (checkCases_iff hΓ _ cs).mpr hcs
        exact ⟨_,c',_,cs',hc,hcs,rfl,rfl⟩
  | loop c body =>
    simp only [check_loop]
    constructor
    · rintro ⟨_,c',b',hc,hb,_,rfl⟩
      exact .loop ((c.check_iff hΓ _).mp ⟨c',hc⟩) ((checkBlock_iff hΓ.enter body).mp ⟨b',hb⟩)
    · intro h
      cases h with
      | loop hc hb =>
        obtain ⟨c',hc⟩ := (c.check_iff hΓ _).mpr hc
        obtain ⟨b',hb⟩ := (checkBlock_iff hΓ.enter body).mpr hb
        exact ⟨_,c',b',hc,hb,rfl,rfl⟩
  | ret e =>
    simp only [check_ret]
    constructor
    · rintro ⟨_,e',he,_,rfl⟩
      exact .ret ((e.check_iff hΓ _).mp ⟨e',he⟩)
    · intro h
      cases h with
      | ret he =>
        obtain ⟨e',he⟩ := (e.check_iff hΓ _).mpr he
        exact ⟨_,e',he,rfl,rfl⟩

theorem checkBlock_iff {Γ : Context} (hΓ : Γ.Matched) (ss : List Stmt) :
    (∃ ss', checkBlock Γ result ss = .ok ss') ↔ BlockTyped result Γ ss := by
  cases ss with
  | nil =>
    simp only [checkBlock_nil]
    exact ⟨fun _ => .nil,fun _ => ⟨[],rfl⟩⟩
  | cons s ss =>
    simp only [checkBlock_cons]
    constructor
    · rintro ⟨_,s',Θ,ss',hs,hss,_⟩
      have ht := (check_iff hΓ s Θ).mp ⟨s',hs⟩
      exact .cons ht ((checkBlock_iff (ht.matched hΓ) ss).mp ⟨ss',hss⟩)
    · intro h
      cases h with
      | cons ht hts =>
        obtain ⟨s',hs⟩ := (check_iff hΓ s _).mpr ht
        obtain ⟨ss',hss⟩ := (checkBlock_iff (ht.matched hΓ) ss).mpr hts
        exact ⟨_,s',_,ss',hs,hss,rfl⟩

theorem checkCases_iff {Γ : Context} (hΓ : Γ.Matched) (t : Ty) (cs : List Case) :
    (∃ cs', Case.checkAll Γ result t cs = .ok cs') ↔ Case.AllTyped result Γ t cs := by
  cases cs with
  | nil => exact ⟨fun ⟨_,h⟩ => absurd h Case.checkAll_nil,nofun⟩
  | cons c cs =>
    obtain ⟨value,body⟩ := c
    simp only [Case.checkAll_eq_ok,Case.value,Case.body]
    constructor
    · rintro ⟨_,⟨rfl,rfl,body',hb,_⟩ | ⟨_,e,e',u,body',ds,rfl,he,ha,hb,hds,_⟩⟩
      · exact .default ((checkBlock_iff hΓ.enter body).mp ⟨body',hb⟩)
      · exact .arm ((e.check_iff hΓ u).mp ⟨e',he⟩) (Ty.assignable_iff.mpr ha)
          ((checkBlock_iff hΓ.enter body).mp ⟨body',hb⟩) ((checkCases_iff hΓ t cs).mp ⟨ds,hds⟩)
    · intro h
      cases h with
      | default hb =>
        obtain ⟨body',hb⟩ := (checkBlock_iff hΓ.enter body).mpr hb
        exact ⟨_,.inl ⟨rfl,rfl,body',hb,rfl⟩⟩
      | arm he ha hb hs =>
        obtain ⟨e',he⟩ := (Expr.check_iff hΓ _ _).mpr he
        obtain ⟨body',hb⟩ := (checkBlock_iff hΓ.enter body).mpr hb
        obtain ⟨ds,hds⟩ := (checkCases_iff hΓ t cs).mpr hs
        have hn : cs ≠ [] := by rintro rfl; cases hs
        exact ⟨_,.inr ⟨hn,_,e',_,body',ds,rfl,he,Ty.assignable_iff.mp ha,hb,hds,rfl⟩⟩
end

mutual
theorem filled_of_check {Γ Δ : Context} (hΓ : Γ.Matched) (s : Stmt) {s' : Stmt}
    (h : s.check Γ result = .ok (s',Δ)) : s'.Filled Γ ∧ s'.after Γ = Δ ∧ s'.bare = s.bare := by
  cases s with
  | expression e =>
    obtain ⟨e',t,he,rfl,rfl⟩ := check_expression.mp h
    exact ⟨e.filled_of_check hΓ he,rfl,by simp only [bare,e.bare_of_check he]⟩
  | declaration x typeName value slot =>
    obtain ⟨v,t,hv,hd,rfl⟩ := check_declaration.mp h
    obtain ⟨_,rfl⟩ := Context.defineVariable_iff.mp hd
    obtain ⟨ht,hf,hb⟩ := Expr.filled_of_checkInitial hΓ hv
    exact ⟨⟨⟨t,rfl,ht⟩,hf⟩,rfl,by simp only [bare,hb]⟩
  | assignment r e =>
    obtain ⟨x,r',t,b,e',u,_,hr,_,_,he,_,rfl,rfl⟩ := check_assignment.mp h
    exact ⟨⟨r.filled_of_check hΓ hr,e.filled_of_check hΓ he⟩,rfl,
      by simp only [bare,r.bare_of_check hr,e.bare_of_check he]⟩
  | ifElse c thenBlock elseBlock =>
    obtain ⟨c',t',e',hc,_,ht,he,rfl,rfl⟩ := check_ifElse.mp h
    obtain ⟨htf,htb⟩ := blockFilled_of_checkBlock hΓ.enter thenBlock ht
    obtain ⟨hef,heb⟩ := blockFilled_of_checkBlock hΓ.enter elseBlock he
    exact ⟨⟨c.filled_of_check hΓ hc,htf,hef⟩,rfl,by simp only [bare,c.bare_of_check hc,htb,heb]⟩
  | switch c cs =>
    obtain ⟨c',t,cs',hc,hcs,rfl,rfl⟩ := check_switch.mp h
    obtain ⟨hf,hb⟩ := allFilled_of_checkCases hΓ cs hcs
    exact ⟨⟨c.filled_of_check hΓ hc,hf⟩,rfl,by simp only [bare,c.bare_of_check hc,hb]⟩
  | loop c body =>
    obtain ⟨c',body',hc,hb,rfl,rfl⟩ := check_loop.mp h
    obtain ⟨hf,hbb⟩ := blockFilled_of_checkBlock hΓ.enter body hb
    exact ⟨⟨c.filled_of_check hΓ hc,hf⟩,rfl,by simp only [bare,c.bare_of_check hc,hbb]⟩
  | ret e =>
    obtain ⟨e',he,rfl,rfl⟩ := check_ret.mp h
    exact ⟨e.filled_of_check hΓ he,rfl,by simp only [bare,e.bare_of_check he]⟩

theorem blockFilled_of_checkBlock {Γ : Context} (hΓ : Γ.Matched) (ss : List Stmt)
    {ss' : List Stmt} (h : checkBlock Γ result ss = .ok ss') :
    BlockFilled Γ ss' ∧ bareBlock ss' = bareBlock ss := by
  cases ss with
  | nil =>
    obtain rfl := checkBlock_nil.mp h
    exact ⟨trivial,rfl⟩
  | cons s ss =>
    obtain ⟨s',Θ,ss',hs,hss,rfl⟩ := checkBlock_cons.mp h
    obtain ⟨hf,rfl,hb⟩ := filled_of_check hΓ s hs
    have hΘ := ((check_iff hΓ s _).mp ⟨s',hs⟩).matched hΓ
    obtain ⟨hsf,hsb⟩ := blockFilled_of_checkBlock hΘ ss hss
    exact ⟨⟨hf,hsf⟩,by simp only [bareBlock,hb,hsb]⟩

theorem allFilled_of_checkCases {Γ : Context} (hΓ : Γ.Matched) {t : Ty} (cs : List Case)
    {cs' : List Case} (h : Case.checkAll Γ result t cs = .ok cs') :
    Case.AllFilled Γ cs' ∧ Case.bareAll cs' = Case.bareAll cs := by
  cases cs with
  | nil => exact absurd h Case.checkAll_nil
  | cons c cs =>
    obtain ⟨value,body⟩ := c
    rcases Case.checkAll_eq_ok.mp h with
      ⟨rfl,hv,body',hb,rfl⟩ | ⟨_,e,e',u,body',ds,hv,he,_,hb,hds,rfl⟩
    · obtain ⟨hf,hbb⟩ := blockFilled_of_checkBlock hΓ.enter body hb
      exact ⟨⟨by simp,hf,trivial⟩,by simp only [Case.bareAll,hbb,show value = none from hv]⟩
    · obtain ⟨hf,hbb⟩ := blockFilled_of_checkBlock hΓ.enter body hb
      obtain ⟨hsf,hsb⟩ := allFilled_of_checkCases hΓ cs hds
      refine ⟨⟨?_,hf,hsf⟩,?_⟩
      · rintro _ ⟨⟩
        exact e.filled_of_check hΓ he
      · simp only [Case.bareAll,hbb,hsb,show value = some e from hv,Option.map_some,
          e.bare_of_check he]
end

end Stmt

namespace Global
variable {Γ Δ : Context} {g : Global} {t : Ty}

lemma mapM_named {name : Option String} {d : Option Ty} :
    name.mapM Ty.named = .ok d ↔
      (name = none ∧ d = none) ∨ ∃ n t, name = some n ∧ Ty.ofName? n = some t ∧ d = some t := by
  cases name with
  | none =>
    rw [Option.mapM_none,Checked.pure_eq_ok]
    simp [eq_comm]
  | some n =>
    cases hn : Ty.ofName? n <;> simp [Ty.named,hn,Checked.fail,Functor.map,Except.map,eq_comm]

theorem checkValue_iff (hΓ : Γ.Matched) :
    (∃ v, g.checkValue Γ = .ok (v,t)) ↔ g.HasType Γ t := by
  simp only [checkValue_eq_ok]
  constructor
  · rintro ⟨_,⟨es,s,d,es',u,hv,hd,hes,rfl,_⟩ | ⟨hv,h⟩⟩
    · rcases mapM_named.mp hd with ⟨hn,rfl⟩ | ⟨n,d,hn,ht,rfl⟩
      · refine .initial (by simp [hn]) ?_
        rw [hn,hv]
        exact .initial ((Expr.check_iff hΓ _ _).mp ⟨_,Expr.check_list.mpr ⟨es',u,hes,rfl,rfl⟩⟩)
      · obtain ⟨rfl,hs⟩ := (Expr.checkElements_iff hΓ es d u).mp ⟨es',hes⟩
        exact .list hv hn ht hs
    · exact .initial (fun _ es s _ => hv es s) ((Expr.checkInitial_iff hΓ).mp ⟨_,h⟩)
  · intro h
    cases h with
    | list hv hn ht hs =>
      obtain ⟨es',hes⟩ := (Expr.checkElements_iff hΓ _ _ _).mpr ⟨rfl,hs⟩
      exact ⟨_,.inl ⟨_,_,_,es',_,hv,mapM_named.mpr (.inr ⟨_,_,hn,ht,rfl⟩),hes,rfl,rfl⟩⟩
    | initial hv h =>
      obtain ⟨v,hc⟩ := (Expr.checkInitial_iff (x := g.name) hΓ).mpr h
      by_cases hl : ∃ es s, g.value = some (.list es s)
      · obtain ⟨es,s,hl⟩ := hl
        have hn : g.typeName = none := Option.eq_none_iff_forall_ne_some.mpr fun n hn => hv n es s hn hl
        rw [hn,hl] at hc
        rcases Expr.checkInitial_eq_ok.mp hc with ⟨he,_⟩ | ⟨e,i,u,he,_,hi,⟨_,rfl⟩ | ⟨n,h,_⟩⟩
        · cases he
        · cases he
          obtain ⟨es',u,hes,rfl,_⟩ := Expr.check_list.mp hi
          exact ⟨_,.inl ⟨es,s,none,es',u,hl,mapM_named.mpr (.inl ⟨hn,rfl⟩),hes,rfl,rfl⟩⟩
        · cases h
      · exact ⟨v,.inr ⟨fun es s h => hl ⟨es,s,h⟩,hc⟩⟩

lemma initialFilled_of_not_list {value : Option Expr} (hl : ∀ es s, value ≠ some (.list es s))
    (hf : ∀ e ∈ value, e.Filled Γ) : InitialFilled Γ t value := by
  unfold InitialFilled
  split
  · exact absurd rfl (hl _ _)
  · exact hf

/-- The value of a checked global is a value of the same type, with filled slots. -/
theorem filled_of_checkValue (hΓ : Γ.Matched) {value : Option Expr} {slot : Option (Binding Ty)}
    (h : g.checkValue Γ = .ok (value,t)) :
    (∀ u, { g with value := value, binding := slot }.HasType Γ u ↔ u = t) ∧
      InitialFilled Γ t value ∧ value.map Expr.bare = g.value.map Expr.bare := by
  suffices again : ({ g with value := value, binding := slot } : Global).checkValue Γ =
      .ok (value,t) ∧ InitialFilled Γ t value ∧ value.map Expr.bare = g.value.map Expr.bare from
    ⟨fun u => (checkValue_iff hΓ).symm.trans (Checked.exists_eq_ok again.1),again.2⟩
  rcases checkValue_eq_ok.mp h with ⟨es,s,d,es',u,hv,hd,hes,rfl,rfl⟩ | ⟨hv,hc⟩
  · refine ⟨checkValue_eq_ok.mpr (.inl ⟨es',_,d,es',u,rfl,hd,Expr.checkElements_again es hes,rfl,rfl⟩),
      ⟨rfl,Expr.allFilled_of_checkElements hΓ es hes⟩,?_⟩
    simp only [hv,Option.map_some,Expr.bare,Expr.bareAll_of_checkElements es hes]
  · obtain ⟨_,hf,hb⟩ := Expr.filled_of_checkInitial hΓ hc
    have hl : ∀ es s, value ≠ some (.list es s) := by
      rintro es s rfl
      rcases Expr.checkInitial_eq_ok.mp hc with ⟨_,h,_⟩ | ⟨e,i,u,he,hi,hei,_⟩
      · cases h
      · cases hi
        obtain ⟨es',s',rfl⟩ := Expr.list_of_bare (e.bare_of_check hei).symm
        exact hv es' s' he
    exact ⟨checkValue_eq_ok.mpr (.inr ⟨hl,Expr.checkInitial_again hc⟩),
      initialFilled_of_not_list hl hf,hb⟩

theorem checkAll_iff (hΓ : Γ.Matched) {gs : List Global} :
    (∃ gs', checkAll Γ gs = .ok (gs',Δ)) ↔ AllTyped Γ gs Δ := by
  induction gs generalizing Γ with
  | nil =>
    simp only [checkAll_nil]
    constructor
    · rintro ⟨_,_,rfl⟩
      exact .nil
    · intro h
      cases h
      exact ⟨_,rfl,rfl⟩
  | cons g gs ih =>
    simp only [checkAll_cons,check_eq_ok,Context.defineVariable_iff]
    constructor
    · rintro ⟨_,_,_,gs',⟨v,t,hv,⟨hx,rfl⟩,_⟩,hgs,_⟩
      exact .cons ((checkValue_iff hΓ).mp ⟨v,hv⟩) hx ((ih (hΓ.bind _)).mp ⟨gs',hgs⟩)
    · intro h
      cases h with
      | cons ht hx hs =>
        obtain ⟨v,hv⟩ := (checkValue_iff hΓ).mpr ht
        obtain ⟨gs',hgs⟩ := (ih (hΓ.bind _)).mpr hs
        exact ⟨_,_,_,gs',⟨v,_,hv,⟨hx,rfl⟩,rfl⟩,hgs,rfl⟩

theorem filled_of_checkAll (hΓ : Γ.Matched) {gs gs' : List Global}
    (h : checkAll Γ gs = .ok (gs',Δ)) :
    AllFilled Γ gs' Δ ∧ Δ.Matched ∧ gs'.map bare = gs.map bare := by
  induction gs generalizing Γ gs' with
  | nil =>
    obtain ⟨rfl,rfl⟩ := checkAll_nil.mp h
    exact ⟨.nil,hΓ,rfl⟩
  | cons g gs ih =>
    obtain ⟨_,_,gs',hg,hgs,rfl⟩ := checkAll_cons.mp h
    obtain ⟨v,t,hv,hd,rfl⟩ := check_eq_ok.mp hg
    obtain ⟨_,rfl⟩ := Context.defineVariable_iff.mp hd
    obtain ⟨ht,hf,hb⟩ := filled_of_checkValue hΓ hv
    obtain ⟨hs,hΔ,hbs⟩ := ih (hΓ.bind _) hgs
    refine ⟨.cons ⟨t,rfl,ht,hf⟩ rfl hs,hΔ,?_⟩
    simp only [List.map_cons,bare,hb,hbs]

end Global

namespace Context

lemma findVariable_bind (Γ : Context) (b : Binding Ty) (x : String) :
    (Γ.bind b).current.findVariable x =
      if b.name = x then some b else Γ.current.findVariable x := by
  simp only [bind,Frame.findVariable,List.find?_cons]
  by_cases h : b.name = x
  · simp [h]
  · rw [if_neg h,beq_eq_false_iff_ne.mpr h]

/-- Names are bound one after the other when they differ and are new in the innermost frame. -/
lemma defineAll_iff {Γ Δ : Context} {bs : List (Binding Ty)} :
    Γ.defineAll bs = .ok Δ ↔ (bs.map (·.name)).Nodup ∧
      (∀ b ∈ bs, Γ.current.findVariable b.name = none) ∧ Δ = bs.foldl bind Γ := by
  induction bs generalizing Γ with
  | nil => simp [defineAll,eq_comm]
  | cons b bs ih =>
    have hb : (∀ c ∈ bs, (Γ.bind b).current.findVariable c.name = none) ↔
        b.name ∉ bs.map (·.name) ∧ ∀ c ∈ bs, Γ.current.findVariable c.name = none := by
      simp only [findVariable_bind,List.mem_map,not_exists,not_and,← forall_and]
      refine forall_congr' fun c => ?_
      by_cases hc : b.name = c.name <;> simp [hc,eq_comm]
    simp only [defineAll_cons_eq_ok,defineVariable_iff,ih,List.map_cons,List.nodup_cons,
      List.forall_mem_cons,List.foldl_cons]
    constructor
    · rintro ⟨_,⟨hx,rfl⟩,hn,hbs,rfl⟩
      exact ⟨⟨(hb.mp hbs).1,hn⟩,⟨hx,(hb.mp hbs).2⟩,rfl⟩
    · rintro ⟨⟨hm,hn⟩,⟨hx,hbs⟩,rfl⟩
      exact ⟨_,⟨hx,rfl⟩,hn,hb.mpr ⟨hm,hbs⟩,rfl⟩

end Context

namespace Function
variable {Γ Δ : Context} {f : Function} {s : Signature}

lemma declares_iff : f.declared = .ok s ↔ f.Declares s := by
  rw [declared_eq_ok,Checked.mapM_eq_ok]
  simp only [Ty.named_eq_ok]
  constructor
  · rintro ⟨hp,⟨hn,hr⟩ | ⟨n,hn,hr⟩⟩
    · exact ⟨hp,by simp [hn,hr]⟩
    · exact ⟨hp,by simp [hn,hr]⟩
  · rintro ⟨hp,hr⟩
    cases hn : f.resultTypeName with
    | none => simp_all
    | some n => simp_all

lemma Declares.length_eq (h : f.Declares s) :
    f.parameterTypeNames.length = s.parameters.length := h.parameters.length_eq

/-- The functions are declared in order, each with the signature it is paired with. -/
theorem declareAll_iff {fs : List Function} {gs : List (Function × Signature)} :
    declareAll Γ fs = .ok (gs,Δ) ↔ ∃ ss, AllDeclared Γ fs ss Δ ∧ gs = fs.zip ss := by
  induction fs generalizing Γ gs with
  | nil =>
    rw [declareAll_nil]
    constructor
    · rintro ⟨rfl,rfl⟩
      exact ⟨[],.nil,rfl⟩
    · rintro ⟨_,h,rfl⟩
      cases h
      exact ⟨rfl,rfl⟩
  | cons f fs ih =>
    simp only [declareAll_cons,Context.defineFunction_eq_ok,ih]
    constructor
    · rintro ⟨s,_,_,hf,⟨hx,rfl⟩,⟨ss,hs,rfl⟩,rfl⟩
      exact ⟨s :: ss,.cons (declares_iff.mp hf) hx hs,rfl⟩
    · rintro ⟨_,h,rfl⟩
      cases h with
      | cons hf hx hs => exact ⟨_,_,_,declares_iff.mpr hf,⟨hx,rfl⟩,⟨_,hs,rfl⟩,rfl⟩

lemma AllDeclared.forall₂ {fs : List Function} {ss : List Signature}
    (h : AllDeclared Γ fs ss Δ) : List.Forall₂ Declares fs ss := by
  induction h with
  | nil => exact .nil
  | cons h _ _ ih => exact .cons h ih

/-- Every declared signature fits its function when the text gives a type to each parameter. -/
lemma AllDeclared.matched {fs : List Function} {ss : List Signature} (h : AllDeclared Γ fs ss Δ)
    (hΓ : Γ.Matched) (hl : ∀ f ∈ fs, f.parameters.length = f.parameterTypeNames.length) :
    Δ.Matched := by
  induction h with
  | nil => exact hΓ
  | cons hf _ _ ih =>
    have hs := (hl _ List.mem_cons_self).trans hf.length_eq
    exact ih (hΓ.declare hs) fun g hg => hl g (List.mem_cons_of_mem _ hg)

lemma Matched.foldl_bind (hΓ : Γ.Matched) (bs : List (Binding Ty)) :
    (bs.foldl Context.bind Γ).Matched := by
  induction bs generalizing Γ with
  | nil => exact hΓ
  | cons b bs ih => exact ih (hΓ.bind b)

lemma inside_eq_ok (hl : f.parameters.length = s.parameters.length) :
    Γ.enter.defineAll (f.bindings s) = .ok Δ ↔ f.parameters.Nodup ∧ Δ = f.inside Γ s := by
  have hn : (f.bindings s).map (·.name) = f.parameters := by
    apply List.ext_getElem
    · simp [bindings,hl]
    · simp [bindings]
  rw [Context.defineAll_iff,hn]
  simp [Context.enter,Frame.empty,Frame.findVariable,inside]

theorem check_iff (hΓ : Γ.Matched) (hl : f.parameters.length = s.parameters.length) :
    (∃ f', f.check Γ s = .ok f') ↔ f.Typed Γ s := by
  have hi : (f.inside Γ s).Matched := Matched.foldl_bind hΓ.enter _
  simp only [check_eq_ok,inside_eq_ok hl]
  constructor
  · rintro ⟨_,_,body,⟨hp,rfl⟩,hb,_⟩
    exact ⟨hp,(Stmt.checkBlock_iff hi f.body).mp ⟨body,hb⟩⟩
  · rintro ⟨hp,hb⟩
    obtain ⟨body,hb⟩ := (Stmt.checkBlock_iff hi f.body).mpr hb
    exact ⟨_,_,body,⟨hp,rfl⟩,hb,rfl⟩

theorem filled_of_check (hΓ : Γ.Matched) (hl : f.parameters.length = s.parameters.length)
    (hs : f.Declares s) {f' : Function} (h : f.check Γ s = .ok f') :
    f'.Filled Γ ∧ f'.bare = f.bare := by
  obtain ⟨_,body,hd,hb,rfl⟩ := check_eq_ok.mp h
  obtain ⟨_,rfl⟩ := (inside_eq_ok hl).mp hd
  obtain ⟨hf,hbb⟩ := Stmt.blockFilled_of_checkBlock (Matched.foldl_bind hΓ.enter _) f.body hb
  exact ⟨⟨s,rfl,⟨hs.parameters,hs.result⟩,hf⟩,by simp only [bare,hbb]⟩

end Function

lemma Checked.exists_of_toBool {α : Type} {r : Checked α} (h : r.toBool = true) :
    ∃ a, r = .ok a := by
  cases r with
  | ok a => exact ⟨a,rfl⟩
  | error e => cases h

namespace Program
variable {names : Frame Ty Signature} {p p' : Program}

lemma hasMain_iff : p.functions.any Function.isMain = true ↔ p.HasMain := by
  simp [HasMain,Function.isMain,and_assoc]

/-- A map that may fail succeeds when it does on every member. -/
lemma exists_mapM {α β : Type} {f : α → Checked β} {as : List α} :
    (∃ bs, as.mapM f = .ok bs) ↔ ∀ a ∈ as, ∃ b, f a = .ok b := by
  simp only [Checked.mapM_eq_ok]
  induction as with
  | nil => simp
  | cons a as ih =>
    rw [List.forall_mem_cons,← ih]
    constructor
    · rintro ⟨_,h⟩
      cases h with
      | cons h hs => exact ⟨⟨_,h⟩,_,hs⟩
    · rintro ⟨⟨b,h⟩,bs,hs⟩
      exact ⟨b :: bs,.cons h hs⟩

lemma matched_ofFrame (hn : names.Matched) : (Context.ofFrame names).Matched :=
  List.forall_mem_cons.mpr ⟨hn,nofun⟩

lemma standardNames_matched : standardNames.Matched := by
  simp [standardNames,Frame.replaceFunction,Frame.empty,Frame.Matched]

/-- The signature declared for a function fits it. -/
lemma length_eq_of_mem {fs : List Function} {ss : List Signature}
    (hd : List.Forall₂ Function.Declares fs ss)
    (hl : ∀ f ∈ fs, f.parameters.length = f.parameterTypeNames.length) {f : Function}
    {s : Signature} (h : (f,s) ∈ fs.zip ss) : f.parameters.length = s.parameters.length :=
  (hl f (List.of_mem_zip h).1).trans (List.forall₂_zip hd h).length_eq

/-- The bodies are checked with the names of the whole program in sight. -/
lemma checkBodies_iff {Δ : Context} (hΔ : Δ.Matched) {fs : List Function} {ss : List Signature}
    (hd : List.Forall₂ Function.Declares fs ss)
    (hl : ∀ f ∈ fs, f.parameters.length = f.parameterTypeNames.length) :
    (∃ fs', (fs.zip ss).mapM (fun g => g.1.check Δ g.2) = .ok fs') ↔
      List.Forall₂ (Function.Typed Δ) fs ss := by
  rw [exists_mapM,List.forall₂_iff_zip]
  constructor
  · intro h
    exact ⟨hd.length_eq,fun hg => (Function.check_iff hΔ (length_eq_of_mem hd hl hg)).mp (h _ hg)⟩
  · rintro ⟨_,h⟩ ⟨f,s⟩ hg
    exact (Function.check_iff hΔ (length_eq_of_mem hd hl hg)).mpr (h hg)

theorem exists_check_iff (hn : names.Matched)
    (hl : ∀ f ∈ p.functions, f.parameters.length = f.parameterTypeNames.length) :
    (∃ p', p.check names = .ok p') ↔ p.Typed names ∧ p.HasMain := by
  have hΓ := matched_ofFrame hn
  simp only [check_eq_ok,hasMain_iff,Function.declareAll_iff]
  constructor
  · rintro ⟨_,hm,gs,Γ,_,Δ,fs',hg,⟨ss,hd,rfl⟩,hb,_⟩
    have hΔ := hd.matched (Global.filled_of_checkAll hΓ hg).2.1 hl
    exact ⟨⟨Γ,ss,Δ,(Global.checkAll_iff hΓ).mp ⟨gs,hg⟩,hd,
      (checkBodies_iff hΔ hd.forall₂ hl).mp ⟨fs',hb⟩⟩,hm⟩
  · rintro ⟨⟨Γ,ss,Δ,hg,hd,hb⟩,hm⟩
    obtain ⟨gs,hg⟩ := (Global.checkAll_iff hΓ).mpr hg
    have hΔ := hd.matched (Global.filled_of_checkAll hΓ hg).2.1 hl
    obtain ⟨fs',hfs⟩ := (checkBodies_iff hΔ hd.forall₂ hl).mpr hb
    exact ⟨_,hm,gs,Γ,_,Δ,fs',hg,⟨ss,hd,rfl⟩,hfs,rfl⟩

/-- Declaring functions looks at their texts alone. -/
lemma declared_of_bare {Γ Δ : Context} {fs fs' : List Function} {ss : List Signature}
    (h : fs'.map Function.bare = fs.map Function.bare) (hd : Function.AllDeclared Γ fs ss Δ) :
    Function.AllDeclared Γ fs' ss Δ := by
  induction hd generalizing fs' with
  | nil =>
    obtain rfl := List.map_eq_nil_iff.mp h
    exact .nil
  | @cons Γ Δ f fs s ss hf hx _ ih =>
    obtain ⟨f',fs',rfl,hb,hbs⟩ := List.map_eq_cons_iff.mp h
    obtain ⟨x,ps,ts,r,body,slot⟩ := f
    obtain ⟨x',ps',ts',r',body',slot'⟩ := f'
    simp only [Function.bare,Function.mk.injEq] at hb
    obtain ⟨rfl,rfl,rfl,rfl,_,_⟩ := hb
    exact .cons ⟨hf.parameters,hf.result⟩ hx (ih hbs)

lemma filled_of_checkBodies {Δ : Context} (hΔ : Δ.Matched) {fs fs' : List Function}
    {ss : List Signature} (hd : List.Forall₂ Function.Declares fs ss)
    (hl : ∀ f ∈ fs, f.parameters.length = f.parameterTypeNames.length)
    (h : (fs.zip ss).mapM (fun g => g.1.check Δ g.2) = .ok fs') :
    (∀ f ∈ fs', f.Filled Δ) ∧ fs'.map Function.bare = fs.map Function.bare := by
  induction hd generalizing fs' with
  | nil =>
    cases Checked.mapM_eq_ok.mp h
    exact ⟨nofun,rfl⟩
  | cons hf _ ih =>
    cases Checked.mapM_eq_ok.mp h with
    | cons hc hcs =>
      obtain ⟨hlf,hls⟩ := List.forall_mem_cons.mp hl
      obtain ⟨hfill,hb⟩ := Function.filled_of_check hΔ (hlf.trans hf.length_eq) hf hc
      obtain ⟨hs,hbs⟩ := ih hls (Checked.mapM_eq_ok.mpr hcs)
      exact ⟨List.forall_mem_cons.mpr ⟨hfill,hs⟩,by simp only [List.map_cons,hb,hbs]⟩

theorem filled_of_check (hn : names.Matched)
    (hl : ∀ f ∈ p.functions, f.parameters.length = f.parameterTypeNames.length)
    (h : p.check names = .ok p') : p'.Filled names ∧ p'.bare = p.bare := by
  obtain ⟨_,gs,Γ,_,Δ,fs',hg,hf,hb,rfl⟩ := check_eq_ok.mp h
  obtain ⟨ss,hd,rfl⟩ := Function.declareAll_iff.mp hf
  obtain ⟨hgf,hΓ,hgb⟩ := Global.filled_of_checkAll (matched_ofFrame hn) hg
  obtain ⟨hff,hfb⟩ := filled_of_checkBodies (hd.matched hΓ hl) hd.forall₂ hl hb
  exact ⟨⟨Γ,ss,Δ,hgf,declared_of_bare hfb hd,hff⟩,by simp only [bare,hgb,hfb]⟩

/-- A check decides the typing rules: it succeeds on the programs that they derive and that have a
`main`, and leaves in every slot what the rules derive there, and the rest of the tree as it was. -/
theorem check_decides_typing (names : Frame Ty Signature) (p : Program) (hn : names.Matched)
    (hl : ∀ f ∈ p.functions, f.parameters.length = f.parameterTypeNames.length) :
    ((∃ p', p.check names = .ok p') ↔ p.Typed names ∧ p.HasMain) ∧
      ∀ p', p.check names = .ok p' → p'.Filled names ∧ p'.bare = p.bare :=
  ⟨exists_check_iff hn hl,fun _ => filled_of_check hn hl⟩

/-- A body calls a function that is declared after it, with a global. -/
def forwardCall : Program :=
  ⟨[⟨"n",none,false,some (.literal (.integer 5) none),none⟩],
    [⟨"main",[],[],some "Integer",[.ret (.call "same" [.ref "n" none none] none none)],none⟩,
      ⟨"same",["x"],["Integer"],some "Integer",[.ret (.ref "x" none none)],none⟩]⟩

theorem check_decides_typing_forward :
    standardNames.Matched ∧
    (∀ f ∈ forwardCall.functions, f.parameters.length = f.parameterTypeNames.length) ∧
    forwardCall.Typed standardNames ∧ ∃ p', forwardCall.check standardNames = .ok p' ∧
      p'.Filled standardNames ∧ p'.bare = forwardCall.bare := by
  have hn : standardNames.Matched := by
    simp [standardNames,Frame.replaceFunction,Frame.empty,Frame.Matched]
  have hl : ∀ f ∈ forwardCall.functions, f.parameters.length = f.parameterTypeNames.length := by
    decide
  obtain ⟨hiff,hfill⟩ := check_decides_typing standardNames forwardCall hn hl
  obtain ⟨p',hp⟩ : ∃ p', forwardCall.check standardNames = .ok p' :=
    Checked.exists_of_toBool (by decide +kernel)
  exact ⟨hn,hl,(hiff.mp ⟨p',hp⟩).1,p',hp,hfill p' hp⟩

end Program
end BlockScript
