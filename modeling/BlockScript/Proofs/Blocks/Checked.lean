import BlockScript.Proofs.Blocks.Site
import BlockScript.Proofs.Declarations.Check
import BlockScript.Proofs.Execution.Rules
import BlockScript.Proofs.Typing.Decides.Program
/-! The check of a program around a block. The block is checked by itself, among the names that the rest
leaves in sight there, and the rest in the same way whatever stands in its place. -/
namespace BlockScript

namespace Stmt
variable {result : Ty}

lemma matched_of_check {Γ Δ : Context} {s s' : Stmt} (hΓ : Γ.Matched)
    (h : s.check Γ result = .ok (s',Δ)) : Δ.Matched :=
  ((check_iff hΓ s Δ).mp ⟨s',h⟩).matched hΓ

/-- Statements that stand first in a block are checked one after the other, with the names in sight
before them and after them. -/
inductive Leads (result : Ty) : Context → List Stmt → List Stmt → Context → Prop
  | nil {Γ : Context} : Leads result Γ [] [] Γ
  | cons {Γ Θ Δ : Context} {s s' : Stmt} {ss ss' : List Stmt} :
    s.check Γ result = .ok (s',Θ) → Leads result Θ ss ss' Δ → Leads result Γ (s :: ss) (s' :: ss') Δ

lemma checkBlock_append {Γ : Context} {before rest ts : List Stmt} :
    checkBlock Γ result (before ++ rest) = .ok ts ↔ ∃ Δ before' rest',
      Leads result Γ before before' Δ ∧ checkBlock Δ result rest = .ok rest' ∧
        ts = before' ++ rest' := by
  induction before generalizing Γ ts with
  | nil =>
    constructor
    · exact fun h => ⟨Γ,[],ts,.nil,h,rfl⟩
    · rintro ⟨_,_,_,h,hrest,rfl⟩
      cases h
      exact hrest
  | cons s before ih =>
    rw [List.cons_append,checkBlock_cons]
    constructor
    · rintro ⟨s',Θ,_,hs,hss,rfl⟩
      obtain ⟨Δ,before',rest',hlead,hrest,rfl⟩ := ih.mp hss
      exact ⟨Δ,s' :: before',rest',.cons hs hlead,hrest,rfl⟩
    · rintro ⟨Δ,_,rest',h,hrest,rfl⟩
      cases h with
      | cons hs hlead => exact ⟨_,_,_,hs,ih.mpr ⟨Δ,_,rest',hlead,hrest,rfl⟩,rfl⟩

lemma checkBlock_among {Γ : Context} {before after ts : List Stmt} {s : Stmt} :
    checkBlock Γ result (before ++ s :: after) = .ok ts ↔ ∃ Θ Δ before' s' after',
      Leads result Γ before before' Θ ∧ s.check Θ result = .ok (s',Δ) ∧
        checkBlock Δ result after = .ok after' ∧ ts = before' ++ s' :: after' := by
  rw [checkBlock_append]
  constructor
  · rintro ⟨Θ,before',_,hlead,hrest,rfl⟩
    obtain ⟨s',Δ,after',hs,hafter,rfl⟩ := checkBlock_cons.mp hrest
    exact ⟨Θ,Δ,before',s',after',hlead,hs,hafter,rfl⟩
  · rintro ⟨Θ,Δ,before',s',after',hlead,hs,hafter,rfl⟩
    exact ⟨Θ,before',_,hlead,checkBlock_cons.mpr ⟨s',Δ,after',hs,hafter,rfl⟩,rfl⟩

namespace Leads
variable {Γ Δ : Context} {ss ss' : List Stmt}

lemma unique {Θ : Context} {us : List Stmt} (h : Leads result Γ ss ss' Δ) (h' : Leads result Γ ss us Θ) :
    Δ = Θ := by
  induction h generalizing us with
  | nil =>
    cases h'
    rfl
  | cons hs _ ih =>
    cases h' with
    | cons hs' hrest =>
      obtain ⟨rfl,rfl⟩ := Prod.mk.inj (Except.ok.inj (hs.symm.trans hs'))
      exact ih hrest

lemma matched (h : Leads result Γ ss ss' Δ) (hΓ : Γ.Matched) : Δ.Matched := by
  induction h with
  | nil => exact hΓ
  | cons hs _ ih => exact ih (matched_of_check hΓ hs)

lemma bare (h : Leads result Γ ss ss' Δ) (hΓ : Γ.Matched) : bareBlock ss' = bareBlock ss := by
  induction h with
  | nil => rfl
  | cons hs _ ih =>
    rw [bareBlock,bareBlock,(filled_of_check hΓ _ hs).2.2,ih (matched_of_check hΓ hs)]

end Leads

/-- Only a declaration changes the names in sight. -/
lemma check_leaves {Γ Δ : Context} {s s' : Stmt} (hs : s.declares = [])
    (h : s.check Γ result = .ok (s',Δ)) : Δ = Γ := by
  cases s with
  | expression e => obtain ⟨_,_,_,_,rfl⟩ := check_expression.mp h; rfl
  | declaration x typeName value slot => cases hs
  | assignment receiver e => obtain ⟨_,_,_,_,_,_,_,_,_,_,_,_,_,rfl⟩ := check_assignment.mp h; rfl
  | ifElse c thenBlock elseBlock => obtain ⟨_,_,_,_,_,_,_,_,rfl⟩ := check_ifElse.mp h; rfl
  | switch c cases => obtain ⟨_,_,_,_,_,_,rfl⟩ := check_switch.mp h; rfl
  | loop c body => obtain ⟨_,_,_,_,_,rfl⟩ := check_loop.mp h; rfl
  | ret e => obtain ⟨_,_,_,rfl⟩ := check_ret.mp h; rfl

end Stmt

/-- An arm of a checked switch is checked by itself, and the others in the same way whatever its block
is. -/
lemma Case.checkAll_arm {Γ : Context} (hΓ : Γ.Matched) {result t : Ty} {earlier later : List Case}
    {value : Option Expr} {body : List Stmt} {ds : List Case}
    (h : checkAll Γ result t (earlier ++ mk value body :: later) = .ok ds) :
    ∃ earlier' value' body' later', ds = earlier' ++ mk value' body' :: later' ∧
      (bareAll earlier' = bareAll earlier ∧ value'.map Expr.bare = value.map Expr.bare ∧
        bareAll later' = bareAll later) ∧ Stmt.checkBlock Γ.enter result body = .ok body' ∧
      ∀ rs rs', Stmt.checkBlock Γ.enter result rs = .ok rs' →
        checkAll Γ result t (earlier ++ mk value rs :: later) =
          .ok (earlier' ++ mk value' rs' :: later') := by
  induction earlier generalizing ds with
  | nil =>
    rcases checkAll_eq_ok.mp h with
      ⟨rfl,hv,body',hb,rfl⟩ | ⟨hne,e,e',u,body',later',hv,he,ha,hb,hlater,rfl⟩
    · obtain rfl : value = none := hv
      exact ⟨[],none,body',[],rfl,⟨rfl,rfl,rfl⟩,hb,fun rs rs' hrs =>
        checkAll_eq_ok.mpr (.inl ⟨rfl,rfl,rs',hrs,rfl⟩)⟩
    · obtain rfl : value = some e := hv
      refine ⟨[],some e',body',later',rfl,⟨rfl,?_,(Stmt.allFilled_of_checkCases hΓ later hlater).2⟩,
        hb,fun rs rs' hrs => ?_⟩
      · rw [Option.map_some,Option.map_some,e.bare_of_check he]
      · exact checkAll_eq_ok.mpr (.inr ⟨hne,e,e',u,rs',later',rfl,he,ha,hrs,hlater,rfl⟩)
  | cons c earlier ih =>
    obtain ⟨v,block⟩ := c
    rw [List.cons_append] at h
    rcases checkAll_eq_ok.mp h with ⟨hnil,_⟩ | ⟨_,e,e',u,block',_,hv,he,ha,hb,hds,rfl⟩
    · exact absurd hnil (List.append_ne_nil_of_right_ne_nil _ (List.cons_ne_nil _ _))
    · obtain rfl : v = some e := hv
      obtain ⟨earlier',value',body',later',rfl,⟨hearlier,hvalue,hlater⟩,hbody,hfill⟩ := ih hds
      refine ⟨mk (some e') block' :: earlier',value',body',later',rfl,⟨?_,hvalue,hlater⟩,hbody,
        fun rs rs' hrs => ?_⟩
      · rw [bareAll,bareAll,hearlier,Option.map_some,Option.map_some,e.bare_of_check he,
          (Stmt.blockFilled_of_checkBlock hΓ.enter block hb).2]
      · rw [List.cons_append,List.cons_append]
        exact checkAll_eq_ok.mpr (.inr ⟨List.append_ne_nil_of_right_ne_nil _ (List.cons_ne_nil _ _),
          e,e',u,block',_,rfl,he,ha,hb,hfill rs rs' hrs,rfl⟩)

namespace Stmt.Site

/-- The place without what a check fills in around it. -/
def bare : Stmt.Site → Stmt.Site
  | whole => whole
  | inThen before c site elseBlock after =>
    inThen (bareBlock before) c.bare site.bare (bareBlock elseBlock) (bareBlock after)
  | inElse before c thenBlock site after =>
    inElse (bareBlock before) c.bare (bareBlock thenBlock) site.bare (bareBlock after)
  | inArm before c earlier value site later after =>
    inArm (bareBlock before) c.bare (Case.bareAll earlier) (value.map Expr.bare) site.bare
      (Case.bareAll later) (bareBlock after)
  | inLoop before c site after => inLoop (bareBlock before) c.bare site.bare (bareBlock after)

/-- With the block in its place, no conditional around it has an empty then-block. -/
def Admits : Stmt.Site → List Stmt → Prop
  | whole, _ => True
  | inThen _ _ site _ _, ss => site.fill ss ≠ [] ∧ site.Admits ss
  | inElse _ _ _ site _, ss | inArm _ _ _ _ site _ _, ss | inLoop _ _ site _, ss => site.Admits ss

/-- The names in sight at the beginning of the block: those of what is checked before it, in every block
around it. -/
inductive Sees (result : Ty) : Context → Stmt.Site → Context → Prop
  | whole {Γ : Context} : Sees result Γ whole Γ
  | inThen {Γ Θ Δ : Context} {before before' : List Stmt} {c : Expr} {site : Stmt.Site}
      {elseBlock after : List Stmt} (hb : Leads result Γ before before' Θ)
      (hs : Sees result Θ.enter site Δ) : Sees result Γ (inThen before c site elseBlock after) Δ
  | inElse {Γ Θ Δ : Context} {before before' : List Stmt} {c : Expr} {thenBlock : List Stmt}
      {site : Stmt.Site} {after : List Stmt} (hb : Leads result Γ before before' Θ)
      (hs : Sees result Θ.enter site Δ) : Sees result Γ (inElse before c thenBlock site after) Δ
  | inArm {Γ Θ Δ : Context} {before before' : List Stmt} {c : Expr} {earlier : List Case}
      {value : Option Expr} {site : Stmt.Site} {later : List Case} {after : List Stmt}
      (hb : Leads result Γ before before' Θ) (hs : Sees result Θ.enter site Δ) :
    Sees result Γ (inArm before c earlier value site later after) Δ
  | inLoop {Γ Θ Δ : Context} {before before' : List Stmt} {c : Expr} {site : Stmt.Site}
      {after : List Stmt} (hb : Leads result Γ before before' Θ) (hs : Sees result Θ.enter site Δ) :
    Sees result Γ (inLoop before c site after) Δ

lemma Sees.unique {result : Ty} {Γ Δ Θ : Context} {S : Stmt.Site} (h : S.Sees result Γ Δ)
    (h' : S.Sees result Γ Θ) : Δ = Θ := by
  induction h with
  | whole =>
    cases h'
    rfl
  | inThen hb _ ih =>
    cases h' with
    | inThen hb' hs' =>
      obtain rfl := hb.unique hb'
      exact ih hs'
  | inElse hb _ ih =>
    cases h' with
    | inElse hb' hs' =>
      obtain rfl := hb.unique hb'
      exact ih hs'
  | inArm hb _ ih =>
    cases h' with
    | inArm hb' hs' =>
      obtain rfl := hb.unique hb'
      exact ih hs'
  | inLoop hb _ ih =>
    cases h' with
    | inLoop hb' hs' =>
      obtain rfl := hb.unique hb'
      exact ih hs'

/-- A block is checked among the names of `Δ`, and what is around it is filled like `S'`. -/
structure Checks (result : Ty) (Γ : Context) (S S' : Stmt.Site) (Δ : Context) : Prop where
  bare : S'.bare = S.bare
  matched : Δ.Matched
  fill : ∀ ss ss', S.Admits ss → checkBlock Δ result ss = .ok ss' →
    checkBlock Γ result (S.fill ss) = .ok (S'.fill ss')

/-- A block of a checked one is checked by itself, and all around it in the same way whatever stands
in its place. -/
theorem check_fill {result : Ty} {Γ : Context} (hΓ : Γ.Matched) (S : Stmt.Site)
    {ss ts : List Stmt} (h : checkBlock Γ result (S.fill ss) = .ok ts) :
    ∃ S' Δ ss', S.Checks result Γ S' Δ ∧ S.Sees result Γ Δ ∧ checkBlock Δ result ss = .ok ss' ∧
      ts = S'.fill ss' := by
  induction S generalizing Γ ts with
  | whole => exact ⟨whole,Γ,ts,⟨rfl,hΓ,fun _ _ _ hss => hss⟩,.whole,h,rfl⟩
  | inThen before c site elseBlock after ih =>
    obtain ⟨_,Θ,before',_,after',hbefore,hs,hafter,rfl⟩ := checkBlock_among.mp h
    obtain ⟨c',_,else',hc,_,hthen,helse,rfl,rfl⟩ := check_ifElse.mp hs
    have hΘ := hbefore.matched hΓ
    obtain ⟨site',Δ,ss',hsite,hsees,hss,rfl⟩ := ih hΘ.enter hthen
    refine ⟨inThen before' c' site' else' after',Δ,ss',⟨?_,hsite.matched,fun rs rs' ha hrs => ?_⟩,
      .inThen hbefore hsees,hss,rfl⟩
    · simp only [bare,hbefore.bare hΓ,c.bare_of_check hc,hsite.bare,
        (blockFilled_of_checkBlock hΘ.enter elseBlock helse).2,
        (blockFilled_of_checkBlock hΘ after hafter).2]
    · have hif := check_ifElse.mpr ⟨c',_,else',hc,ha.1,hsite.fill rs rs' ha.2 hrs,helse,rfl,rfl⟩
      exact checkBlock_among.mpr ⟨Θ,Θ,before',_,after',hbefore,hif,hafter,rfl⟩
  | inElse before c thenBlock site after ih =>
    obtain ⟨_,Θ,before',_,after',hbefore,hs,hafter,rfl⟩ := checkBlock_among.mp h
    obtain ⟨c',then',_,hc,hne,hthen,helse,rfl,rfl⟩ := check_ifElse.mp hs
    have hΘ := hbefore.matched hΓ
    obtain ⟨site',Δ,ss',hsite,hsees,hss,rfl⟩ := ih hΘ.enter helse
    refine ⟨inElse before' c' then' site' after',Δ,ss',⟨?_,hsite.matched,fun rs rs' ha hrs => ?_⟩,
      .inElse hbefore hsees,hss,rfl⟩
    · simp only [bare,hbefore.bare hΓ,c.bare_of_check hc,hsite.bare,
        (blockFilled_of_checkBlock hΘ.enter thenBlock hthen).2,
        (blockFilled_of_checkBlock hΘ after hafter).2]
    · have hif := check_ifElse.mpr ⟨c',then',_,hc,hne,hthen,hsite.fill rs rs' ha hrs,rfl,rfl⟩
      exact checkBlock_among.mpr ⟨Θ,Θ,before',_,after',hbefore,hif,hafter,rfl⟩
  | inArm before c earlier value site later after ih =>
    obtain ⟨_,Θ,before',_,after',hbefore,hs,hafter,rfl⟩ := checkBlock_among.mp h
    obtain ⟨c',t,_,hc,hcases,rfl,rfl⟩ := check_switch.mp hs
    have hΘ := hbefore.matched hΓ
    obtain ⟨earlier',value',_,later',rfl,⟨hearlier,hvalue,hlater⟩,hbody,hfill⟩ :=
      Case.checkAll_arm hΘ hcases
    obtain ⟨site',Δ,ss',hsite,hsees,hss,rfl⟩ := ih hΘ.enter hbody
    refine ⟨inArm before' c' earlier' value' site' later' after',Δ,ss',
      ⟨?_,hsite.matched,fun rs rs' ha hrs => ?_⟩,.inArm hbefore hsees,hss,rfl⟩
    · simp only [bare,hbefore.bare hΓ,c.bare_of_check hc,hsite.bare,hearlier,hvalue,hlater,
        (blockFilled_of_checkBlock hΘ after hafter).2]
    · have hswitch := check_switch.mpr
        ⟨c',t,_,hc,hfill _ _ (hsite.fill rs rs' ha hrs),rfl,rfl⟩
      exact checkBlock_among.mpr ⟨Θ,Θ,before',_,after',hbefore,hswitch,hafter,rfl⟩
  | inLoop before c site after ih =>
    obtain ⟨_,Θ,before',_,after',hbefore,hs,hafter,rfl⟩ := checkBlock_among.mp h
    obtain ⟨c',_,hc,hbody,rfl,rfl⟩ := check_loop.mp hs
    have hΘ := hbefore.matched hΓ
    obtain ⟨site',Δ,ss',hsite,hsees,hss,rfl⟩ := ih hΘ.enter hbody
    refine ⟨inLoop before' c' site' after',Δ,ss',⟨?_,hsite.matched,fun rs rs' ha hrs => ?_⟩,
      .inLoop hbefore hsees,hss,rfl⟩
    · simp only [bare,hbefore.bare hΓ,c.bare_of_check hc,hsite.bare,
        (blockFilled_of_checkBlock hΘ after hafter).2]
    · have hloop := check_loop.mpr ⟨c',_,hc,hsite.fill rs rs' ha hrs,rfl,rfl⟩
      exact checkBlock_among.mpr ⟨Θ,Θ,before',_,after',hbefore,hloop,hafter,rfl⟩

end Stmt.Site

/-- A list that is related to one cut at a member is cut in the same way. -/
lemma forall₂_among {α β : Type} {r : α → β → Prop} {as bs : List α} {a : α} {cs : List β}
    (h : List.Forall₂ r (as ++ a :: bs) cs) : ∃ as' a' bs', List.Forall₂ r as as' ∧ r a a' ∧
      List.Forall₂ r bs bs' ∧ cs = as' ++ a' :: bs' := by
  induction as generalizing cs with
  | nil =>
    cases h with
    | cons ha hbs => exact ⟨[],_,_,.nil,ha,hbs,rfl⟩
  | cons _ as ih =>
    cases h with
    | cons hc h =>
      obtain ⟨as',a',bs',has,ha,hbs,rfl⟩ := ih h
      exact ⟨_ :: as',a',bs',.cons hc has,ha,hbs,rfl⟩

namespace Function
variable {Γ Δ : Context}

/-- Declaring functions does not look at their bodies. -/
lemma exists_declareAll_body {before after : List Function} {f : Function} (body : List Stmt)
    {ds : List (Function × Signature)}
    (h : declareAll Γ (before ++ f :: after) = .ok (ds,Δ)) :
    ∃ es, declareAll Γ (before ++ { f with body := body } :: after) = .ok (es,Δ) := by
  induction before generalizing Γ ds with
  | nil =>
    obtain ⟨s,Θ,_,hs,hd,hafter,_⟩ := declareAll_cons.mp h
    exact ⟨_,declareAll_cons.mpr ⟨s,Θ,_,hs,hd,hafter,rfl⟩⟩
  | cons g before ih =>
    obtain ⟨s,Θ,_,hs,hd,hrest,_⟩ := declareAll_cons.mp h
    obtain ⟨es,hes⟩ := ih hrest
    exact ⟨_,declareAll_cons.mpr ⟨s,Θ,es,hs,hd,hes,rfl⟩⟩

lemma bare_of_fills (hΔ : Δ.Matched) {fs fs' : List Function}
    (hl : ∀ f ∈ fs, f.parameters.length = f.parameterTypeNames.length)
    (h : List.Forall₂ (Fills Δ) fs fs') : fs'.map bare = fs.map bare := by
  induction h with
  | nil => rfl
  | cons hf _ ih =>
    obtain ⟨hlf,hls⟩ := List.forall_mem_cons.mp hl
    obtain ⟨s,hs,hc⟩ := hf
    have hd := declares_iff.mp hs
    rw [List.map_cons,List.map_cons,(filled_of_check hΔ (hlf.trans hd.length_eq) hd hc).2,ih hls]

end Function

namespace Program
variable {names : Frame Ty Signature}

/-- A program is checked function by function, among the names of all. -/
lemma check_iff_fills {p t : Program} :
    p.check names = .ok t ↔ p.functions.any Function.isMain = true ∧ ∃ Γ ds Δ,
      Global.checkAll (.ofFrame names) p.globals = .ok (t.globals,Γ) ∧
      Function.declareAll Γ p.functions = .ok (ds,Δ) ∧
      List.Forall₂ (Function.Fills Δ) p.functions t.functions := by
  rw [check_eq_ok]
  refine and_congr_right fun _ => ⟨?_,?_⟩
  · rintro ⟨gs,Γ,ds,Δ,fs,hgs,hds,hfs,rfl⟩
    exact ⟨Γ,ds,Δ,hgs,hds,(Function.mapM_check_iff (Function.forall₂_of_declareAll hds)).mp hfs⟩
  · rintro ⟨Γ,ds,Δ,hgs,hds,hfs⟩
    exact ⟨_,Γ,ds,Δ,_,hgs,hds,
      (Function.mapM_check_iff (Function.forall₂_of_declareAll hds)).mpr hfs,rfl⟩

namespace Site

/-- The place without what a check fills in around it. -/
def bare (S : Program.Site) : Program.Site :=
  ⟨S.globals.map Global.bare,S.before.map Function.bare,
    { S.function with body := [], signature := none },S.site.bare,S.after.map Function.bare⟩

/-- The result type of the function and the names in sight at the beginning of the block. -/
inductive Sees (names : Frame Ty Signature) (S : Program.Site) : Ty → Context → Prop
  | intro {gs : List Global} {ds : List (Function × Signature)} {s : Signature} {Γ Δ Θ Λ : Context}
      (hg : Global.checkAll (.ofFrame names) S.globals = .ok (gs,Γ))
      (hd : Function.declareAll Γ (S.fill []).functions = .ok (ds,Δ)) (hs : S.function.declared = .ok s)
      (hi : Δ.enter.defineAll (S.function.bindings s) = .ok Θ) (hl : S.site.Sees s.result Θ Λ) :
    Sees names S s.result Λ

lemma Sees.unique {S : Program.Site} {result result' : Ty} {Γ Δ : Context} (h : S.Sees names result Γ)
    (h' : S.Sees names result' Δ) : result = result' ∧ Γ = Δ := by
  cases h with
  | intro hg hd hs hi hl =>
    cases h' with
    | intro hg' hd' hs' hi' hl' =>
      obtain ⟨rfl,rfl⟩ := Prod.mk.inj (Except.ok.inj (hg.symm.trans hg'))
      obtain ⟨rfl,rfl⟩ := Prod.mk.inj (Except.ok.inj (hd.symm.trans hd'))
      obtain rfl := Except.ok.inj (hs.symm.trans hs')
      obtain rfl := Except.ok.inj (hi.symm.trans hi')
      exact ⟨rfl,hl.unique hl'⟩

/-- The block of a checked program is checked by itself, and all around it in the same way whatever
stands in its place. -/
theorem check_fill (hn : names.Matched) (S : Program.Site) {ss : List Stmt} {t : Program}
    (hl : ∀ f ∈ (S.fill ss).functions, f.parameters.length = f.parameterTypeNames.length)
    (h : (S.fill ss).check names = .ok t) :
    ∃ (T : Program.Site) (Γ : Context) (result : Ty) (ss' : List Stmt), Γ.Matched ∧
      S.Sees names result Γ ∧ T.bare = S.bare ∧ Stmt.checkBlock Γ result ss = .ok ss' ∧ t = T.fill ss' ∧
      ∀ rs rs', S.site.Admits rs → Stmt.checkBlock Γ result rs = .ok rs' →
        (S.fill rs).check names = .ok (T.fill rs') := by
  obtain ⟨hmain,Γ,ds,Δ,hgs,hds,hfs⟩ := check_iff_fills.mp h
  obtain ⟨gs,fs⟩ := t
  have ⟨_,hΓ,hgb⟩ := Global.filled_of_checkAll (matched_ofFrame hn) hgs
  have hgs' : gs.map Global.bare = S.globals.map Global.bare := hgb
  obtain ⟨signatures,hdecl,_⟩ := Function.declareAll_iff.mp hds
  have hΔ := hdecl.matched hΓ hl
  obtain ⟨before',_,after',hbefore,⟨s,hs,hf⟩,hafter,rfl⟩ := forall₂_among hfs
  obtain ⟨hlbefore,hlf,hlafter⟩ : (∀ f ∈ S.before, _) ∧ _ ∧ ∀ f ∈ S.after, _ := by
    rw [← List.forall_mem_cons (l := S.after),← List.forall_mem_append]
    exact hl
  obtain ⟨Θ,_,hinside,hbody,rfl⟩ := Function.check_eq_ok.mp hf
  have hΘ : Θ.Matched := by
    obtain ⟨_,rfl⟩ := (Function.inside_eq_ok
      (hlf.trans (Function.declares_iff.mp hs).length_eq)).mp hinside
    exact Function.Matched.foldl_bind hΔ.enter _
  obtain ⟨site,Λ,ss',hsite,hsees,hss,rfl⟩ := S.site.check_fill hΘ hbody
  obtain ⟨_,hempty⟩ := Function.exists_declareAll_body (S.site.fill []) hds
  refine ⟨⟨gs,before',{ S.function with signature := some s },site,after'⟩,Λ,s.result,ss',
    hsite.matched,.intro hgs hempty hs hinside hsees,?_,hss,rfl,fun rs rs' ha hrs => ?_⟩
  · simp only [bare,hgs',Function.bare_of_fills hΔ hlbefore hbefore,hsite.bare,
      Function.bare_of_fills hΔ hlafter hafter]
  · have hmain' : (S.fill rs).functions.any Function.isMain = true := by
      simp only [fill,List.any_append,List.any_cons] at hmain ⊢
      exact hmain
    obtain ⟨es,hes⟩ := Function.exists_declareAll_body (S.site.fill rs) hds
    have hf' : (S.filled rs).check Δ s =
        .ok { S.filled rs with body := site.fill rs', signature := some s } :=
      Function.check_eq_ok.mpr ⟨Θ,_,hinside,hsite.fill rs rs' ha hrs,rfl⟩
    exact check_iff_fills.mpr ⟨hmain',Γ,es,Δ,hgs,hes,List.rel_append hbefore (.cons ⟨s,hs,hf'⟩ hafter)⟩

end Site
end Program
end BlockScript
