import BlockScript.Proofs.Blocks.Checked
import BlockScript.Proofs.Rendered
import Mathlib
/-! A statement that is no declaration can be deleted from a checked program. It leaves no trace in the
check of the others. -/
namespace BlockScript

/-! ### Blocks that can be written -/

lemma Stmt.blockWellFormed_append {ss us : List Stmt} :
    BlockWellFormed (ss ++ us) ↔ BlockWellFormed ss ∧ BlockWellFormed us := by
  induction ss with
  | nil => simp only [List.nil_append,BlockWellFormed,true_and]
  | cons s ss ih => simp only [List.cons_append,BlockWellFormed,ih,and_assoc]

lemma Case.allWellFormed_append {cs ds : List Case} :
    AllWellFormed (cs ++ ds) ↔ AllWellFormed cs ∧ AllWellFormed ds := by
  induction cs with
  | nil => simp only [List.nil_append,AllWellFormed,true_and]
  | cons c cs ih => simp only [List.cons_append,AllWellFormed,ih,and_assoc]

/-- Which case is the default does not depend on the blocks. -/
lemma Case.DefaultLast.of_values {cs ds : List Case} (h : DefaultLast cs)
    (hv : ds.map value = cs.map value) : DefaultLast ds := by
  obtain ⟨arms,block,rfl,hs⟩ := h
  rw [List.map_append,List.map_singleton] at hv
  obtain ⟨arms',_,rfl,harms,hlast⟩ := List.map_eq_append_iff.mp hv
  obtain ⟨⟨_,block'⟩,rfl,hvalue⟩ := List.map_eq_singleton_iff.mp hlast
  obtain rfl : _ = none := hvalue
  refine ⟨arms',block',rfl,fun c hc => ?_⟩
  have hm : c.value ∈ arms.map value := harms ▸ List.mem_map_of_mem hc
  obtain ⟨d,hd,he⟩ := List.mem_map.mp hm
  exact he ▸ hs d hd

namespace Stmt.Site

/-- A block of one that can be written can be written, and so can any other in its place. -/
lemma wellFormed_fill (S : Stmt.Site) {ss : List Stmt} (h : BlockWellFormed (S.fill ss)) :
    BlockWellFormed ss ∧ ∀ us, BlockWellFormed us → BlockWellFormed (S.fill us) := by
  induction S with
  | whole => exact ⟨h,fun _ hu => hu⟩
  | inThen before c site elseBlock after ih =>
    obtain ⟨hbefore,⟨hc,hthen,helse⟩,hafter⟩ := blockWellFormed_append.mp h
    obtain ⟨hs,hfill⟩ := ih hthen
    exact ⟨hs,fun us hu => blockWellFormed_append.mpr ⟨hbefore,⟨hc,hfill us hu,helse⟩,hafter⟩⟩
  | inElse before c thenBlock site after ih =>
    obtain ⟨hbefore,⟨hc,hthen,helse⟩,hafter⟩ := blockWellFormed_append.mp h
    obtain ⟨hs,hfill⟩ := ih helse
    exact ⟨hs,fun us hu => blockWellFormed_append.mpr ⟨hbefore,⟨hc,hthen,hfill us hu⟩,hafter⟩⟩
  | inArm before c earlier value site later after ih =>
    obtain ⟨hbefore,⟨hc,hdefault,hcases⟩,hafter⟩ := blockWellFormed_append.mp h
    obtain ⟨hearlier,⟨hvalue,hblock⟩,hlater⟩ := Case.allWellFormed_append.mp hcases
    obtain ⟨hs,hfill⟩ := ih hblock
    refine ⟨hs,fun us hu => blockWellFormed_append.mpr ⟨hbefore,⟨hc,?_,?_⟩,hafter⟩⟩
    · exact hdefault.of_values (by simp only [List.map_append,List.map_cons,Case.value])
    · exact Case.allWellFormed_append.mpr ⟨hearlier,⟨hvalue,hfill us hu⟩,hlater⟩
  | inLoop before c site after ih =>
    obtain ⟨hbefore,⟨hc,hbody⟩,hafter⟩ := blockWellFormed_append.mp h
    obtain ⟨hs,hfill⟩ := ih hbody
    exact ⟨hs,fun us hu => blockWellFormed_append.mpr ⟨hbefore,⟨hc,hfill us hu⟩,hafter⟩⟩

end Stmt.Site

namespace Program.Site

lemma wellFormed_fill (S : Program.Site) {ss : List Stmt} (h : (S.fill ss).WellFormed) :
    Stmt.BlockWellFormed ss ∧ ∀ us, Stmt.BlockWellFormed us → (S.fill us).WellFormed := by
  obtain ⟨hglobals,hfunctions⟩ := h
  obtain ⟨hbefore,hf,hafter⟩ : (∀ f ∈ S.before, f.WellFormed) ∧ (S.filled ss).WellFormed ∧
      ∀ f ∈ S.after, f.WellFormed := by
    rw [← List.forall_mem_cons,← List.forall_mem_append]
    exact hfunctions
  obtain ⟨hs,hfill⟩ := S.site.wellFormed_fill hf.body
  refine ⟨hs,fun us hu => ⟨hglobals,?_⟩⟩
  have hf' : (S.filled us).WellFormed := { hf with body := hfill us hu }
  exact List.forall_mem_append.mpr ⟨hbefore,List.forall_mem_cons.mpr ⟨hf',hafter⟩⟩

/-! ### Deletion -/

variable {names : Frame Ty Signature}

/-- A program that is checked is checked without a statement that is no declaration, and all else is
filled as before. -/
lemma check_without (hn : names.Matched) (S : Program.Site) {before after : List Stmt} {s : Stmt}
    {t : Program} (hl : ∀ f ∈ (S.fill (before ++ s :: after)).functions,
      f.parameters.length = f.parameterTypeNames.length) (hs : s.declares = [])
    (hne : S.site.Admits (before ++ after))
    (h : (S.fill (before ++ s :: after)).check names = .ok t) :
    ∃ (T : Program.Site) (before' : List Stmt) (s' : Stmt) (after' : List Stmt), T.bare = S.bare ∧
      Stmt.bareBlock before' = Stmt.bareBlock before ∧ s'.bare = s.bare ∧
      Stmt.bareBlock after' = Stmt.bareBlock after ∧ t = T.fill (before' ++ s' :: after') ∧
      (S.fill (before ++ after)).check names = .ok (T.fill (before' ++ after')) := by
  obtain ⟨T,Γ,result,_,hΓ,_,hbare,hblock,rfl,hfill⟩ := S.check_fill hn hl h
  obtain ⟨Θ,Δ,before',s',after',hlead,hcheck,hafter,rfl⟩ := Stmt.checkBlock_among.mp hblock
  obtain rfl : Δ = Θ := Stmt.check_leaves hs hcheck
  have hΔ := hlead.matched hΓ
  refine ⟨T,before',s',after',hbare,hlead.bare hΓ,(Stmt.filled_of_check hΔ s hcheck).2.2,
    (Stmt.blockFilled_of_checkBlock hΔ after hafter).2,rfl,?_⟩
  exact hfill _ _ hne (Stmt.checkBlock_append.mpr ⟨Δ,before',after',hlead,hafter,rfl⟩)

end Program.Site

namespace Script
variable {source : String} {p t : Program}

lemma arity_of_read (hr : read source = .ok p) :
    ∀ f ∈ p.functions, f.parameters.length = f.parameterTypeNames.length :=
  fun f hf => ((wellFormed_of_read hr).functions f hf).arity

/-- Only declarations matter to the check of what follows. Let a statement be deleted from a block at
any depth of a program whose text is checked, so that no then-block is left empty. A text of the rest,
such as the one that it is written as, is checked, and every slot of the rest is filled as before. -/
theorem check_deletion (h : check source = .ok t) (P : Program.Site) (before after : List Stmt)
    (s : Stmt) (hr : read source = .ok (P.fill (before ++ s :: after))) (hs : s.declares = [])
    (hne : P.site.Admits (before ++ after)) :
    ∃ (T : Program.Site) (before' : List Stmt) (s' : Stmt) (after' : List Stmt),
      T.bare = P.bare ∧ Stmt.bareBlock before' = Stmt.bareBlock before ∧ s'.bare = s.bare ∧
      Stmt.bareBlock after' = Stmt.bareBlock after ∧ t = T.fill (before' ++ s' :: after') ∧
      check (P.fill (before ++ after)).render = .ok (T.fill (before' ++ after')) ∧
      ∀ text, read text = .ok (P.fill (before ++ after)) →
        check text = .ok (T.fill (before' ++ after')) := by
  obtain ⟨_,hp,hc⟩ := check_eq_ok h
  obtain rfl := Except.ok.inj (hr.symm.trans hp)
  obtain ⟨T,before',s',after',hT,hbefore,hs',hafter,ht,hcheck⟩ :=
    P.check_without Program.standardNames_matched (arity_of_read hr) hs hne hc
  have htext : ∀ text, read text = .ok (P.fill (before ++ after)) →
      check text = .ok (T.fill (before' ++ after')) := by
    intro text hread
    rw [check_of_read hread,hcheck]
    rfl
  have hwell : (P.fill (before ++ after)).WellFormed := by
    obtain ⟨hblock,hfill⟩ := P.wellFormed_fill (wellFormed_of_read hr)
    obtain ⟨hwb,_,hwa⟩ := Stmt.blockWellFormed_append.mp hblock
    exact hfill _ (Stmt.blockWellFormed_append.mpr ⟨hwb,hwa⟩)
  exact ⟨T,before',s',after',hT,hbefore,hs',hafter,ht,htext _ (read_render hwell),htext⟩

/-- A declaration in a conditional, and one of the same name after it. -/
def loopText : String :=
  "FUN main(): Integer DO WHILE FALSE DO IF TRUE DO LET x = 1; END LET x = 3; END RETURN 0; END"

/-- The text without the conditional. -/
def restText : String :=
  "FUN main(): Integer DO WHILE FALSE DO LET x = 3; END RETURN 0; END"

/-- The body of the loop. -/
def loopSite : Program.Site :=
  ⟨[],[],⟨"main",[],[],some "Integer",[],none⟩,
    .inLoop [] (.literal (.boolean false) none) .whole [.ret (.literal (.integer 0) none)],[]⟩

set_option maxRecDepth 1024 in
theorem check_deletion_conditional :
    let conditional : Stmt := .ifElse (.literal (.boolean true) none)
      [.declaration "x" none (some (.literal (.integer 1) none)) none] []
    let declaration : Stmt := .declaration "x" none (some (.literal (.integer 3) none)) none
    ∃ t, check loopText = .ok t ∧ read loopText = .ok (loopSite.fill [conditional,declaration]) ∧
      conditional.declares = [] ∧ loopSite.site.Admits [declaration] ∧
      ∃ (T : Program.Site) (before' : List Stmt) (s' : Stmt) (after' : List Stmt),
        t = T.fill (before' ++ s' :: after') ∧
        check restText = .ok (T.fill (before' ++ after')) := by
  intro conditional declaration
  obtain ⟨t,ht,_⟩ : ∃ t, check loopText = .ok t ∧ (fun _ => true) t = true :=
    exists_check (by decide +kernel)
  have hr : read loopText = .ok (loopSite.fill [conditional,declaration]) := by cbv
  have hrest : read restText = .ok (loopSite.fill [declaration]) := by cbv
  obtain ⟨T,before',s',after',_,_,_,_,heq,_,htext⟩ :=
    check_deletion ht loopSite [] [declaration] conditional hr rfl trivial
  exact ⟨t,ht,hr,rfl,trivial,T,before',s',after',heq,htext _ hrest⟩

end Script
end BlockScript
