import BlockScript.Proofs.Blocks.Deletion
/-! A point in a block: the names in sight there, and what can be inserted there. -/
namespace BlockScript

/-! ### Names that can be written -/

/-- Every variable in sight has a name that can be written. -/
def Context.Named (Γ : Context) : Prop := ∀ f ∈ Γ.frames, ∀ b ∈ f.bindings, IsName b.name

namespace Context.Named
variable {Γ : Context}

lemma isName (h : Γ.Named) {x : String} {b : Binding Ty} (hb : Γ.lookupVariable x = .ok b) :
    IsName x := by
  obtain ⟨f,hf,hx⟩ := List.exists_of_findSome?_eq_some (lookupVariable_eq_ok.mp hb)
  rw [← Frame.name_of_findVariable hx]
  exact h f hf b (List.mem_of_find?_eq_some hx)

lemma enter (h : Γ.Named) : Γ.enter.Named :=
  List.forall_mem_cons.mpr ⟨List.forall_mem_nil _,h⟩

lemma bind (h : Γ.Named) {b : Binding Ty} (hb : IsName b.name) : (Γ.bind b).Named := by
  obtain ⟨hcurrent,henclosing⟩ := List.forall_mem_cons.mp h
  exact List.forall_mem_cons.mpr ⟨List.forall_mem_cons.mpr ⟨hb,hcurrent⟩,henclosing⟩

lemma defineVariable (h : Γ.Named) {b : Binding Ty} (hb : IsName b.name) {Δ : Context}
    (hd : Γ.defineVariable b = .ok Δ) : Δ.Named := by
  obtain ⟨_,rfl⟩ := defineVariable_iff.mp hd
  exact h.bind hb

lemma foldl_bind (h : Γ.Named) {bs : List (Binding Ty)} (hb : ∀ b ∈ bs, IsName b.name) :
    (bs.foldl Context.bind Γ).Named := by
  induction bs generalizing Γ with
  | nil => exact h
  | cons b bs ih =>
    obtain ⟨hname,hnames⟩ := List.forall_mem_cons.mp hb
    exact ih (h.bind hname) hnames

end Context.Named

namespace Stmt
variable {result : Ty} {Γ Δ : Context}

lemma named_of_check {s s' : Stmt} (hΓ : Γ.Named) (hw : s.WellFormed)
    (h : s.check Γ result = .ok (s',Δ)) : Δ.Named := by
  cases s with
  | declaration x typeName value slot =>
    obtain ⟨_,_,_,hd,_⟩ := check_declaration.mp h
    exact hΓ.defineVariable hw.1 hd
  | _ => exact check_leaves rfl h ▸ hΓ

lemma Leads.named {ss ss' : List Stmt} (h : Leads result Γ ss ss' Δ) (hΓ : Γ.Named)
    (hw : BlockWellFormed ss) : Δ.Named := by
  induction h with
  | nil => exact hΓ
  | cons hs _ ih => exact ih (named_of_check hΓ hw.1 hs) hw.2

lemma Site.Sees.named {S : Stmt.Site} {ss : List Stmt} (h : S.Sees result Γ Δ) (hΓ : Γ.Named)
    (hw : BlockWellFormed (S.fill ss)) : Δ.Named := by
  induction h with
  | whole => exact hΓ
  | inThen hb _ ih =>
    obtain ⟨hbefore,⟨_,hthen,_⟩,_⟩ := blockWellFormed_append.mp hw
    exact ih (hb.named hΓ hbefore).enter hthen
  | inElse hb _ ih =>
    obtain ⟨hbefore,⟨_,_,helse⟩,_⟩ := blockWellFormed_append.mp hw
    exact ih (hb.named hΓ hbefore).enter helse
  | inArm hb _ ih =>
    obtain ⟨hbefore,⟨_,_,hcases⟩,_⟩ := blockWellFormed_append.mp hw
    obtain ⟨_,⟨_,hbody⟩,_⟩ := Case.allWellFormed_append.mp hcases
    exact ih (hb.named hΓ hbefore).enter hbody
  | inLoop hb _ ih =>
    obtain ⟨hbefore,⟨_,hbody⟩,_⟩ := blockWellFormed_append.mp hw
    exact ih (hb.named hΓ hbefore).enter hbody

end Stmt

lemma Global.named_of_checkAll {Γ Δ : Context} {gs gs' : List Global} (hΓ : Γ.Named)
    (hw : ∀ g ∈ gs, g.WellFormed) (h : checkAll Γ gs = .ok (gs',Δ)) : Δ.Named := by
  induction gs generalizing Γ gs' with
  | nil =>
    obtain ⟨_,rfl⟩ := checkAll_nil.mp h
    exact hΓ
  | cons g gs ih =>
    obtain ⟨hg,hgs⟩ := List.forall_mem_cons.mp hw
    obtain ⟨_,Θ,_,hcheck,hrest,_⟩ := checkAll_cons.mp h
    obtain ⟨_,_,_,hd,_⟩ := check_eq_ok.mp hcheck
    exact ih (hΓ.defineVariable hg.name hd) hgs hrest

/-- Declared functions are no variables. -/
lemma Function.named_of_declareAll {Γ Δ : Context} {fs : List Function}
    {ds : List (Function × Signature)} (hΓ : Γ.Named) (h : declareAll Γ fs = .ok (ds,Δ)) : Δ.Named := by
  induction fs generalizing Γ ds with
  | nil =>
    obtain ⟨_,rfl⟩ := declareAll_nil.mp h
    exact hΓ
  | cons f fs ih =>
    obtain ⟨_,Θ,_,_,hd,hrest,_⟩ := declareAll_cons.mp h
    obtain ⟨_,rfl⟩ := Context.defineFunction_eq_ok.mp hd
    obtain ⟨hcurrent,henclosing⟩ := List.forall_mem_cons.mp hΓ
    refine ih ?_ hrest
    exact List.forall_mem_cons.mpr ⟨hcurrent,henclosing⟩

lemma Function.isName_of_mem_bindings {f : Function} {s : Signature} (hw : f.WellFormed)
    {b : Binding Ty} (hb : b ∈ f.bindings s) : IsName b.name := by
  rw [bindings,← List.map_uncurry_zip_eq_zipWith] at hb
  obtain ⟨⟨x,t⟩,hx,rfl⟩ := List.mem_map.mp hb
  exact hw.parameters x (List.of_mem_zip hx).1

namespace Program.Site
variable {names : Frame Ty Signature}

lemma Sees.named {S : Program.Site} {ss : List Stmt} {result : Ty} {Γ : Context}
    (h : S.Sees names result Γ) (hn : (Context.ofFrame names).Named) (hw : (S.fill ss).WellFormed) :
    Γ.Named := by
  have hf : (S.filled ss).WellFormed :=
    hw.functions _ (List.mem_append_right _ List.mem_cons_self)
  cases h with
  | intro hg hd hs hi hl =>
    have hΔ := Function.named_of_declareAll (Global.named_of_checkAll hn hw.globals hg) hd
    obtain ⟨_,_,rfl⟩ := Context.defineAll_iff.mp hi
    refine hl.named (hΔ.enter.foldl_bind fun b hb => ?_) hf.body
    exact Function.isName_of_mem_bindings hf hb

end Program.Site

/-- No variable comes from outside. -/
lemma Program.standardNames_named : (Context.ofFrame Program.standardNames).Named :=
  List.forall_mem_cons.mpr ⟨List.forall_mem_nil _,List.forall_mem_nil _⟩

/-! ### Insertion -/

namespace Stmt.Site

lemma fill_ne_nil (S : Stmt.Site) {ss : List Stmt} (h : ss ≠ []) : S.fill ss ≠ [] := by
  cases S with
  | whole => exact h
  | _ => exact List.append_ne_nil_of_right_ne_nil _ (List.cons_ne_nil _ _)

/-- Where a statement stands, no then-block around it is empty. -/
lemma admits_of_ne_nil (S : Stmt.Site) {ss : List Stmt} (h : ss ≠ []) : S.Admits ss := by
  induction S with
  | whole => trivial
  | inThen before c site elseBlock after ih => exact ⟨site.fill_ne_nil h,ih⟩
  | inElse before c thenBlock site after ih => exact ih
  | inArm before c earlier value site later after ih => exact ih
  | inLoop before c site after ih => exact ih

end Stmt.Site

namespace Program.Site
variable {names : Frame Ty Signature} {S : Program.Site} {before after : List Stmt} {s s' : Stmt}
  {result : Ty} {Δ : Context}

/-- The names in sight at a point of the block, after the statements before it, and the result type of
the function. -/
inductive Reaches (names : Frame Ty Signature) (S : Program.Site) (before : List Stmt) (result : Ty)
    (Δ : Context) : Prop
  | intro {Γ : Context} {before' : List Stmt} (hs : S.Sees names result Γ)
      (hb : Stmt.Leads result Γ before before' Δ) : Reaches names S before result Δ

/-- What a name is bound to at a point of the block. -/
def Binds (names : Frame Ty Signature) (S : Program.Site) (before : List Stmt) (x : String)
    (b : Binding Ty) : Prop :=
  ∃ result Δ, S.Reaches names before result Δ ∧ Δ.lookupVariable x = .ok b

lemma Reaches.unique {result' : Ty} {Θ : Context} (h : S.Reaches names before result Δ)
    (h' : S.Reaches names before result' Θ) : result = result' ∧ Δ = Θ := by
  cases h with
  | intro hs hb =>
    cases h' with
    | intro hs' hb' =>
      obtain ⟨rfl,rfl⟩ := hs.unique hs'
      exact ⟨rfl,hb.unique hb'⟩

lemma Reaches.named (h : S.Reaches names before result Δ) (hn : (Context.ofFrame names).Named)
    (hw : (S.fill (before ++ after)).WellFormed) : Δ.Named := by
  cases h with
  | intro hs hb =>
    obtain ⟨hbefore,_⟩ := Stmt.blockWellFormed_append.mp (S.wellFormed_fill hw).1
    exact hb.named (hs.named hn hw) hbefore

section
variable (hn : names.Matched) {t : Program}
include hn

/-- In a checked program names are in sight at every point. -/
lemma exists_reaches (hl : ∀ f ∈ (S.fill (before ++ after)).functions,
      f.parameters.length = f.parameterTypeNames.length)
    (h : (S.fill (before ++ after)).check names = .ok t) :
    ∃ result Δ, S.Reaches names before result Δ := by
  obtain ⟨_,_,_,_,_,hsees,_,hblock,_⟩ := S.check_fill hn hl h
  obtain ⟨_,_,_,hlead,_⟩ := Stmt.checkBlock_append.mp hblock
  exact ⟨_,_,.intro hsees hlead⟩

/-- A statement that declares nothing is checked among the names at its point, in a program that is
checked without it. -/
lemma check_with (hl : ∀ f ∈ (S.fill (before ++ after)).functions,
      f.parameters.length = f.parameterTypeNames.length)
    (h : (S.fill (before ++ after)).check names = .ok t) (hat : S.Reaches names before result Δ)
    (hs : s.check Δ result = .ok (s',Δ)) : ∃ (T : Program.Site) (before' after' : List Stmt),
      t = T.fill (before' ++ after') ∧
      (S.fill (before ++ s :: after)).check names = .ok (T.fill (before' ++ s' :: after')) := by
  obtain ⟨T,_,_,_,_,hsees,_,hblock,rfl,hfill⟩ := S.check_fill hn hl h
  obtain ⟨Θ,before',after',hlead,hafter,rfl⟩ := Stmt.checkBlock_append.mp hblock
  obtain ⟨rfl,rfl⟩ := hat.unique (.intro hsees hlead)
  refine ⟨T,before',after',rfl,hfill _ _ ?_ ?_⟩
  · apply S.site.admits_of_ne_nil
    exact List.append_ne_nil_of_right_ne_nil _ (List.cons_ne_nil _ _)
  · exact Stmt.checkBlock_among.mpr ⟨_,_,before',s',after',hlead,hs,hafter,rfl⟩

/-- A statement of a checked program is checked among the names at its point. -/
lemma check_at (hl : ∀ f ∈ (S.fill (before ++ s :: after)).functions,
      f.parameters.length = f.parameterTypeNames.length)
    (h : (S.fill (before ++ s :: after)).check names = .ok t)
    (hat : S.Reaches names before result Δ) : ∃ s' Θ, s.check Δ result = .ok (s',Θ) := by
  obtain ⟨_,_,_,_,_,hsees,_,hblock,_⟩ := S.check_fill hn hl h
  obtain ⟨_,Θ,_,s',_,hlead,hs,_⟩ := Stmt.checkBlock_among.mp hblock
  obtain ⟨rfl,rfl⟩ := hat.unique (.intro hsees hlead)
  exact ⟨s',Θ,hs⟩

end

end Program.Site
end BlockScript
