import BlockScript.Proofs.Declarations.Weakening
import BlockScript.Proofs.Typing.Rules
import Mathlib.Data.List.Perm.Basic
/-! A program is checked in the same way whatever the order of its functions is, and whatever other
functions stand among them. -/
namespace BlockScript

namespace Function
variable {Γ Δ : Context} {fs : List Function} {ds : List (Function × Signature)}

/-- What tells a function from others. -/
def key (f : Function) : String × Nat := (f.name,f.arity)

/-- Functions that are declared one after the other differ in their keys, and are new. -/
lemma keys_of_declareAll (h : declareAll Γ fs = .ok (ds,Δ)) :
    (fs.map key).Nodup ∧ ∀ f ∈ fs, Γ.current.findFunction f.name f.arity = none := by
  induction fs generalizing ds Γ with
  | nil => exact ⟨List.nodup_nil,nofun⟩
  | cons f fs ih =>
    obtain ⟨s,Θ,es,_,hΘ,hfs,_⟩ := declareAll_cons.mp h
    obtain ⟨hn,rfl⟩ := Context.defineFunction_eq_ok.mp hΘ
    obtain ⟨hnodup,hnew⟩ := ih hfs
    have hother (g : Function) (hg : g ∈ fs) :
        g.key ≠ f.key ∧ Γ.current.findFunction g.name g.arity = none := by
      have hng := hnew g hg
      rw [Frame.findFunction_cons] at hng
      split at hng
      · cases hng
      · next hne =>
        exact ⟨fun he => hne ⟨(congrArg Prod.fst he).symm,(congrArg Prod.snd he).symm⟩,hng⟩
    refine ⟨?_,List.forall_mem_cons.mpr ⟨hn,fun g hg => (hother g hg).2⟩⟩
    rw [List.map_cons,List.nodup_cons]
    refine ⟨fun hm => ?_,hnodup⟩
    obtain ⟨g,hg,he⟩ := List.mem_map.mp hm
    exact (hother g hg).1 he

/-- Declarations bind no variable. -/
lemma bindings_of_declareAll (h : declareAll Γ fs = .ok (ds,Δ)) :
    Δ.current.bindings = Γ.current.bindings := by
  induction fs generalizing ds Γ with
  | nil => obtain ⟨_,rfl⟩ := declareAll_nil.mp h; rfl
  | cons f fs ih =>
    obtain ⟨_,Θ,_,_,hΘ,hfs,_⟩ := declareAll_cons.mp h
    rw [ih hfs,(Context.defineFunction_eq_ok.mp hΘ).2]

/-- Each function is declared with the signature that its text names. -/
lemma forall₂_of_declareAll (h : declareAll Γ fs = .ok (ds,Δ)) :
    List.Forall₂ (fun f d => d.1 = f ∧ f.declared = .ok d.2) fs ds := by
  induction fs generalizing ds Γ with
  | nil => obtain ⟨rfl,_⟩ := declareAll_nil.mp h; exact .nil
  | cons f fs ih =>
    obtain ⟨s,Θ,es,hs,_,hfs,rfl⟩ := declareAll_cons.mp h
    exact .cons ⟨rfl,hs⟩ (ih hfs)

/-- A function that is found was there before or has been declared. -/
lemma findFunction_of_declareAll (h : declareAll Γ fs = .ok (ds,Δ)) {x : String} {arity : Nat}
    {s : Signature} (hs : Δ.current.findFunction x arity = some s) :
    Γ.current.findFunction x arity = some s ∨
      ∃ f ∈ fs, f.name = x ∧ f.arity = arity ∧ f.declared = .ok s := by
  induction fs generalizing ds Γ with
  | nil => obtain ⟨_,rfl⟩ := declareAll_nil.mp h; exact .inl hs
  | cons f fs ih =>
    obtain ⟨t,Θ,_,ht,hΘ,hfs,_⟩ := declareAll_cons.mp h
    obtain ⟨_,rfl⟩ := Context.defineFunction_eq_ok.mp hΘ
    rcases ih hfs with hf | ⟨g,hg,hgx⟩
    · rw [Frame.findFunction_cons] at hf
      split at hf
      · next he =>
        cases hf
        exact .inr ⟨f,List.mem_cons_self,he.1,he.2,ht⟩
      · exact .inl hf
    · exact .inr ⟨g,List.mem_cons_of_mem f hg,hgx⟩

/-- Functions with different keys that are new, and whose types have names, can be declared. -/
lemma exists_declareAll (hk : (fs.map key).Nodup)
    (hn : ∀ f ∈ fs, Γ.current.findFunction f.name f.arity = none)
    (hs : ∀ f ∈ fs, ∃ s, f.declared = .ok s) :
    ∃ ds Δ, declareAll Γ fs = .ok (ds,Δ) ∧
      List.Forall₂ (fun f d => d.1 = f ∧ f.declared = .ok d.2) fs ds := by
  induction fs generalizing Γ with
  | nil => exact ⟨[],Γ,rfl,.nil⟩
  | cons f fs ih =>
    obtain ⟨s,hfs⟩ := hs f List.mem_cons_self
    rw [List.map_cons,List.nodup_cons] at hk
    have hd : Γ.defineFunction f.name f.arity s = .ok (Γ.declare f s) :=
      Context.defineFunction_eq_ok.mpr ⟨hn f List.mem_cons_self,rfl⟩
    have hnew : ∀ g ∈ fs, (Γ.declare f s).current.findFunction g.name g.arity = none := by
      intro g hg
      rw [Context.declare,Frame.findFunction_cons,if_neg]
      · exact hn g (List.mem_cons_of_mem f hg)
      · rintro ⟨hname,harity⟩
        exact hk.1 (List.mem_map.mpr ⟨g,hg,Prod.ext hname.symm harity.symm⟩)
    obtain ⟨ds,Δ,hΔ,hds⟩ := ih hk.2 hnew fun g hg => hs g (List.mem_cons_of_mem f hg)
    exact ⟨(f,s) :: ds,Δ,declareAll_cons.mpr ⟨s,_,ds,hfs,hd,hΔ,rfl⟩,.cons ⟨rfl,hfs⟩ hds⟩

end Function

namespace Function

/-- A function is filled among the names of a program. -/
def Fills (Γ : Context) (f f' : Function) : Prop := ∃ s, f.declared = .ok s ∧ f.check Γ s = .ok f'

lemma Fills.extends {Γ Δ : Context} {f f' : Function} (hf : f.Fills Γ f') (h : Γ.Extends Δ) :
    f.Fills Δ f' := by
  obtain ⟨s,hs,hc⟩ := hf
  exact ⟨s,hs,check_extends h hc⟩

/-- Filled functions have the keys that they had. -/
lemma keys_of_fills {Γ : Context} {fs fs' : List Function} (h : List.Forall₂ (Fills Γ) fs fs') :
    fs'.map key = fs.map key := by
  induction h with
  | nil => rfl
  | cons hf _ ih =>
    obtain ⟨_,_,hc⟩ := hf
    obtain ⟨_,_,_,_,rfl⟩ := check_eq_ok.mp hc
    rw [List.map_cons,List.map_cons,ih]
    rfl

/-- The bodies are checked with the signatures that the functions were declared with. -/
lemma mapM_check_iff {Γ : Context} {fs fs' : List Function} {ds : List (Function × Signature)}
    (hd : List.Forall₂ (fun f d => d.1 = f ∧ f.declared = .ok d.2) fs ds) :
    ds.mapM (fun d => d.1.check Γ d.2) = .ok fs' ↔ List.Forall₂ (Fills Γ) fs fs' := by
  rw [Checked.mapM_eq_ok]
  induction hd generalizing fs' with
  | nil => rw [List.forall₂_nil_left_iff,List.forall₂_nil_left_iff]
  | cons hd _ ih =>
    obtain ⟨rfl,hs⟩ := hd
    rw [List.forall₂_cons_left_iff,List.forall₂_cons_left_iff]
    refine exists_congr fun f' => exists_congr fun fs'' => and_congr ⟨fun hc => ⟨_,hs,hc⟩,?_⟩
      (and_congr_left fun _ => ih)
    rintro ⟨s,hs',hc⟩
    rwa [Except.ok.inj (hs.symm.trans hs')]

end Function

/-- The functions in sight of the globals are those from outside. -/
lemma Global.functions_of_checkAll {Γ Δ : Context} {gs gs' : List Global}
    (h : Global.checkAll Γ gs = .ok (gs',Δ)) : Δ.current.functions = Γ.current.functions := by
  induction gs generalizing gs' Γ with
  | nil => obtain ⟨_,rfl⟩ := checkAll_nil.mp h; rfl
  | cons g gs ih =>
    obtain ⟨_,Θ,_,hg,hgs,_⟩ := checkAll_cons.mp h
    obtain ⟨_,_,_,hd,_⟩ := check_eq_ok.mp hg
    rw [ih hgs,(Context.defineVariable_eq_ok.mp hd).2]

/-- A relation between two lists in another order of the first. -/
lemma exists_forall₂_of_perm {α β : Type} {r : α → β → Prop} {as as' : List α} (h : as'.Perm as)
    {bs : List β} (hr : List.Forall₂ r as bs) :
    ∃ bs', List.Forall₂ r as' bs' ∧ (as'.zip bs').Perm (as.zip bs) := by
  induction h generalizing bs with
  | nil => cases hr; exact ⟨[],.nil,.refl _⟩
  | cons a _ ih =>
    cases hr with
    | cons hab hr =>
      obtain ⟨bs',hr',hp⟩ := ih hr
      exact ⟨_ :: bs',.cons hab hr',hp.cons _⟩
  | swap a a' as =>
    cases hr with
    | cons hab hr =>
      cases hr with
      | cons hab' hr => exact ⟨_ :: _ :: _,.cons hab' (.cons hab hr),.swap _ _ _⟩
  | trans _ _ ih ih' =>
    obtain ⟨cs,hrc,hpc⟩ := ih' hr
    obtain ⟨bs',hrb,hpb⟩ := ih hrc
    exact ⟨bs',hrb,hpb.trans hpc⟩

namespace Context.Extends
variable {Γ Δ : Context}

/-- In one frame, what is found there is all that is in sight. -/
lemma of_current (hΓ : Γ.enclosing = []) (hΔ : Δ.enclosing = [])
    (hb : Δ.current.bindings = Γ.current.bindings)
    (hf : ∀ x arity s, Γ.current.findFunction x arity = some s →
      Δ.current.findFunction x arity = some s) : Γ.Extends Δ := by
  refine ⟨hb,fun x => ?_,fun f arity s hs => ?_⟩
  · simp only [frames,hΓ,hΔ,List.findSome?_cons,Frame.findVariable,hb]
  · simp only [frames,hΓ,hΔ,List.findSome?_cons,List.findSome?_nil] at hs ⊢
    cases hc : Γ.current.findFunction f arity with
    | none => rw [hc] at hs; cases hs
    | some s' =>
      rw [hc] at hs
      rw [hf f arity s' hc]
      exact hs

end Context.Extends

namespace Program
variable {names : Frame Ty Signature} {p q t : Program}

lemma length_of_check (h : p.check names = .ok t) : t.functions.length = p.functions.length := by
  obtain ⟨_,_,_,_,_,_,_,hds,hfs,rfl⟩ := check_eq_ok.mp h
  exact ((Function.mapM_check_iff (Function.forall₂_of_declareAll hds)).mp hfs).length_eq.symm

/-- The functions of a checked program differ in their keys, and the names from outside do not have
them. -/
lemma keys_of_check (h : p.check names = .ok t) : (t.functions.map Function.key).Nodup ∧
    ∀ f ∈ t.functions, names.findFunction f.name f.arity = none := by
  obtain ⟨_,gs,Γ,ds,Δ,fs,hgs,hds,hfs,rfl⟩ := check_eq_ok.mp h
  obtain ⟨hnodup,hnew⟩ := Function.keys_of_declareAll hds
  have hkeys := Function.keys_of_fills
    ((Function.mapM_check_iff (Function.forall₂_of_declareAll hds)).mp hfs)
  refine ⟨hkeys ▸ hnodup,fun f hf => ?_⟩
  have hm : f.key ∈ p.functions.map Function.key := hkeys ▸ List.mem_map_of_mem hf
  obtain ⟨g,hg,hk⟩ := List.mem_map.mp hm
  have hname : g.name = f.name := congrArg Prod.fst hk
  have harity : g.arity = f.arity := congrArg Prod.snd hk
  have hn := hnew g hg
  rwa [hname,harity,Frame.findFunction,Global.functions_of_checkAll hgs] at hn

/-- A function that a program does not have, nor the names from outside, and whose body is well
typed among the names of the program and its own. -/
structure Admits (names : Frame Ty Signature) (p : Program) (f : Function) : Prop where
  outside : names.findFunction f.name f.arity = none
  new : ∀ g ∈ p.functions, g.key ≠ f.key
  typed : ∃ gs Γ ds Δ s f', Global.checkAll (.ofFrame names) p.globals = .ok (gs,Γ) ∧
    Function.declareAll Γ p.functions = .ok (ds,Δ) ∧ f.declared = .ok s ∧
    f.check (Δ.declare f s) s = .ok f'

/-- A program with the same globals, and the functions in another order with perhaps one more. -/
structure Rearranges (q p : Program) (extra : Option Function) : Prop where
  globals : q.globals = p.globals
  functions : q.functions.Perm (extra.toList ++ p.functions)

namespace Rearranges
variable {extra : Option Function} {gs : List Global} {Γ Δ Θ : Context}
  {ds es : List (Function × Signature)}

/-- The functions of a program that is rearranged differ in their keys and are new, so that they can
be declared as well. -/
lemma exists_declareAll (hr : q.Rearranges p extra) (he : ∀ f ∈ extra, p.Admits names f)
    (hgs : Global.checkAll (.ofFrame names) p.globals = .ok (gs,Γ))
    (hds : Function.declareAll Γ p.functions = .ok (ds,Δ)) :
    ∃ es Θ, Function.declareAll Γ q.functions = .ok (es,Θ) := by
  have hΓ := Global.functions_of_checkAll hgs
  obtain ⟨hnodup,hnew⟩ := Function.keys_of_declareAll hds
  have hkeys : ((extra.toList ++ p.functions).map Function.key).Nodup := by
    cases extra with
    | none => exact hnodup
    | some f =>
      refine List.nodup_cons.mpr ⟨fun hm => ?_,hnodup⟩
      obtain ⟨g,hg,hk⟩ := List.mem_map.mp hm
      exact (he f rfl).new g hg hk
  have hfresh : ∀ f ∈ extra.toList ++ p.functions, Γ.current.findFunction f.name f.arity = none := by
    intro f hf
    rcases List.mem_append.mp hf with hf | hf
    · have ho := (he f (Option.mem_toList.mp hf)).outside
      rw [Frame.findFunction,hΓ]
      exact ho
    · exact hnew f hf
  have hdeclared : ∀ f ∈ extra.toList ++ p.functions, ∃ s, f.declared = .ok s := by
    intro f hf
    rcases List.mem_append.mp hf with hf | hf
    · obtain ⟨_,_,_,_,s,_,_,_,hs,_⟩ := (he f (Option.mem_toList.mp hf)).typed
      exact ⟨s,hs⟩
    · obtain ⟨s,hs,_⟩ := (Function.declareAll_spec hds).2.2 f hf
      exact ⟨s,hs⟩
  obtain ⟨es,Θ,hes,_⟩ := Function.exists_declareAll
    ((hr.functions.map Function.key).nodup_iff.mpr hkeys)
    (fun f hf => hfresh f (hr.functions.subset hf)) fun f hf => hdeclared f (hr.functions.subset hf)
  exact ⟨es,Θ,hes⟩

/-- Each function is in sight with the signature that its text names. -/
lemma findFunction_of_mem (hr : q.Rearranges p extra)
    (hes : Function.declareAll Γ q.functions = .ok (es,Θ)) {f : Function}
    (hf : f ∈ extra.toList ++ p.functions) {s : Signature} (hs : f.declared = .ok s) :
    Θ.current.findFunction f.name f.arity = some s := by
  obtain ⟨s',hs',hfind⟩ := (Function.declareAll_spec hes).2.2 f (hr.functions.symm.subset hf)
  rw [hfind,Except.ok.inj (hs.symm.trans hs')]

/-- A function that is in sight in a program is in sight when it is rearranged. -/
lemma findFunction (hr : q.Rearranges p extra)
    (hds : Function.declareAll Γ p.functions = .ok (ds,Δ))
    (hes : Function.declareAll Γ q.functions = .ok (es,Θ)) {x : String} {arity : Nat}
    {s : Signature} (hs : Δ.current.findFunction x arity = some s) :
    Θ.current.findFunction x arity = some s := by
  rcases Function.findFunction_of_declareAll hds hs with hs | ⟨f,hf,rfl,rfl,hd⟩
  · exact (Function.declareAll_spec hes).2.1 x arity s hs
  · exact hr.findFunction_of_mem hes (List.mem_append_right _ hf) hd

/-- The bodies of a program that is rearranged are well typed among the names of all functions, the
old ones with the same result. -/
lemma checked (hr : q.Rearranges p extra) (he : ∀ f ∈ extra, p.Admits names f)
    {fs : List Function} (hgs : Global.checkAll (.ofFrame names) p.globals = .ok (gs,Γ))
    (hds : Function.declareAll Γ p.functions = .ok (ds,Δ))
    (hes : Function.declareAll Γ q.functions = .ok (es,Θ))
    (hfs : ds.mapM (fun d => d.1.check Δ d.2) = .ok fs) :
    ∃ added, List.Forall₂ (Function.Fills Θ) (extra.toList ++ p.functions) (added ++ fs) ∧
      added.length = extra.toList.length := by
  have hfills := (Function.mapM_check_iff (Function.forall₂_of_declareAll hds)).mp hfs
  have hroot : Γ.enclosing = [] := Global.enclosing_of_checkAll hgs
  have hΔ : Δ.enclosing = [] := (Function.enclosing_of_declareAll hds).trans hroot
  have hΘ : Θ.enclosing = [] := (Function.enclosing_of_declareAll hes).trans hroot
  have hbind : Θ.current.bindings = Δ.current.bindings :=
    (Function.bindings_of_declareAll hes).trans (Function.bindings_of_declareAll hds).symm
  have hold : List.Forall₂ (Function.Fills Θ) p.functions fs :=
    hfills.imp fun _ _ hf => hf.extends (.of_current hΔ hΘ hbind fun _ _ _ => hr.findFunction hds hes)
  cases extra with
  | none => exact ⟨[],hold,rfl⟩
  | some f =>
    obtain ⟨gs',Γ',ds',Δ',s,f',hgs',hds',hs,hf'⟩ := (he f rfl).typed
    obtain ⟨rfl,rfl⟩ := Prod.ext_iff.mp (Except.ok.inj (hgs.symm.trans hgs'))
    obtain ⟨rfl,rfl⟩ := Prod.ext_iff.mp (Except.ok.inj (hds.symm.trans hds'))
    have hext : (Δ.declare f s).Extends Θ := by
      refine .of_current hΔ hΘ hbind fun x arity u hu => ?_
      rw [Context.declare,Frame.findFunction_cons] at hu
      split at hu
      · next hx =>
        obtain ⟨rfl,rfl⟩ := hx
        cases hu
        exact hr.findFunction_of_mem hes List.mem_cons_self hs
      · exact hr.findFunction hds hes hu
    exact ⟨[f'],.cons ⟨s,hs,Function.check_extends hext hf'⟩ hold,rfl⟩

end Rearranges

/-- Whatever the order of its functions and whether it has one more, a program is checked, and each
global and function that it had is filled as before. -/
theorem check_of_rearranges {extra : Option Function} (hr : q.Rearranges p extra)
    (he : ∀ f ∈ extra, p.Admits names f) (h : p.check names = .ok t) :
    ∃ t' added, q.check names = .ok t' ∧ t'.globals = t.globals ∧
      added.length = extra.toList.length ∧ t'.functions.length = q.functions.length ∧
      (q.functions.zip t'.functions).Perm
        (extra.toList.zip added ++ p.functions.zip t.functions) := by
  obtain ⟨hmain,gs,Γ,ds,Δ,fs,hgs,hds,hfs,rfl⟩ := check_eq_ok.mp h
  obtain ⟨es,Θ,hes⟩ := hr.exists_declareAll he hgs hds
  obtain ⟨added,hall,hlen⟩ := hr.checked he hgs hds hes hfs
  obtain ⟨fs',hfs',hperm⟩ := exists_forall₂_of_perm hr.functions hall
  have hmain' : q.functions.any Function.isMain = true := by
    obtain ⟨f,hf,hm⟩ := List.any_eq_true.mp hmain
    exact List.any_eq_true.mpr
      ⟨f,hr.functions.symm.subset (List.mem_append_right extra.toList hf),hm⟩
  have hbodies := (Function.mapM_check_iff (Function.forall₂_of_declareAll hes)).mpr hfs'
  refine ⟨⟨gs,fs'⟩,added,check_eq_ok.mpr ⟨hmain',gs,Γ,es,Θ,fs',hr.globals ▸ hgs,hes,hbodies,rfl⟩,
    rfl,hlen,hfs'.length_eq.symm,?_⟩
  rwa [List.zip_append hlen.symm] at hperm

end Program
end BlockScript
