import BlockScript.Proofs.Declarations.Check
import BlockScript.Proofs.Declarations.Wider
import BlockScript.Proofs.Rendered
import Mathlib
/-! The order in which functions are declared and those that nothing calls make no difference. -/
namespace BlockScript

namespace Function

/-- What a machine knows a loaded function as. -/
def entry (f : Function) : Entry Callable := ⟨f.name,f.arity,.declared f Environment.root⟩

/-- The names with some functions loaded, the last one in front. -/
def table (frame : Frame Value Callable) (fs : List Function) : Frame Value Callable :=
  { frame with functions := (fs.map entry).reverse ++ frame.functions }

lemma table_table (frame : Frame Value Callable) (f : Function) (fs : List Function) :
    table (table frame [f]) fs = table frame (f :: fs) := by
  simp [table]

/-- A function is found by its key among functions with different keys. -/
lemma find?_entry {fs : List Function} (hk : (fs.map key).Nodup) {f : Function} (hf : f ∈ fs) :
    (fs.map entry).reverse.find? (fun e => e.name == f.name && e.arity == f.arity) =
      some f.entry := by
  have hmem : f.entry ∈ (fs.map entry).reverse := List.mem_reverse.mpr (List.mem_map_of_mem hf)
  cases h : (fs.map entry).reverse.find? fun e => e.name == f.name && e.arity == f.arity with
  | none => exact absurd (List.find?_eq_none.mp h f.entry hmem) (by simp [entry])
  | some e =>
    obtain ⟨g,hg,rfl⟩ := List.mem_map.mp (List.mem_reverse.mp (List.mem_of_find?_eq_some h))
    have hgf : g.name = f.name ∧ g.arity = f.arity := by
      simpa [entry] using List.find?_some h
    rw [List.inj_on_of_nodup_map hk hg hf (Prod.ext hgf.1 hgf.2)]

/-- With more functions loaded there are more functions. -/
lemma table_wider {frame : Frame Value Callable} {fs gs : List Function} (hsub : fs ⊆ gs)
    (hk : (gs.map key).Nodup) (hn : ∀ g ∈ gs, frame.findFunction g.name g.arity = none) :
    (table frame fs).Wider (table frame gs) := by
  refine ⟨rfl,fun name arity c hc => ?_⟩
  simp only [table,Frame.findFunction,List.find?_append] at hc ⊢
  cases hf : (fs.map entry).reverse.find? fun e => e.name == name && e.arity == arity with
  | some e =>
    rw [hf] at hc
    obtain ⟨f,hmem,rfl⟩ := List.mem_map.mp (List.mem_reverse.mp (List.mem_of_find?_eq_some hf))
    obtain ⟨rfl,rfl⟩ : f.name = name ∧ f.arity = arity := by simpa [entry] using List.find?_some hf
    rw [find?_entry hk (hsub hmem)]
    exact hc
  | none =>
    rw [hf] at hc
    have hnone : (gs.map entry).reverse.find? (fun e => e.name == name && e.arity == arity) =
        none := by
      refine List.find?_eq_none.mpr fun e he hkey => ?_
      obtain ⟨g,hg,rfl⟩ := List.mem_map.mp (List.mem_reverse.mp he)
      obtain ⟨rfl,rfl⟩ : g.name = name ∧ g.arity = arity := by simpa [entry] using hkey
      have := hn g hg
      simp only [Frame.findFunction] at this
      rw [Option.none_or,this] at hc
      cases hc
    rw [hnone]
    exact hc

end Function

namespace Run
variable {m : Machine}

/-- Functions with different keys that are new in the root are loaded. -/
lemma loadFunctions_ok (fs : List Function) {s : Scope Value Callable}
    (hs : m.environment.scopes[Environment.root]? = some s) (hk : (fs.map Function.key).Nodup)
    (hn : ∀ f ∈ fs, s.frame.findFunction f.name f.arity = none) :
    loadFunctions fs m = .ok () { m with
      environment := m.environment.setFrame Environment.root (Function.table s.frame fs) } := by
  induction fs generalizing m s with
  | nil =>
    have := Environment.setFrame_eq_self hs
    rw [show Function.table s.frame [] = s.frame from rfl,this]
    rfl
  | cons f fs ih =>
    rw [List.map_cons,List.nodup_cons] at hk
    have hd : m.environment.defineFunction Environment.root f.name f.arity
        (.declared f Environment.root) =
          .ok (m.environment.setFrame Environment.root (Function.table s.frame [f])) :=
      Environment.defineFunction_eq_ok.mpr ⟨s,hs,hn f List.mem_cons_self,rfl⟩
    have hs' : (m.environment.setFrame Environment.root
        (Function.table s.frame [f])).scopes[Environment.root]? =
          some { s with frame := Function.table s.frame [f] } := by
      simp [Environment.setFrame,hs]
    have hn' : ∀ g ∈ fs, (Function.table s.frame [f]).findFunction g.name g.arity = none := by
      intro g hg
      refine (Frame.findFunction_cons s.frame f.entry g.name g.arity).trans ?_
      rw [if_neg]
      · exact hn g (List.mem_cons_of_mem f hg)
      · rintro ⟨hname,harity⟩
        exact hk.1 (List.mem_map.mpr ⟨g,hg,Prod.ext hname.symm harity.symm⟩)
    rw [loadFunctions,bind_ok (updateEnvironment_ok hd)]
    refine (ih (m := ⟨m.prelude,m.environment.setFrame _ (Function.table s.frame [f]),m.sink⟩) hs'
      hk.2 hn').trans ?_
    rw [Function.table_table]
    exact congrArg (fun env => EStateM.Result.ok () { m with environment := env })
      (Environment.setFrame_setFrame ..)

/-- A program with more functions is loaded with more functions. -/
lemma load_widened (hm : m.Reachable) (fuel : Nat) {p q : Program} (hg : q.globals = p.globals)
    (hsub : p.functions ⊆ q.functions) (hp : (p.functions.map Function.key).Nodup)
    (hq : (q.functions.map Function.key).Nodup)
    (hn : ∀ f ∈ q.functions, m.prelude.findFunction f.name f.arity = none) :
    Widened (load fuel p m) (load fuel q m) := by
  have hreset := hm.reset
  change Widened
    ((loadGlobals fuel p.globals >>= fun _ => loadFunctions p.functions)
      { m with environment := .ofRoot m.prelude })
    ((loadGlobals fuel q.globals >>= fun _ => loadFunctions q.functions)
      { m with environment := .ofRoot m.prelude })
  rw [hg]
  refine (Widened.refl _).bind fun u m₁ m₁' h₁ h₁' _ => ?_
  obtain rfl : m₁ = m₁' := by
    rw [h₁] at h₁'
    cases h₁'
    rfl
  -- the root has the functions from outside still
  have hgrows := (loadGlobals_disciplined hreset fuel p.globals).grows Environment.root
  rw [h₁] at hgrows
  obtain ⟨s,hs,hfunctions⟩ : ∃ s, m₁.environment.scopes[Environment.root]? = some s ∧
      s.frame.functions = m.prelude.functions := by
    change Option.Rel _ (some _) m₁.environment.scopes[Environment.root]? at hgrows
    generalize m₁.environment.scopes[Environment.root]? = o at hgrows
    cases hgrows with
    | some h => exact ⟨_,rfl,h.2.functions⟩
  have hnew : ∀ f ∈ q.functions, s.frame.findFunction f.name f.arity = none := by
    intro f hf
    rw [Frame.findFunction,hfunctions]
    exact hn f hf
  rw [loadFunctions_ok p.functions hs hp fun f hf => hnew f (hsub hf),
    loadFunctions_ok q.functions hs hq hnew]
  refine .ok ⟨?_,rfl⟩
  exact (Machine.Wider.refl m₁).environment.setFrame_setFrame Environment.root
    (Function.table_wider hsub hq hnew)

/-- A program with more functions runs the same, unless the other misses one. -/
theorem program_widened (hm : m.Reachable) (fuel : Nat) {p q : Program}
    (hg : q.globals = p.globals) (hsub : p.functions ⊆ q.functions)
    (hp : (p.functions.map Function.key).Nodup) (hq : (q.functions.map Function.key).Nodup)
    (hn : ∀ f ∈ q.functions, m.prelude.findFunction f.name f.arity = none) :
    Widened (program fuel p m) (program fuel q m) := by
  refine (load_widened hm fuel hg hsub hp hq hn).bind fun u m₁ m₁' h₁ h₁' hw => ?_
  have hs := load_settled hm fuel p
  have hs' := load_settled hm fuel q
  rw [h₁] at hs
  rw [h₁'] at hs'
  exact (widens_rules.calls fuel "main" []).widened m₁ m₁' Environment.root hs.reachable
    hs'.reachable hs.reachable.nested.isOpen_root hw

end Run

namespace Script
variable {source source' : String} {p q t : Program}

/-- A program in another order or with one function more runs the same. -/
lemma runProgram_rearranged (h : check source = .ok t) {t' : Program}
    (hg : t'.globals = t.globals) (hsub : t.functions ⊆ t'.functions)
    (ht : (t.functions.map Function.key).Nodup) (ht' : (t'.functions.map Function.key).Nodup)
    (hn : ∀ f ∈ t'.functions, Program.standardNames.findFunction f.name f.arity = none)
    (fuel : Nat) (sink : Sink) : runProgram fuel t' sink = runProgram fuel t sink := by
  have hm : (Machine.new Machine.standardNames sink).Reachable := .start Run.standardNames_rooted
  have hnames : ∀ f ∈ t'.functions, Machine.standardNames.findFunction f.name f.arity = none := by
    intro f hf
    simpa [Frame.findFunction,Machine.standardNames,Program.standardNames,Frame.replaceFunction,
      Frame.empty] using hn f hf
  have hw := Run.program_widened hm fuel hg hsub ht ht' hnames
  -- a checked program misses no function
  have hfound : ∀ f arity m, Run.program fuel t (.new Machine.standardNames sink) ≠
      .error (.failed (.scope (.undefinedFunction f arity))) m := by
    intro f arity m hr
    have he : (run fuel source sink).1 = .error (.running (.scope (.undefinedFunction f arity))) := by
      simp only [run,h,runProgram,hr]
      rfl
    obtain ⟨w,_,hw⟩ := stopped_of_run h (fun hb : true = false => absurd hb (by decide)) he
    exact hw.allowed _ rfl
  unfold runProgram
  generalize Run.program fuel t (.new Machine.standardNames sink) = r at hw hfound
  generalize Run.program fuel t' (.new Machine.standardNames sink) = r' at hw
  cases hw with
  | ok hw => simp only [hw.sink]
  | error hw => simp only [hw.sink]
  | missing => exact absurd rfl (hfound _ _ _)

/-- The order of functions and those that nothing calls make no difference. For a text whose program
is accepted, a text with the same globals, the same functions in any order and perhaps one more that
is well typed among them is accepted too, with every global and every function filled as before, and
it runs to the same value or error with the same output. -/
theorem rearranged_runs_same {extra : Option Function} (h : check source = .ok t)
    (hp : read source = .ok p) (hq : read source' = .ok q) (hr : q.Rearranges p extra)
    (he : ∀ f ∈ extra, p.Admits Program.standardNames f) :
    ∃ t' added, check source' = .ok t' ∧ t'.globals = t.globals ∧
      added.length = extra.toList.length ∧ t'.functions.length = q.functions.length ∧
      (q.functions.zip t'.functions).Perm
        (extra.toList.zip added ++ p.functions.zip t.functions) ∧
      ∀ fuel sink, run fuel source' sink = run fuel source sink := by
  obtain ⟨p',hp',hc⟩ := check_eq_ok h
  obtain rfl := Except.ok.inj (hp.symm.trans hp')
  obtain ⟨t',added,hc',hg,hadded,hlen,hperm⟩ := Program.check_of_rearranges hr he hc
  have hcheck : check source' = .ok t' := by
    rw [check_of_read hq,hc']
    rfl
  obtain ⟨hkeys,_⟩ := Program.keys_of_check hc
  obtain ⟨hkeys',hnew⟩ := Program.keys_of_check hc'
  have hsub : t.functions ⊆ t'.functions := by
    have hmap := hperm.map Prod.snd
    rw [List.map_append,List.map_snd_zip hlen.le,List.map_snd_zip hadded.le,
      List.map_snd_zip (Program.length_of_check hc).le] at hmap
    exact fun f hf => hmap.symm.subset (List.mem_append_right added hf)
  refine ⟨t',added,hcheck,hg,hadded,hlen,hperm,fun fuel sink => ?_⟩
  simp only [run,h,hcheck]
  exact runProgram_rearranged h hg hsub hkeys hkeys' hnew fuel sink

/-- `FUN main(): Integer DO RETURN f(); END` -/
def callingFunction : Function :=
  ⟨"main",[],[],some "Integer",[.ret (.call "f" [] none none)],none⟩

/-- `FUN f(): Integer DO RETURN 1; END` -/
def calledFunction : Function := ⟨"f",[],[],some "Integer",[.ret (.literal (.integer 1) none)],none⟩

/-- `FUN g() DO g(); END` -/
def idleFunction : Function := ⟨"g",[],[],none,[.expression (.call "g" [] none none)],none⟩

lemma idleFunction_admitted :
    Program.Admits Program.standardNames ⟨[],[callingFunction,calledFunction]⟩ idleFunction :=
  ⟨rfl,by decide,_,_,_,_,_,_,rfl,rfl,rfl,rfl⟩

/-- The function that is called comes last. -/
def forwardText : String :=
  "FUN main(): Integer DO RETURN f(); END FUN f(): Integer DO RETURN 1; END"

/-- It comes first, and a function that only calls itself stands between. -/
def idleText : String :=
  "FUN f(): Integer DO RETURN 1; END FUN g() DO g(); END FUN main(): Integer DO RETURN f(); END"

lemma read_forwardText : read forwardText = .ok ⟨[],[callingFunction,calledFunction]⟩ := by cbv

lemma read_idleText : read idleText = .ok ⟨[],[calledFunction,idleFunction,callingFunction]⟩ := by
  cbv

theorem rearranged_runs_same_idle :
    ∃ t t', check forwardText = .ok t ∧ check idleText = .ok t' ∧
      ∀ fuel sink, run fuel idleText sink = run fuel forwardText sink := by
  have hr : Program.Rearranges ⟨[],[calledFunction,idleFunction,callingFunction]⟩
      ⟨[],[callingFunction,calledFunction]⟩ (some idleFunction) :=
    ⟨rfl,@List.perm_append_comm _ [calledFunction] _⟩
  obtain ⟨t,ht,_⟩ : ∃ t, check forwardText = .ok t ∧ (fun _ => true) t = true :=
    exists_check (by decide +kernel)
  obtain ⟨t',_,ht',_,_,_,_,hrun⟩ :=
    rearranged_runs_same ht read_forwardText read_idleText hr fun f hf => by
      cases hf
      exact idleFunction_admitted
  exact ⟨t,t',ht,ht',hrun⟩

end Script
end BlockScript
