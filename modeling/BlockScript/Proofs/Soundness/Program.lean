import BlockScript.Proofs.Soundness.Statement
/-! Calls, the loading of a program and a whole run: the invariant holds at every moment. -/
namespace BlockScript

open Traced (Ensures)

/-- Whether every variable of a program has an initial value. -/
def Program.initialised (p : Program) : Bool :=
  p.globals.all (·.value.isSome) && p.functions.all fun f => Stmt.blockInitialised f.body

/-- Whether a function cannot end without a value that its result type asks for. -/
def Function.completes (f : Function) : Bool :=
  f.resultTypeName == none || f.resultTypeName == some "Nil" || f.resultTypeName == some "Any" ||
    Stmt.blockReturns f.body

section
variable {blank : Bool} {names : Option (Frame Ty Signature)} {decls : Environment Ty Signature}

/-- Parameters are bound to arguments in the scope of the body, as the check bound their types. -/
lemma Ensures.defineAll {scope : Nat} (hpos : 0 < scope) (xs : List String) {ts : List Ty}
    {vs : List Value} (hlen : xs.length = ts.length) (hv : List.Forall₂ (Ty.Fits blank) ts vs)
    {decls : Environment Ty Signature} {Γ Δ : Context} (hΓ : decls.chain scope = Γ.frames)
    (h : Γ.defineAll (xs.zipWith (fun name t => ⟨name,t,false⟩) ts) = .ok Δ) :
    Ensures blank names decls
      (Traced.defineAll scope (xs.zip vs) (xs.zipWith (fun name t => ⟨name,t,false⟩) ts))
      (fun _ decls' => decls.setFrame scope Δ.current = decls' ∧ Δ.enclosing = Γ.enclosing) := by
  induction xs generalizing ts vs decls Γ with
  | nil =>
    cases h
    exact .pure ⟨Environment.setFrame_chain hΓ,rfl⟩
  | cons x xs ih =>
    cases hv with
    | nil => cases hlen
    | @cons t v ts vs hv hvs =>
      obtain ⟨Θ,hd,hΔ⟩ := Context.defineAll_cons_eq_ok.mp h
      obtain ⟨hn,rfl⟩ := Context.defineVariable_eq_ok.mp hd
      refine .bind (.define (d := ⟨x,t,false⟩) (.inr hpos) hΓ hn hv) ?_
      intro _ _ hpost
      obtain rfl := hpost
      refine (ih (Nat.succ.inj hlen) hvs
        (Context.chain_setFrame hΓ (by rfl)) hΔ).imp ?_
      intro _ _ hpost
      obtain ⟨rfl,henc⟩ := hpost
      exact ⟨(Environment.setFrame_setFrame ..).symm,henc⟩

/-- Calls of functions that were checked come to values that fit their results, by induction on the
bound: the calls that a body makes have a lower one. -/
theorem Traced.call_sound (fuel : Nat) : (Traced.call fuel).Sound blank names := by
  induction fuel with
  | zero => exact fun _ _ _ _ _ _ _ => .outOfFuel
  | succ n ih =>
    intro decls scope name arguments s hs hargs
    refine .bind (.lookupFunction hs) ?_
    intro c _ hpost
    obtain ⟨rfl,hc,hlen⟩ := hpost
    cases c with
    | print =>
      obtain rfl := hc
      apply (Ensures.print arguments).imp
      intro v _ hpost
      obtain ⟨rfl,rfl⟩ := hpost
      exact ⟨rfl,.inr rfl⟩
    | declared f home =>
      obtain ⟨rfl,frame,rfl,hf⟩ := hc
      refine .ofTyped fun ⟨_,ht⟩ => ?_
      have hroot := ht.home frame rfl
      have ho : decls.isOpen Environment.root := Environment.isOpen_of_chain hroot
      have hpos : 0 < decls.depth := Environment.isOpen_iff.mp ho
      obtain ⟨g,hg⟩ := hf.checked
      obtain ⟨Θ,body,hΘ,hbody,rfl⟩ := Function.check_eq_ok.mp hg
      have hchain : (decls.inner Environment.root).chain decls.depth =
          (Context.ofFrame frame).enter.frames := by
        rw [Environment.chain_inner_depth ho,hroot]
        rfl
      refine (Ensures.inChild (P := s.result.Fits blank) ho ?_).imp fun v _ h => ⟨h.2,h.1⟩
      refine .bind (Ensures.defineAll hpos g.parameters hf.arity hargs hchain hΘ) ?_
      intro _ _ hpost
      obtain ⟨rfl,henc⟩ := hpost
      have hchain' := Context.chain_setFrame hchain henc
      refine .bind (Stmt.traceBlock_sound ih hpos hchain' g.body hbody hf.initialised) ?_
      intro c _ hpost
      obtain ⟨hc,inner,rfl⟩ := hpost
      cases c with
      | returned v => exact .pure ⟨hc,inner,(Environment.setFrame_setFrame ..).symm⟩
      | normal =>
        refine .pure ⟨?_,inner,(Environment.setFrame_setFrame ..).symm⟩
        cases blank with
        | true => exact .inl ⟨rfl,rfl⟩
        | false =>
          rcases hf.returns rfl with h | h | h
          · rw [h]; exact .inr rfl
          · rw [h]; exact .inr trivial
          · exact absurd (h.symm.trans hc) (by simp)

/-- The value of a global fits its type. -/
lemma Global.traceInitial_sound {call : Traced.Caller} (hcall : call.Sound blank names)
    {scope : Nat} {Γ : Context} (hΓ : decls.chain scope = Γ.frames) {g : Global}
    {value : Option Expr} {t : Ty} (h : g.checkValue Γ = .ok (value,t))
    (hi : blank = false → value.isSome = true) :
    Ensures blank names decls (Expr.traceInitial call scope value)
      (fun v decls' => decls = decls' ∧ t.Fits blank v) := by
  rcases Global.checkValue_eq_ok.mp h with ⟨es,_,_,es',u,_,_,hes,rfl,rfl⟩ | ⟨_,h⟩
  · change Ensures blank names decls (Expr.trace call scope _) _
    unfold Expr.trace
    refine .around trivial ?_ fun v _ hv => ⟨.list u,rfl,hv.2⟩
    refine .bind (Expr.traceAll_elements hcall hΓ es hes) ?_
    intro vs _ hpost
    obtain ⟨rfl,hvs⟩ := hpost
    exact .pure ⟨rfl,.inr ⟨vs,rfl,hvs⟩⟩
  · exact Expr.traceInitial_sound hcall hΓ h hi

/-- Globals are loaded into the root scope as they were checked. -/
theorem Traced.loadGlobals_sound (fuel : Nat) (gs : List Global) {gs' : List Global}
    {decls : Environment Ty Signature} {Γ Δ : Context}
    (hΓ : decls.chain Environment.root = Γ.frames) (h : Global.checkAll Γ gs = .ok (gs',Δ))
    (hi : blank = false → ∀ g ∈ gs', g.value.isSome = true) :
    Ensures blank none decls (Traced.loadGlobals fuel gs')
      (fun _ decls' => decls.setFrame Environment.root Δ.current = decls') := by
  induction gs generalizing gs' decls Γ with
  | nil =>
    obtain ⟨rfl,rfl⟩ := Global.checkAll_nil.mp h
    exact .pure (Environment.setFrame_chain hΓ)
  | cons g gs ih =>
    obtain ⟨g',Θ,hs,hg,hgs,rfl⟩ := Global.checkAll_cons.mp h
    obtain ⟨value,t,hv,hd,rfl⟩ := Global.check_eq_ok.mp hg
    obtain ⟨hn,rfl⟩ := Context.defineVariable_eq_ok.mp hd
    refine .bind (Global.traceInitial_sound (Traced.call_sound fuel) hΓ hv fun hb =>
      hi hb _ List.mem_cons_self) ?_
    intro v _ hpost
    obtain ⟨rfl,hfit⟩ := hpost
    refine .bind (.define (d := ⟨g.name,t,g.mutable⟩) (.inl rfl) hΓ hn hfit) ?_
    intro _ _ hpost
    obtain rfl := hpost
    refine (ih (Context.chain_setFrame hΓ (by rfl)) hgs fun hb k hk =>
      hi hb k (List.mem_cons_of_mem _ hk)).imp ?_
    intro _ _ hpost
    obtain rfl := hpost
    exact (Environment.setFrame_setFrame ..).symm

/-- Functions are loaded into the root scope as they were declared. -/
lemma Run.loadFunctions_sound {R : Frame Ty Signature} (fs : List Function)
    {gs : List (Function × Signature)} {fs' : List Function} {F : Frame Ty Signature} {Δ : Context}
    {m : Machine} (hm : m.environment.Related (Frame.Holds blank (some R)) (.ofRoot F))
    (h : Function.declareAll (.ofFrame F) fs = .ok (gs,Δ))
    (hfs : List.Forall₂ (fun g f => g.1.check (.ofFrame R) g.2 = .ok f ∧ f.Sound blank R g.2) gs fs') :
    ∃ env, Run.loadFunctions fs' m = .ok () { m with environment := env } ∧
      env.Related (Frame.Holds blank (some R)) (.ofRoot Δ.current) ∧
      F.declareFunctions fs' = Δ.current := by
  induction fs generalizing gs fs' F m with
  | nil =>
    obtain ⟨rfl,rfl⟩ := Function.declareAll_nil.mp h
    cases hfs
    exact ⟨_,rfl,hm,rfl⟩
  | cons f fs ih =>
    obtain ⟨s,Θ,hs,hd,hΘ,hrest,rfl⟩ := Function.declareAll_cons.mp h
    obtain ⟨hn,rfl⟩ := Context.defineFunction_eq_ok.mp hΘ
    cases hfs with
    | @cons _ f' _ fs' hf hfs =>
      obtain ⟨hcheck,hsound⟩ := hf
      obtain ⟨hname,harity,hsig⟩ : f'.name = f.name ∧ f'.arity = f.arity ∧ f'.signature = some s := by
        obtain ⟨_,_,_,_,rfl⟩ := Function.check_eq_ok.mp hcheck
        exact ⟨rfl,rfl,rfl⟩
      have he : Entry.Holds blank (some R) ⟨f.name,f.arity,.declared f' Environment.root⟩
          ⟨f.name,f.arity,s⟩ :=
        ⟨rfl,rfl,harity.symm.trans hsound.arity,rfl,R,rfl,hsound⟩
      obtain ⟨env₁,h₁,hm₁⟩ := hm.defineFunction he hn
      have hrun : Run.updateEnvironment (·.defineFunction Environment.root f'.name f'.arity
          (.declared f' Environment.root)) m = .ok () { m with environment := env₁ } :=
        Run.updateEnvironment_ok (by rw [hname,harity]; exact h₁)
      obtain ⟨env,henv,hrel,hdecl⟩ := ih (m := { m with environment := env₁ }) hm₁ hrest hfs
      refine ⟨env,?_,hrel,?_⟩
      · simp only [Run.loadFunctions,Bind.bind,EStateM.bind,hrun]
        exact henv
      · rw [← hdecl]
        simp [Frame.declareFunctions,hsig,hname,harity]

lemma Machine.standardNames_hold :
    Frame.Holds blank none Machine.standardNames Program.standardNames :=
  ⟨.nil,.cons ⟨rfl,rfl,rfl,rfl⟩ .nil,.nil⟩

/-- The functions of a checked program are sound among the names of its root scope. -/
lemma Program.functions_sound {fs : List Function} {gs : List (Function × Signature)}
    {fs' : List Function} {R : Frame Ty Signature}
    (harity : ∀ f ∈ fs, f.parameters.length = f.parameterTypeNames.length)
    (hgs : ∀ g ∈ gs, g.1 ∈ fs ∧ g.1.declared = .ok g.2)
    (hfs : List.Forall₂ (fun g f => g.1.check (.ofFrame R) g.2 = .ok f) gs fs')
    (hi : blank = false → ∀ f ∈ fs', Stmt.blockInitialised f.body = true ∧ f.completes = true) :
    List.Forall₂ (fun g f => g.1.check (.ofFrame R) g.2 = .ok f ∧ f.Sound blank R g.2) gs fs' := by
  induction hfs with
  | nil => exact .nil
  | @cons g f gs fs' hf _ ih =>
    refine .cons ⟨hf,⟨g.1,hf⟩,?_,?_,?_⟩ (ih (fun k hk => hgs k (List.mem_cons_of_mem _ hk))
      fun hb k hk => hi hb k (List.mem_cons_of_mem _ hk))
    · obtain ⟨hmem,hd⟩ := hgs g List.mem_cons_self
      obtain ⟨hts,_⟩ := Function.declared_eq_ok.mp hd
      have hlen := (Checked.mapM_eq_ok.mp hts).length_eq
      obtain ⟨_,_,_,_,rfl⟩ := Function.check_eq_ok.mp hf
      exact (harity _ hmem).trans hlen
    · exact fun hb => (hi hb f List.mem_cons_self).1
    · intro hb
      have hc := (hi hb f List.mem_cons_self).2
      obtain ⟨_,hr⟩ := Function.declared_eq_ok.mp (hgs g List.mem_cons_self).2
      have hname : f.resultTypeName = g.1.resultTypeName := by
        obtain ⟨_,_,_,_,rfl⟩ := Function.check_eq_ok.mp hf
        rfl
      rw [← hname] at hr
      simp only [Function.completes,Bool.or_eq_true,beq_iff_eq] at hc
      rcases hr with ⟨_,hr⟩ | ⟨n,hn,hr⟩
      · exact .inl hr
      · rcases hc with ((h | h) | h) | h
        · rw [hn] at h; cases h
        · rw [hn] at h; cases h; exact .inl (Option.some.inj hr).symm
        · rw [hn] at h; cases h; exact .inr (.inl (Option.some.inj hr).symm)
        · exact .inr (.inr h)

/-- The function that a run of a checked program calls has no parameters and gives an integer. -/
lemma Program.main_declared {fs : List Function} {gs : List (Function × Signature)} {Γ Δ : Context}
    (hmain : fs.any Function.isMain = true)
    (harity : ∀ f ∈ fs, f.parameters.length = f.parameterTypeNames.length)
    (h : Function.declareAll Γ fs = .ok (gs,Δ)) :
    Δ.current.findFunction "main" 0 = some ⟨[],.integer⟩ := by
  obtain ⟨f,hf,hm⟩ := List.any_eq_true.mp hmain
  obtain ⟨s,hd,hfind⟩ := (Function.declareAll_spec h).2.2 f hf
  simp only [Function.isMain,Bool.and_eq_true,beq_iff_eq,List.isEmpty_iff] at hm
  obtain ⟨⟨hname,hpar⟩,hres⟩ := hm
  obtain ⟨hts,hr⟩ := Function.declared_eq_ok.mp hd
  have hlen := harity f hf
  have hnil : f.parameterTypeNames = [] := by
    rw [hpar] at hlen
    exact List.length_eq_zero_iff.mp hlen.symm
  rw [Function.arity,hname,hpar] at hfind
  rw [List.length_nil] at hfind
  rw [hfind]
  obtain ⟨ts,t⟩ := s
  rw [hnil] at hts
  cases hts
  rcases hr with ⟨h,_⟩ | ⟨n,hn,hr⟩
  · rw [hres] at h; cases h
  · rw [hres] at hn
    cases hn
    obtain rfl : Ty.integer = t := Option.some.inj hr
    rfl

/-- A watch before a program is loaded. -/
def Watch.start (sink : Sink) : Watch :=
  ⟨.new Machine.standardNames sink,.ofRoot Program.standardNames,[]⟩

/-- A checked program is loaded with its final names in the root scope. -/
theorem Traced.load_sound {gs gs' : List Global} {fs fs' : List Function} {Γ Δ : Context}
    {ds : List (Function × Signature)}
    (hg : Global.checkAll (.ofFrame Program.standardNames) gs = .ok (gs',Γ))
    (hf : Function.declareAll Γ fs = .ok (ds,Δ))
    (hfs : List.Forall₂ (fun g f => g.1.check (.ofFrame Δ.current) g.2 = .ok f ∧
      f.Sound blank Δ.current g.2) ds fs')
    (hi : blank = false → ∀ g ∈ gs', g.value.isSome = true) (fuel : Nat) (sink : Sink) :
    match Traced.load Program.standardNames fuel ⟨gs',fs'⟩ (.start sink) with
    | .ok _ w => w.Good blank (some Δ.current) (.ofRoot Δ.current)
    | .error halt w => w.Stopped blank halt := by
  have hstart : (Watch.start sink).Good blank none (.ofRoot Program.standardNames) :=
    ⟨rfl,⟨.ofRoot Machine.standardNames_hold,nofun⟩,nofun⟩
  have hgood := Traced.loadGlobals_sound fuel gs (Environment.chain_ofRoot _) hg hi _ hstart
  change match EStateM.bind (Traced.loadGlobals fuel gs')
    (fun _ => lift (Run.loadFunctions fs') >>= fun _ => modify fun w =>
      { w with declared := ⟨w.declared.scopes.modify Environment.root fun s =>
        { s with frame := s.frame.declareFunctions fs' }⟩ }) (.start sink) with
    | .ok _ w => _
    | .error halt w => _
  unfold EStateM.bind
  cases hr : Traced.loadGlobals fuel gs' (.start sink) with
  | error halt w =>
    rw [hr] at hgood
    exact hgood
  | ok _ w =>
    rw [hr] at hgood
    obtain ⟨_,rfl,hw⟩ := hgood
    have henc := Global.enclosing_of_checkAll hg
    obtain ⟨F,enclosing⟩ := Γ
    obtain rfl : enclosing = [] := henc
    have hrel : w.machine.environment.Related (Frame.Holds blank (some Δ.current)) (.ofRoot F) :=
      hw.typed.scopes.mono fun _ _ => Frame.Holds.of_none
    obtain ⟨env,henv,hrel',hdecl⟩ := Run.loadFunctions_sound fs hrel hf hfs
    have hlift : lift (Run.loadFunctions fs') w =
        .ok () { w with machine := { w.machine with environment := env } } := by
      simp only [lift,henv]
    simp only [Bind.bind,EStateM.bind,hlift]
    refine ⟨?_,⟨hrel',fun frame h => ?_⟩,hw.past⟩
    · rw [← hdecl]
      simp only [hw.declared]
      rfl
    · cases h
      exact Environment.chain_ofRoot _

/-- How a run of a checked program may end. -/
def Watch.Ended (blank : Bool) : EStateM.Result Halt Watch Value → Prop
  | .ok v w => Ty.integer.Fits blank v ∧ ∀ m ∈ w.past, m.Sound blank
  | .error halt w => w.Stopped blank halt

/-- Every run of a checked program keeps the invariant to its end. Where its variables all have
initial values and its functions all return, there are no blanks. -/
theorem Program.watch_sound {p p' : Program} (h : p.check Program.standardNames = .ok p')
    (harity : ∀ f ∈ p.functions, f.parameters.length = f.parameterTypeNames.length)
    (hi : blank = false → p'.initialised = true ∧ ∀ f ∈ p'.functions, f.completes = true)
    (fuel : Nat) (sink : Sink) : Watch.Ended blank (p'.watch fuel sink) := by
  obtain ⟨hmain,gs,Γ,fs,Δ,fs',hg,hf,hfs,rfl⟩ := Program.check_eq_ok.mp h
  simp only [Program.initialised,Bool.and_eq_true,List.all_eq_true] at hi
  have hΔ : Δ = .ofFrame Δ.current := by
    have henc : Δ.enclosing = [] :=
      (Function.enclosing_of_declareAll hf).trans (Global.enclosing_of_checkAll hg)
    rw [Context.ofFrame,← henc]
  have hfs := Checked.mapM_eq_ok.mp hfs
  rw [hΔ] at hfs
  have hsound := Program.functions_sound harity (Function.declareAll_spec hf).1 hfs
    fun hb f hf => ⟨(hi hb).1.2 f hf,(hi hb).2 f hf⟩
  have hload := Traced.load_sound hg hf hsound (fun hb => (hi hb).1.1) fuel sink
  change Watch.Ended blank (EStateM.bind (Traced.load Program.standardNames fuel ⟨gs,fs'⟩)
    (fun _ => Traced.call fuel Environment.root "main" []) (.start sink))
  unfold EStateM.bind
  cases hr : Traced.load Program.standardNames fuel ⟨gs,fs'⟩ (.start sink) with
  | error halt w =>
    rw [hr] at hload
    exact hload
  | ok _ w =>
    rw [hr] at hload
    have hmain : (Environment.ofRoot Δ.current).lookupFunction Environment.root "main"
        ([] : List Value).length = .ok ⟨[],.integer⟩ := by
      rw [Environment.lookupFunction_eq_ok,Environment.chain_ofRoot]
      simp [Program.main_declared hmain harity hf]
    have hcall := Traced.call_sound fuel _ _ _ _ _ hmain .nil w hload
    dsimp only
    cases hc : Traced.call fuel Environment.root "main" [] w with
    | ok v w' =>
      rw [hc] at hcall
      obtain ⟨_,⟨_,hv⟩,hw'⟩ := hcall
      exact ⟨hv,hw'.past⟩
    | error halt w' =>
      rw [hc] at hcall
      exact hcall

end
end BlockScript
