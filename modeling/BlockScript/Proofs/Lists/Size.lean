import BlockScript.Proofs.Scopes.Frames
import BlockScript.Proofs.Soundness.Script
import BlockScript.Proofs.Trace.Invariant
/-! The size of lists. Storing an element keeps the size of a list; assigning one list to another as
a whole does not. -/
namespace BlockScript

/-- A list of a number of elements. -/
def Value.HasSize (n : Nat) (v : Value) : Prop := ∃ vs, v = .list vs ∧ vs.length = n

/-- A list with one element replaced has the same size. -/
lemma Value.HasSize.setElement {n : Nat} {v i new w : Value} (h : v.HasSize n)
    (hs : v.setElement i new = .ok w) : w.HasSize n := by
  obtain ⟨vs,rfl,hn⟩ := h
  unfold Value.setElement at hs
  cases hp : (Value.list vs).position i with
  | error e => rw [hp] at hs; cases hs
  | ok at_ =>
    rw [hp] at hs
    cases hs
    refine ⟨_,rfl,?_⟩
    obtain rfl : at_.1 = vs := by
      cases i with
      | integer k =>
        simp only [Value.position] at hp
        split at hp <;> cases hp
        rfl
      | _ => cases hp
    simpa using hn

namespace Environment
variable {env env' : Environment Value Callable} {x : String} {n scope : Nat}

/-- A variable of the root is a list of a given size wherever it is bound, and no function in the
scopes assigns to it as a whole. -/
structure Sized (x : String) (n : Nat) (env : Environment Value Callable) : Prop where
  depth : 0 < env.depth
  list : ∀ s b, env.scopes[root]? = some s → s.frame.findVariable x = some b → b.value.HasSize n
  bodies : ∀ (i : Nat) (s : Scope Value Callable), env.scopes[i]? = some s →
    ∀ e ∈ s.frame.functions, ∀ g home, e.value = .declared g home →
      x ∉ Stmt.blockOverwritten g.body

namespace Sized

lemma inner (h : env.Sized x n) (parent : Nat) : (env.inner parent).Sized x n := by
  have hd : root < env.scopes.length := h.depth
  refine ⟨by simp [Environment.inner,Environment.depth],fun s b hs => ?_,fun i s hs => ?_⟩
  · rw [Environment.inner,List.getElem?_append_left hd] at hs
    exact h.list s b hs
  · simp only [Environment.inner,List.getElem?_append] at hs
    split at hs
    · exact h.bodies i s hs
    · obtain rfl := List.mem_singleton.mp (List.mem_of_getElem? hs)
      exact fun _ he => absurd he List.not_mem_nil

lemma pop (h : env.Sized x n) (scope : Nat) : (env.pop scope).Sized x n := by
  have hkept (i : Nat) (s : Scope Value Callable) (hs : (env.pop scope).scopes[i]? = some s) :
      env.scopes[i]? = some s := by
    simp only [Environment.pop,List.getElem?_take] at hs
    split at hs
    · exact hs
    · cases hs
  refine ⟨?_,fun s b hs => h.list s b (hkept _ s hs),fun i s hs => h.bodies i s (hkept i s hs)⟩
  have := h.depth
  simp only [Environment.depth,Environment.pop,List.length_take] at this ⊢
  omega

/-- A scope gets new names with the same functions or more of them. -/
lemma setFrame (h : env.Sized x n) {f : Frame Value Callable}
    (hl : scope = root → ∀ b, f.findVariable x = some b → b.value.HasSize n)
    (hf : ∀ e ∈ f.functions, ∀ g home, e.value = .declared g home →
      x ∉ Stmt.blockOverwritten g.body) : (env.setFrame scope f).Sized x n := by
  refine ⟨by simpa [Environment.setFrame,Environment.depth] using h.depth,fun s b hs => ?_,
    fun i s hs => ?_⟩
  · simp only [Environment.setFrame,List.getElem?_modify] at hs
    obtain ⟨t,ht,rfl⟩ := Option.map_eq_some_iff.mp hs
    split
    · next hi => exact hl hi b
    · exact h.list t b ht
  · simp only [Environment.setFrame,List.getElem?_modify] at hs
    obtain ⟨t,ht,rfl⟩ := Option.map_eq_some_iff.mp hs
    split
    · exact hf
    · exact h.bodies i t ht

lemma define (h : env.Sized x n) {b : Binding Value}
    (hb : scope = root → b.name = x → b.value.HasSize n)
    (hd : env.defineVariable scope b = .ok env') : env'.Sized x n := by
  obtain ⟨s,hs,_,rfl⟩ := defineVariable_eq_ok.mp hd
  refine h.setFrame (fun hr c hc => ?_) (h.bodies scope s hs)
  simp only [Frame.findVariable,List.find?_cons] at hc
  split at hc
  · next hx =>
    cases hc
    exact hb hr (beq_iff_eq.mp hx)
  · exact h.list s c (hr ▸ hs) hc

/-- Only an assignment of the variable as a whole could change its size. -/
lemma write (h : env.Sized x n) {y : String} {b : Binding Value} {v : Value}
    (hb : env.lookupVariable scope y = .ok b)
    (hv : y = x → ∃ i new, b.value.setElement i new = .ok v)
    (hw : env.writeVariable scope y v = .ok env') : env'.Sized x n := by
  obtain ⟨owner,s,hs,hf,rfl⟩ := writeVariable_of_lookup hb hw
  refine h.setFrame (fun hr c hc => ?_) (h.bodies owner s hs)
  rw [Frame.findVariable_writeVariable] at hc
  split at hc
  · next hx =>
    subst hx
    rw [hf] at hc
    cases hc
    obtain ⟨i,new,hi⟩ := hv rfl
    exact (h.list s b (hr ▸ hs) hf).setElement hi
  · exact h.list s c (hr ▸ hs) hc

lemma invariant (x : String) (n : Nat) : Invariant (Sized x n) (· = x) where
  depth h := h.depth
  inner h _ := h.inner _
  pop h := h.pop
  define h hs hd := h.define (fun hr => absurd hr hs) hd
  write h hb hv hw := h.write hb hv hw
  body := by
    rintro env scope f arity g home h hf y hy rfl
    unfold lookupFunction at hf
    cases hl : env.lookup scope (·.findFunction f arity) (.undefinedFunction f arity) with
    | error e => rw [hl] at hf; cases hf
    | ok hit =>
      rw [hl] at hf
      obtain ⟨s,hs,hff⟩ := search_eq_some (lookup_eq_ok.mp hl)
      obtain ⟨e,he,hc⟩ := Option.map_eq_some_iff.mp hff
      exact h.bodies _ s hs e (List.mem_of_find?_eq_some he) g home
        (hc.trans (Except.ok.inj hf)) hy

end Sized
end Environment

open Traced (Maintains)
open Environment (Sized)

section
variable {x : String} {n : Nat}

/-- A list expression comes to a list of as many elements as it has. -/
lemma Expr.traceList_maintains {I : Environment Value Callable → Prop} {call : Traced.Caller}
    (hc : call.Maintains I) (scope : Nat) (es : List Expr) (slot : Option Ty) :
    Maintains I (Expr.trace call scope (.list es slot)) (·.HasSize es.length) := by
  unfold Expr.trace
  exact .around (.bind (Expr.traceAll_maintains hc es) fun vs h => .pure ⟨vs,rfl,h⟩)

/-- Globals are loaded; those of the variable's name are initialised with lists of the size. -/
lemma Traced.loadGlobals_sized (fuel : Nat) (gs : List Global)
    (h : ∀ g ∈ gs, g.name = x → ∃ es slot, g.value = some (.list es slot) ∧ es.length = n) :
    Maintains (Sized x n) (Traced.loadGlobals fuel gs) fun _ => True := by
  have hc := Traced.call_maintains (Sized.invariant x n) fuel
  induction gs with
  | nil => exact .pure trivial
  | cons g gs ih =>
    have hvalue : Maintains (Sized x n)
        (Expr.traceInitial (Traced.call fuel) Environment.root g.value)
        fun v => g.name = x → v.HasSize n := by
      by_cases hx : g.name = x
      · obtain ⟨es,slot,hv,rfl⟩ := h g List.mem_cons_self hx
        rw [hv]
        exact fun w hw =>
          let hr := Expr.traceList_maintains hc Environment.root es slot w hw
          ⟨hr.1,fun a w' ha _ => hr.2 a w' ha⟩
      · exact fun w hw => ⟨(Expr.traceInitial_maintains hc g.value w hw).1,
          fun _ _ _ hn => absurd hn hx⟩
    exact .bind hvalue fun v hv => .bind (.define fun _ _ hs hd => hs.define (fun _ => hv) hd)
      fun _ _ => ih fun k hk => h k (List.mem_cons_of_mem g hk)

/-- Functions are loaded that do not assign to the variable as a whole. -/
lemma Run.loadFunctions_sized (fs : List Function)
    (h : ∀ f ∈ fs, x ∉ Stmt.blockOverwritten f.body) {m : Machine}
    (hm : m.environment.Sized x n) : (left (Run.loadFunctions fs m)).environment.Sized x n := by
  induction fs generalizing m with
  | nil => exact hm
  | cons f fs ih =>
    unfold Run.loadFunctions
    cases hd : m.environment.defineFunction Environment.root f.name f.arity
        (.declared f Environment.root) with
    | error e =>
      rw [bind_error (updateEnvironment_error hd)]
      exact hm
    | ok env =>
      rw [bind_ok (updateEnvironment_ok hd)]
      refine ih (fun k hk => h k (List.mem_cons_of_mem f hk)) ?_
      obtain ⟨s,hs,_,rfl⟩ := Environment.defineFunction_eq_ok.mp hd
      refine hm.setFrame (fun hr b hb => hm.list s b hs hb) ?_
      refine List.forall_mem_cons.mpr ⟨?_,hm.bodies _ s hs⟩
      rintro g home ⟨⟩
      exact h f List.mem_cons_self

/-- The invariant holds at every moment of a run of a program whose functions do not assign to the
variable as a whole. -/
theorem Program.moments_sized (p : Program)
    (hg : ∀ g ∈ p.globals, g.name = x → ∃ es slot, g.value = some (.list es slot) ∧ es.length = n)
    (hf : ∀ f ∈ p.functions, x ∉ Stmt.blockOverwritten f.body) (fuel : Nat) (sink : Sink) :
    ∀ m ∈ p.moments fuel sink, m.machine.environment.Sized x n := by
  have hnew : (Environment.ofRoot Machine.standardNames).Sized x n := by
    refine ⟨Nat.zero_lt_one,?_,fun i s hs e he g home hv => ?_⟩
    · rintro s b ⟨⟩ hb
      cases hb
    · obtain rfl := List.mem_singleton.mp (List.mem_of_getElem? hs)
      obtain rfl := List.mem_singleton.mp he
      cases hv
  have hload : Maintains (Sized x n) (do
      Traced.loadGlobals fuel p.globals
      Traced.lift (Run.loadFunctions p.functions)
      modify fun w : Watch =>
        { w with declared := ⟨w.declared.scopes.modify Environment.root fun s =>
          { s with frame := s.frame.declareFunctions p.functions }⟩ }) fun _ => True := by
    refine .bind (Traced.loadGlobals_sized fuel p.globals hg) fun _ _ => .bind (P := fun _ => True)
      (.lift fun m hm => ⟨Run.loadFunctions_sized p.functions hf hm,fun _ _ _ => trivial⟩)
      fun _ _ w hw => ⟨⟨hw.now,hw.past⟩,fun _ _ _ => trivial⟩
  have hrun := hload.bind fun _ _ =>
    Traced.call_maintains (Sized.invariant x n) fuel Environment.root "main" []
  have hstart : (Watch.start sink).Always (Sized x n) := ⟨hnew,nofun⟩
  exact (hrun _ hstart).1.past

end

/-- The globals of a checked program have different names. -/
lemma Global.names_of_checkAll {Γ Δ : Context} {gs gs' : List Global}
    (h : Global.checkAll Γ gs = .ok (gs',Δ)) :
    (gs'.map (·.name)).Nodup ∧ ∀ g ∈ gs', Γ.current.findVariable g.name = none := by
  induction gs generalizing gs' Γ with
  | nil =>
    obtain ⟨rfl,_⟩ := Global.checkAll_nil.mp h
    exact ⟨List.nodup_nil,nofun⟩
  | cons g gs ih =>
    obtain ⟨g',Θ,hs,hg,hgs,rfl⟩ := Global.checkAll_cons.mp h
    obtain ⟨value,t,_,hd,rfl⟩ := Global.check_eq_ok.mp hg
    obtain ⟨hn,rfl⟩ := Context.defineVariable_eq_ok.mp hd
    obtain ⟨hnodup,hnew⟩ := ih hgs
    have hother (k : Global) (hk : k ∈ hs) :
        g.name ≠ k.name ∧ Γ.current.findVariable k.name = none := by
      have := hnew k hk
      simp only [Frame.findVariable,List.find?_cons] at this
      split at this
      · cases this
      · next hne => exact ⟨by simpa using hne,this⟩
    refine ⟨?_,List.forall_mem_cons.mpr ⟨hn,fun k hk => (hother k hk).2⟩⟩
    rw [List.map_cons,List.nodup_cons]
    refine ⟨fun hm => ?_,hnodup⟩
    obtain ⟨k,hk,he⟩ := List.mem_map.mp hm
    exact (hother k hk).1 he.symm

namespace Script

/-- A list that no statement assigns to as a whole keeps its size: at every moment of a run of a
checked text it holds, from its definition on, as many elements as its initial value has. -/
theorem run_keeps_size {source : String} {p : Program} (h : check source = .ok p) {g : Global}
    (hg : g ∈ p.globals) {es : List Expr} {slot : Option Ty} (hv : g.value = some (.list es slot))
    (hf : ∀ f ∈ p.functions, g.name ∉ Stmt.blockOverwritten f.body) (fuel : Nat) (sink : Sink) :
    ∀ m ∈ p.moments fuel sink, ∀ b,
      m.machine.environment.lookupVariable Environment.root g.name = .ok b →
        ∃ vs, b.value = .list vs ∧ vs.length = es.length := by
  obtain ⟨q,_,hc⟩ := check_eq_ok h
  obtain ⟨_,gs,Γ,fs,Δ,fs',hgs,_,_,rfl⟩ := Program.check_eq_ok.mp hc
  have hnames := (Global.names_of_checkAll hgs).1
  have hsame : ∀ k ∈ gs, k.name = g.name → ∃ es' slot', k.value = some (.list es' slot') ∧
      es'.length = es.length := by
    intro k hk hkn
    obtain rfl := List.inj_on_of_nodup_map hnames hk hg hkn
    exact ⟨es,slot,hv,rfl⟩
  intro m hm b hb
  have hs := Program.moments_sized ⟨gs,fs'⟩ hsame hf fuel sink m hm
  obtain ⟨s,hroot⟩ : ∃ s, m.machine.environment.scopes[Environment.root]? = some s :=
    ⟨_,List.getElem?_eq_getElem hs.depth⟩
  rw [Environment.lookupVariable_eq_ok,Environment.chain_root hroot] at hb
  exact hs.list s b hroot (by simpa using hb)

/-- An element is stored, and the list stays one of two elements. -/
theorem run_keeps_size_stored : ∃ p g es slot,
    check "LIST a: Integer = [1, 2]; FUN main(): Integer DO a[0] = 5; RETURN a[0]; END" = .ok p ∧
    g ∈ p.globals ∧ g.value = some (.list es slot) ∧
    (∀ f ∈ p.functions, g.name ∉ Stmt.blockOverwritten f.body) ∧
    ∀ m ∈ p.moments 2 (.new none true), ∀ b,
      m.machine.environment.lookupVariable Environment.root g.name = .ok b →
        ∃ vs, b.value = .list vs ∧ vs.length = es.length := by
  obtain ⟨p,hp,ht⟩ : ∃ p,
      check "LIST a: Integer = [1, 2]; FUN main(): Integer DO a[0] = 5; RETURN a[0]; END" = .ok p ∧
      (p.globals.any fun g => g.value.any Expr.isList && p.functions.all fun f =>
        g.name ∉ Stmt.blockOverwritten f.body) = true := exists_check (by decide +kernel)
  simp only [List.any_eq_true,Bool.and_eq_true,List.all_eq_true,decide_eq_true_eq] at ht
  obtain ⟨g,hg,hl,hf⟩ := ht
  obtain ⟨es,slot,hv⟩ : ∃ es slot, g.value = some (.list es slot) := by
    cases hv : g.value with
    | none => rw [hv] at hl; cases hl
    | some e =>
      rw [hv] at hl
      cases e with
      | list es slot => exact ⟨es,slot,rfl⟩
      | _ => cases hl
  exact ⟨p,g,es,slot,hp,hg,hv,hf,run_keeps_size hp hg hv hf 2 (.new none true)⟩

/-- Whether a list global holds at a moment a list of another size than its initial value. -/
def isResized (g : Global) (m : Moment) : Bool :=
  match g.value,m.machine.environment.lookupVariable Environment.root g.name with
  | some (.list es _),.ok ⟨_,.list vs,_⟩ => vs.length != es.length
  | _,_ => false

lemma of_isResized {g : Global} {m : Moment} (h : isResized g m = true) :
    ∃ es slot b vs, g.value = some (.list es slot) ∧
      m.machine.environment.lookupVariable Environment.root g.name = .ok b ∧ b.value = .list vs ∧
      vs.length ≠ es.length := by
  unfold isResized at h
  split at h
  · next hv hb => exact ⟨_,_,_,_,hv,hb,rfl,by simpa using h⟩
  · cases h

/-- A list of one element is assigned to a list of three. -/
theorem run_resizes_list : ∃ p, check ("LIST a: Integer = [1, 2, 3]; LIST b: Integer = [1]; " ++
      "FUN main(): Integer DO a = b; RETURN a[3]; END") = .ok p ∧
    ∃ g ∈ p.globals, ∃ m ∈ p.moments 2 (.new none true), ∃ es slot b vs,
      g.value = some (.list es slot) ∧
      m.machine.environment.lookupVariable Environment.root g.name = .ok b ∧ b.value = .list vs ∧
      vs.length ≠ es.length := by
  obtain ⟨p,hp,ht⟩ : ∃ p, check ("LIST a: Integer = [1, 2, 3]; LIST b: Integer = [1]; " ++
      "FUN main(): Integer DO a = b; RETURN a[3]; END") = .ok p ∧
      (p.globals.any fun g => (p.moments 2 (.new none true)).any (isResized g)) = true :=
    exists_check (by decide +kernel)
  obtain ⟨g,hg,ht⟩ := List.any_eq_true.mp ht
  obtain ⟨m,hm,ht⟩ := List.any_eq_true.mp ht
  exact ⟨p,hp,g,hg,m,hm,of_isResized ht⟩

end Script
end BlockScript
