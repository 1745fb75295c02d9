import BlockScript.Execution.Machine
import BlockScript.Proofs.Scopes.Related
import BlockScript.Proofs.Soundness.Value
import BlockScript.Typing.Program
import Mathlib.Data.List.Nodup
/-! The names in scope while a program runs beside their declarations: the invariant of a run, and
the changes of the scopes that keep it. -/
namespace BlockScript

mutual
/-- Whether a statement returns whenever it completes. -/
def Stmt.returns : Stmt → Bool
  | .ret _ => true
  | .ifElse _ thenBlock elseBlock => Stmt.blockReturns thenBlock && Stmt.blockReturns elseBlock
  | .switch _ cases => Case.allReturn cases
  | _ => false

/-- A block returns if one of its statements does. -/
def Stmt.blockReturns : List Stmt → Bool
  | [] => false
  | s :: ss => s.returns || Stmt.blockReturns ss

def Case.allReturn : List Case → Bool
  | [] => true
  | .mk _ body :: cs => Stmt.blockReturns body && Case.allReturn cs
end

mutual
/-- Whether every declaration in a statement has an initial value. -/
def Stmt.initialised : Stmt → Bool
  | .declaration _ _ value _ => value.isSome
  | .ifElse _ thenBlock elseBlock =>
    Stmt.blockInitialised thenBlock && Stmt.blockInitialised elseBlock
  | .switch _ cases => Case.allInitialised cases
  | .loop _ body => Stmt.blockInitialised body
  | _ => true

def Stmt.blockInitialised : List Stmt → Bool
  | [] => true
  | s :: ss => s.initialised && Stmt.blockInitialised ss

def Case.allInitialised : List Case → Bool
  | [] => true
  | .mk _ body :: cs => Stmt.blockInitialised body && Case.allInitialised cs
end

/-- A variable of a run beside its declaration. -/
structure Binding.Holds (blank : Bool) (b : Binding Value) (d : Binding Ty) : Prop where
  name : b.name = d.name
  mutable : b.mutable = d.mutable
  value : d.value.Fits blank b.value

/-- A function whose body was checked among the names of a frame. Where no blanks are allowed, its
variables have initial values and it cannot end without one. -/
structure Function.Sound (blank : Bool) (names : Frame Ty Signature) (f : Function)
    (s : Signature) : Prop where
  checked : ∃ g : Function, g.check (.ofFrame names) s = .ok f
  arity : f.parameters.length = s.parameters.length
  initialised : blank = false → Stmt.blockInitialised f.body = true
  returns : blank = false → s.result = .nil ∨ s.result = .any ∨ Stmt.blockReturns f.body = true

/-- What a function name stands for beside its signature. Functions are declared in the root scope,
after all globals; until then it has no final frame. -/
def Callable.Holds (blank : Bool) (names : Option (Frame Ty Signature)) (c : Callable)
    (s : Signature) : Prop :=
  match c with
  | print => s = ⟨[.any],.nil⟩
  | declared f home => home = Environment.root ∧ ∃ frame, names = some frame ∧ f.Sound blank frame s

structure Entry.Holds (blank : Bool) (names : Option (Frame Ty Signature)) (e : Entry Callable)
    (d : Entry Signature) : Prop where
  name : e.name = d.name
  arity : e.arity = d.arity
  parameters : d.arity = d.value.parameters.length
  value : e.value.Holds blank names d.value

structure Frame.Holds (blank : Bool) (names : Option (Frame Ty Signature)) (f : Frame Value Callable)
    (d : Frame Ty Signature) : Prop where
  bindings : List.Forall₂ (Binding.Holds blank) f.bindings d.bindings
  functions : List.Forall₂ (Entry.Holds blank names) f.functions d.functions
  distinct : (d.bindings.map (·.name)).Nodup

/-- All scopes of a run beside those of its declarations. -/
structure Environment.Typed (blank : Bool) (names : Option (Frame Ty Signature))
    (env : Environment Value Callable) (decls : Environment Ty Signature) : Prop where
  scopes : env.Related (Frame.Holds blank names) decls
  home : ∀ frame, names = some frame → decls.chain Environment.root = [frame]

section
variable {blank : Bool} {names : Option (Frame Ty Signature)} {f : Frame Value Callable}
  {d : Frame Ty Signature}

namespace Frame.Holds

lemma empty : Holds blank names .empty .empty := ⟨.nil,.nil,.nil⟩

lemma findVariable (h : Holds blank names f d) (x : String) :
    Option.Rel (Binding.Holds blank) (f.findVariable x) (d.findVariable x) := by
  have hb := h.bindings
  unfold Frame.findVariable
  generalize f.bindings = bs at hb
  generalize d.bindings = ds at hb
  induction hb with
  | nil => exact .none
  | @cons b e bs es hb _ ih =>
    simp only [List.find?_cons,hb.name]
    split
    · exact .some hb
    · exact ih

lemma findFunction (h : Holds blank names f d) (x : String) (arity : Nat) :
    Option.Rel (fun c s => c.Holds blank names s ∧ s.parameters.length = arity)
      (f.findFunction x arity) (d.findFunction x arity) := by
  have hb := h.functions
  unfold Frame.findFunction
  generalize f.functions = bs at hb
  generalize d.functions = ds at hb
  induction hb with
  | nil => exact .none
  | @cons b e bs es hb _ ih =>
    simp only [List.find?_cons,hb.name,hb.arity]
    split
    · next he =>
      simp only [Bool.and_eq_true,beq_iff_eq] at he
      exact .some ⟨hb.value,hb.parameters.symm.trans he.2⟩
    · exact ih

/-- A new name in front. -/
lemma define (h : Holds blank names f d) {b : Binding Value} {e : Binding Ty}
    (hb : b.Holds blank e) (hn : d.findVariable e.name = none) :
    Holds blank names { f with bindings := b :: f.bindings }
      { d with bindings := e :: d.bindings } := by
  refine ⟨.cons hb h.bindings,h.functions,?_⟩
  refine List.nodup_cons.mpr ⟨?_,h.distinct⟩
  intro hm
  obtain ⟨c,hc,hname⟩ := List.mem_map.mp hm
  have := List.find?_eq_none.mp hn c hc
  simp [hname] at this

lemma declare (h : Holds blank names f d) {e : Entry Callable} {s : Entry Signature}
    (he : e.Holds blank names s) :
    Holds blank names { f with functions := e :: f.functions }
      { d with functions := s :: d.functions } :=
  ⟨h.bindings,.cons he h.functions,h.distinct⟩

/-- Before any function is declared there are only functions from outside. -/
lemma of_none (h : Holds blank none f d) : Holds blank names f d := by
  refine ⟨h.bindings,h.functions.imp fun e s he => ⟨he.name,he.arity,he.parameters,?_⟩,h.distinct⟩
  have hv := he.value
  cases hc : e.value with
  | print => rw [hc] at hv; exact hv
  | declared g home =>
    rw [hc] at hv
    obtain ⟨_,_,h,_⟩ := hv
    cases h

/-- A new value of a bound name; only the binding that a lookup finds has the name. -/
lemma write (h : Holds blank names f d) {x : String} {e : Binding Ty} {v : Value}
    (he : d.findVariable x = some e) (hv : e.value.Fits blank v) :
    Holds blank names (f.writeVariable x v) d := by
  refine ⟨?_,h.functions,h.distinct⟩
  have hmem : e ∈ d.bindings := List.mem_of_find?_eq_some he
  have hx : e.name = x := by simpa using List.find?_some he
  have honly : ∀ c ∈ d.bindings, c.name = x → c = e := fun c hc hn =>
    List.inj_on_of_nodup_map h.distinct hc hmem (hn.trans hx.symm)
  have hb := h.bindings
  unfold Frame.writeVariable
  dsimp only
  generalize f.bindings = bs at hb
  generalize d.bindings = ds at hb honly
  induction hb with
  | nil => exact .nil
  | @cons b c bs cs hbc _ ih =>
    refine .cons ?_ (ih fun c hc => honly c (List.mem_cons_of_mem _ hc))
    by_cases hn : b.name = x
    · have hce := honly c List.mem_cons_self (hbc.name.symm.trans hn)
      subst hce
      simp only [hn,beq_self_eq_true,↓reduceIte]
      exact ⟨hn.symm.trans hbc.name,hbc.mutable,hv⟩
    · simpa [hn] using hbc

end Frame.Holds

/-- A declared function stands in front in the root scope on both sides. -/
lemma Environment.Related.defineFunction {env : Environment Value Callable}
    (h : env.Related (Frame.Holds blank names) (.ofRoot d)) {x : String} {arity : Nat} {c : Callable}
    {s : Signature} (he : Entry.Holds blank names ⟨x,arity,c⟩ ⟨x,arity,s⟩)
    (hn : d.findFunction x arity = none) :
    ∃ env', env.defineFunction root x arity c = .ok env' ∧
      env'.Related (Frame.Holds blank names)
        (.ofRoot { d with functions := ⟨x,arity,s⟩ :: d.functions }) := by
  obtain ⟨t,ht,_,hf⟩ := h.of_getElem? (i := root) (t := ⟨none,d⟩) rfl
  have hfree : t.frame.findFunction x arity = none := by
    have hr := hf.findFunction x arity
    rw [show Frame.findFunction _ x arity = none from hn] at hr
    generalize t.frame.findFunction x arity = a at hr
    cases hr
    rfl
  refine ⟨_,?_,h.setFrame_setFrame root (hf.declare he)⟩
  simp [Environment.defineFunction,updateFrame,ht,Frame.defineFunction,hfree,Except.map]

namespace Environment.Typed
variable {env : Environment Value Callable} {decls : Environment Ty Signature} {scope : Nat}

/-- A declared name has a binding, in the same scope as its declaration. -/
lemma search (h : Typed blank names env decls) {x : String} {owner : Nat} {d : Binding Ty}
    (hd : decls.search (·.findVariable x) scope = some (owner,d)) :
    ∃ b, env.search (·.findVariable x) scope = some (owner,b) ∧ b.Holds blank d := by
  have hs := h.scopes.search (fun _ _ hf => hf.findVariable x) scope
  rw [hd] at hs
  generalize env.search (·.findVariable x) scope = a at hs
  obtain _ | ⟨o,b⟩ := a
  · cases hs
  · cases hs with
    | some hb => obtain ⟨rfl,hb⟩ := hb; exact ⟨b,rfl,hb⟩

lemma lookupVariable (h : Typed blank names env decls) {x : String} {d : Binding Ty}
    (hd : decls.lookupVariable scope x = .ok d) :
    ∃ b, env.lookupVariable scope x = .ok b ∧ b.Holds blank d := by
  rw [lookupVariable_eq_ok,← search_eq_chain,Option.map_eq_some_iff] at hd
  obtain ⟨⟨owner,d⟩,hs,rfl⟩ := hd
  obtain ⟨b,hb,hh⟩ := h.search hs
  refine ⟨b,?_,hh⟩
  rw [lookupVariable_eq_ok,← search_eq_chain,hb]
  rfl

/-- A name that a run finds was declared. -/
lemma declared_of_lookup (h : Typed blank names env decls) {x : String} {b : Binding Value}
    (hb : env.lookupVariable scope x = .ok b) :
    ∃ d, decls.lookupVariable scope x = .ok d ∧ b.Holds blank d := by
  rw [lookupVariable_eq_ok,← search_eq_chain,Option.map_eq_some_iff] at hb
  obtain ⟨⟨owner,b⟩,hb,rfl⟩ := hb
  have hs := h.scopes.search (fun _ _ hf => hf.findVariable x) scope
  rw [hb] at hs
  cases hd : decls.search (·.findVariable x) scope with
  | none => rw [hd] at hs; cases hs
  | some e =>
    rw [hd] at hs
    cases hs with
    | some he =>
      refine ⟨e.2,?_,he.2⟩
      rw [lookupVariable_eq_ok,← search_eq_chain,hd]
      rfl

lemma lookupFunction (h : Typed blank names env decls) {x : String} {arity : Nat} {s : Signature}
    (hs : decls.lookupFunction scope x arity = .ok s) :
    ∃ c, env.lookupFunction scope x arity = .ok c ∧ c.Holds blank names s ∧
      s.parameters.length = arity := by
  rw [lookupFunction_eq_ok,← search_eq_chain,Option.map_eq_some_iff] at hs
  obtain ⟨⟨owner,s⟩,hs,rfl⟩ := hs
  have hr := h.scopes.search (fun _ _ hf => hf.findFunction x arity) scope
  rw [hs] at hr
  cases hc : env.search (·.findFunction x arity) scope with
  | none => rw [hc] at hr; cases hr
  | some c =>
    rw [hc] at hr
    cases hr with
    | some hh =>
      refine ⟨c.2,?_,hh.2⟩
      rw [lookupFunction_eq_ok,← search_eq_chain,hc]
      rfl

lemma home_setFrame (h : Typed blank names env decls) (hs : names = none ∨ 0 < scope)
    (frame : Frame Ty Signature) :
    ∀ n, names = some n → (decls.setFrame scope frame).chain root = [n] := by
  intro n hn
  rcases hs with hs | hs
  · rw [hs] at hn; cases hn
  · rw [← h.home n hn]
    refine (chain_congr root fun i hi => ?_).symm
    simp only [setFrame,List.getElem?_modify]
    simp [show scope ≠ i by simp only [root] at hi; omega]

/-- A declaration puts its name in front on both sides. -/
theorem define (h : Typed blank names env decls) (hs : names = none ∨ 0 < scope)
    {frame : Frame Ty Signature} {frames : List (Frame Ty Signature)}
    (hc : decls.chain scope = frame :: frames) {b : Binding Value} {d : Binding Ty}
    (hb : b.Holds blank d) (hn : frame.findVariable d.name = none) :
    ∃ env', env.defineVariable scope b = .ok env' ∧
      Typed blank names env' (decls.setFrame scope { frame with bindings := d :: frame.bindings }) := by
  obtain ⟨t,ht,rfl⟩ := getElem?_of_chain hc
  obtain ⟨s,hs',-,hf⟩ := h.scopes.of_getElem? ht
  have hfind : s.frame.findVariable b.name = none := by
    have hr := hf.findVariable b.name
    rw [hb.name,hn] at hr
    rw [hb.name]
    generalize s.frame.findVariable d.name = a at hr
    cases hr
    rfl
  refine ⟨env.setFrame scope { s.frame with bindings := b :: s.frame.bindings },?_,?_⟩
  · simp [defineVariable,updateFrame,hs',Frame.defineVariable,hfind,Except.map]
  · exact ⟨h.scopes.setFrame_setFrame scope (hf.define hb hn),h.home_setFrame hs _⟩

/-- A value that fits a declared variable may be stored in it. -/
theorem write (h : Typed blank names env decls) {x : String} {d : Binding Ty} {v : Value}
    (hd : decls.lookupVariable scope x = .ok d) (hv : d.value.Fits blank v) :
    ∃ env', env.writeVariable scope x v = .ok env' ∧ Typed blank names env' decls := by
  rw [lookupVariable_eq_ok,← search_eq_chain,Option.map_eq_some_iff] at hd
  obtain ⟨⟨owner,d⟩,hs,rfl⟩ := hd
  obtain ⟨b,hb,_⟩ := h.search hs
  obtain ⟨t,ht,htf⟩ := search_eq_some hs
  obtain ⟨s,hs',hp,hf⟩ := h.scopes.of_getElem? ht
  refine ⟨env.setFrame owner (s.frame.writeVariable x v),?_,?_⟩
  · unfold writeVariable
    rw [lookup_eq_ok.mpr hb]
    simp [bind,Except.bind,updateFrame,hs',Except.map]
  · exact ⟨h.scopes.setFrame_left ht (hf.write htf hv),h.home⟩

lemma inner (h : Typed blank names env decls) (parent : Nat) :
    Typed blank names (env.inner parent) (decls.inner parent) := by
  refine ⟨h.scopes.inner .empty parent,fun frame hn => ?_⟩
  have hroot : decls.isOpen root := isOpen_of_chain (h.home frame hn)
  rw [chain_inner_of_isOpen hroot,h.home frame hn]

/-- What a closed scope held is forgotten on both sides. -/
lemma pop (h : Typed blank names env decls) {env' : Environment Value Callable} (parent : Nat)
    (ho : decls.isOpen parent) {frame : Frame Ty Signature}
    (h' : Typed blank names env' ((decls.inner parent).setFrame decls.depth frame)) :
    Typed blank names (env'.pop decls.depth) decls := by
  have hd : 0 < decls.depth := by
    have := isOpen_iff.mp ho
    exact Nat.lt_of_le_of_lt (Nat.zero_le _) this
  refine ⟨?_,h.home⟩
  have hp := h'.scopes.pop decls.depth
  rwa [pop_setFrame_inner _ _ _ hd] at hp

end Environment.Typed
end
end BlockScript
