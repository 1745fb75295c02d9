import BlockScript.Proofs.Blocks.Exchange
/-! A return ends the call it stands in and nothing else. What follows it in its block is never run, and
every block and loop around it hands its value on to the call. -/
namespace BlockScript

section
variable {call : Caller} {rounds scope : Nat}

/-- The first arm that is taken for a value, with the machine in which its body begins. -/
inductive Case.Selects (call : Caller) (scope : Nat) (v : Value) :
    List Case → Machine → List Stmt → Machine → Prop
  | taken {value body cs m m'} (h : Case.isTaken call scope v value m = .ok true m') :
      Selects call scope v (.mk value body :: cs) m body m'
  | skipped {value body cs m m₁ chosen m'} (h : Case.isTaken call scope v value m = .ok false m₁)
      (hs : Selects call scope v cs m₁ chosen m') :
      Selects call scope v (.mk value body :: cs) m chosen m'

/-- Whole rounds of a loop, each to its end. -/
inductive Stmt.Rounds (call : Caller) (rounds scope : Nat) (c : Expr) (body : List Stmt) :
    Nat → Machine → Machine → Prop
  | none (m : Machine) : Rounds call rounds scope c body 0 m m
  | more {n m m₁ m₂ m'} (hc : c.evaluateBoolean call scope m = .ok true m₁)
      (hb : Run.inChild scope (fun inner => Stmt.executeBlock call rounds inner body) m₁ =
        .ok .normal m₂)
      (h : Rounds call rounds scope c body n m₂ m') : Rounds call rounds scope c body (n + 1) m m'

/-- A statement comes to run one of its blocks in a child of its scope: a branch, an arm, or the body
of a loop after some rounds. -/
inductive Stmt.Enters (call : Caller) (rounds scope : Nat) :
    Stmt → Machine → List Stmt → Machine → Prop
  | thenBlock {c thenBlock elseBlock m m'} (h : c.evaluateBoolean call scope m = .ok true m') :
      Enters call rounds scope (.ifElse c thenBlock elseBlock) m thenBlock m'
  | elseBlock {c thenBlock elseBlock m m'} (h : c.evaluateBoolean call scope m = .ok false m') :
      Enters call rounds scope (.ifElse c thenBlock elseBlock) m elseBlock m'
  | arm {c cs m v m₁ body m'} (h : c.evaluate call scope m = .ok v m₁)
      (hs : Case.Selects call scope v cs m₁ body m') : Enters call rounds scope (.switch c cs) m body m'
  | round {c body n m m₁ m'} (hn : n < rounds) (hr : Stmt.Rounds call rounds scope c body n m m₁)
      (hc : c.evaluateBoolean call scope m₁ = .ok true m') :
      Enters call rounds scope (.loop c body) m body m'

/-- A block arrives at a return of its own: of the block, or of a block in it that is entered. The
expression of the return is about to be evaluated in a scope and a machine. -/
inductive Stmt.Arrives (call : Caller) (rounds : Nat) :
    Nat → List Stmt → Machine → Nat → Expr → Machine → Prop
  | ret {scope e ss m} : Arrives call rounds scope (.ret e :: ss) m scope e m
  | next {scope s ss m m₁ inner e m'} (h : s.execute call rounds scope m = .ok .normal m₁)
      (ha : Arrives call rounds scope ss m₁ inner e m') : Arrives call rounds scope (s :: ss) m inner e m'
  | within {scope s ss m body m₁ inner e m'} (h : Stmt.Enters call rounds scope s m body m₁)
      (ha : Arrives call rounds m₁.environment.depth body
        { m₁ with environment := m₁.environment.inner scope } inner e m') :
      Arrives call rounds scope (s :: ss) m inner e m'

open Run

lemma Case.Selects.executeFirst {v : Value} {cs : List Case} {m m' : Machine} {body : List Stmt}
    (h : Selects call scope v cs m body m') : Case.executeFirst call rounds scope v cs m =
      inChild scope (fun inner => Stmt.executeBlock call rounds inner body) m' := by
  induction h with
  | taken h => rw [Case.executeFirst,bind_ok h,if_pos rfl]
  | skipped h _ ih =>
    rw [Case.executeFirst,bind_ok h,if_neg Bool.false_ne_true]
    exact ih

/-- Whole rounds only use up the bound of a loop. -/
lemma Stmt.Rounds.repeatWhile {c : Expr} {body : List Stmt} {n : Nat} {m m' : Machine}
    (h : Rounds call rounds scope c body n m m') (k : Nat) :
    Run.repeatWhile (c.evaluateBoolean call scope)
      (inChild scope fun inner => executeBlock call rounds inner body) (n + k) m =
    Run.repeatWhile (c.evaluateBoolean call scope)
      (inChild scope fun inner => executeBlock call rounds inner body) k m' := by
  induction h with
  | none m => rw [Nat.zero_add]
  | @more n m m₁ m₂ m' hc hb _ ih =>
    rw [Nat.add_right_comm,Run.repeatWhile,bind_ok hc,if_pos rfl,bind_ok hb]
    exact ih

/-- A statement ends with the value that a block of it returns. -/
lemma Stmt.Enters.execute_returned {s : Stmt} {m m' n : Machine} {body : List Stmt} {v : Value}
    (h : Enters call rounds scope s m body m')
    (hb : inChild scope (fun inner => executeBlock call rounds inner body) m' = .ok (.returned v) n) :
    s.execute call rounds scope m = .ok (.returned v) n := by
  cases h with
  | thenBlock h =>
    rw [execute,bind_ok h,if_pos rfl]
    exact hb
  | elseBlock h =>
    rw [execute,bind_ok h,if_neg Bool.false_ne_true]
    exact hb
  | arm h hs =>
    rw [execute,bind_ok h,hs.executeFirst]
    exact hb
  | @round c body k _ m₁ _ hn hr hc =>
    obtain ⟨j,hj⟩ := Nat.exists_eq_add_of_lt hn
    have hrun := hr.repeatWhile (j + 1)
    rw [← Nat.add_assoc,← hj,Run.repeatWhile,bind_ok hc,if_pos rfl,bind_ok hb] at hrun
    rw [execute]
    exact hrun

lemma Case.exists_selects {v w : Value} {cs : List Case} {m n : Machine}
    (h : Case.executeFirst call rounds scope v cs m = .ok (.returned w) n) :
    ∃ body m', Selects call scope v cs m body m' ∧
      inChild scope (fun inner => Stmt.executeBlock call rounds inner body) m' = .ok (.returned w) n := by
  induction cs generalizing m with
  | nil => cases h
  | cons c cs ih =>
    obtain ⟨value,body⟩ := c
    rw [Case.executeFirst] at h
    obtain ⟨taken,m',ht,h⟩ := bind_eq_ok.mp h
    cases taken with
    | true => exact ⟨body,m',.taken ht,h⟩
    | false =>
      obtain ⟨chosen,m₁,hs,h⟩ := ih h
      exact ⟨chosen,m₁,.skipped ht hs,h⟩

lemma Stmt.exists_rounds {c : Expr} {body : List Stmt} {k : Nat} {m n : Machine} {v : Value}
    (h : Run.repeatWhile (c.evaluateBoolean call scope)
      (inChild scope fun inner => executeBlock call rounds inner body) k m = .ok (.returned v) n) :
    ∃ j m₁ m', j < k ∧ Rounds call rounds scope c body j m m₁ ∧
      c.evaluateBoolean call scope m₁ = .ok true m' ∧
      inChild scope (fun inner => executeBlock call rounds inner body) m' = .ok (.returned v) n := by
  induction k generalizing m with
  | zero => cases h
  | succ k ih =>
    rw [Run.repeatWhile] at h
    obtain ⟨go,m',hc,h⟩ := bind_eq_ok.mp h
    cases go with
    | false => cases h
    | true =>
      obtain ⟨completion,m₂,hb,h⟩ := bind_eq_ok.mp h
      cases completion with
      | returned w =>
        cases h
        exact ⟨0,m,m',k.succ_pos,.none m,hc,hb⟩
      | normal =>
        obtain ⟨j,m₁,m₃,hj,hr,hc',hb'⟩ := ih h
        exact ⟨j + 1,m₁,m₃,Nat.succ_lt_succ hj,.more hc hb hr,hc',hb'⟩

/-- A statement that ends with a value is a return, or enters a block that returns the value. -/
lemma Stmt.eq_ret_or_exists_enters {s : Stmt} {m n : Machine} {v : Value}
    (h : s.execute call rounds scope m = .ok (.returned v) n) :
    (∃ e, s = .ret e ∧ e.evaluate call scope m = .ok v n) ∨
    ∃ body m', Enters call rounds scope s m body m' ∧
      inChild scope (fun inner => executeBlock call rounds inner body) m' = .ok (.returned v) n := by
  cases s with
  | expression e =>
    rw [execute] at h
    obtain ⟨_,_,_,h⟩ := bind_eq_ok.mp h
    cases h
  | declaration x typeName value slot =>
    rw [execute] at h
    obtain ⟨_,_,_,h⟩ := bind_eq_ok.mp h
    obtain ⟨_,_,_,h⟩ := bind_eq_ok.mp h
    cases h
  | assignment receiver e =>
    cases receiver with
    | ref =>
      rw [execute] at h
      obtain ⟨_,_,_,h⟩ := bind_eq_ok.mp h
      obtain ⟨_,_,_,h⟩ := bind_eq_ok.mp h
      cases h
    | element =>
      rw [execute] at h
      obtain ⟨_,_,_,h⟩ := bind_eq_ok.mp h
      obtain ⟨_,_,_,h⟩ := bind_eq_ok.mp h
      obtain ⟨_,_,_,h⟩ := bind_eq_ok.mp h
      cases h
    | _ => cases h
  | ifElse c thenBlock elseBlock =>
    rw [execute] at h
    obtain ⟨go,m',hc,h⟩ := bind_eq_ok.mp h
    cases go with
    | true => exact .inr ⟨thenBlock,m',.thenBlock hc,h⟩
    | false => exact .inr ⟨elseBlock,m',.elseBlock hc,h⟩
  | switch c cs =>
    rw [execute] at h
    obtain ⟨w,m₁,hc,h⟩ := bind_eq_ok.mp h
    obtain ⟨body,m',hs,h⟩ := Case.exists_selects h
    exact .inr ⟨body,m',.arm hc hs,h⟩
  | loop c body =>
    rw [execute] at h
    obtain ⟨j,m₁,m',hj,hr,hc,h⟩ := exists_rounds h
    exact .inr ⟨body,m',.round hj hr hc,h⟩
  | ret e =>
    rw [execute] at h
    obtain ⟨w,m',he,h⟩ := bind_eq_ok.mp h
    cases h
    exact .inl ⟨e,rfl,he⟩

end

namespace Environment
variable {α β : Type} {env : Environment α β} {d : Nat}

lemma pop_depth (h : env.depth = d) : env.pop d = env := by
  subst h
  exact congrArg Environment.mk (List.take_of_length_le (Nat.le_max_left _ _))

lemma pop_pop_succ : (env.pop (d + 1)).pop d = env.pop d := by
  simp only [pop,List.take_take]
  congr 2
  omega

lemma depth_inner (parent : Nat) : (env.inner parent).depth = env.depth + 1 := by
  simp [inner,depth]

end Environment

/-- A later state of a scope that is open, with as many scopes as before. -/
structure Machine.Continues (scope : Nat) (m m' : Machine) : Prop where
  reachable : m'.Reachable
  isOpen : m'.environment.isOpen scope = true
  depth_eq : m'.environment.depth = m.environment.depth

lemma Machine.Continues.trans {scope : Nat} {m m' n : Machine} (h : m.Continues scope m')
    (h' : m'.Continues scope n) : m.Continues scope n :=
  ⟨h'.reachable,h'.isOpen,h'.depth_eq.trans h.depth_eq⟩

lemma Run.Keeps.continues {α : Type} {xs : List String} {scope : Nat} {m m' : Machine}
    {x : Nat → Run α} (hx : Keeps xs x) (hm : m.Reachable) (ho : m.environment.isOpen scope) {a : α}
    (hr : x scope m = .ok a m') : m.Continues scope m' := by
  have hg : m.environment.Grows scope xs m'.environment := hx.grows hm ho hr
  exact ⟨hx.reachable hm ho hr,(hg.isOpen scope).trans ho,hg.depth_eq⟩

section
variable {fuel rounds scope : Nat} {m m' n : Machine} {body : List Stmt}
open Run

lemma Case.Selects.continues {v : Value} {cs : List Case}
    (h : Selects (Run.call fuel) scope v cs m body m') (hm : m.Reachable)
    (ho : m.environment.isOpen scope) : m.Continues scope m' := by
  have hkeeps (value : Option Expr) := keeps_rules.isTaken (keeps_rules.calls fuel) v value
  induction h with
  | taken h => exact (hkeeps _).continues hm ho h
  | skipped h _ ih =>
    have h₁ := (hkeeps _).continues hm ho h
    exact h₁.trans (ih h₁.reachable h₁.isOpen)

lemma Stmt.Rounds.continues {c : Expr} {k : Nat}
    (h : Rounds (Run.call fuel) rounds scope c body k m m') (hm : m.Reachable)
    (ho : m.environment.isOpen scope) : m.Continues scope m' := by
  have hcalls := keeps_rules.calls fuel
  have hround := keeps_rules.child (keeps_rules.executeBlock hcalls rounds body)
  induction h with
  | none m => exact ⟨hm,ho,rfl⟩
  | more hc hb _ ih =>
    have h₁ := (keeps_rules.evaluateBoolean hcalls c).continues hm ho hc
    have h₂ := h₁.trans (hround.continues h₁.reachable h₁.isOpen hb)
    exact h₂.trans (ih h₂.reachable h₂.isOpen)

lemma Stmt.Enters.continues {s : Stmt} (h : Enters (Run.call fuel) rounds scope s m body m')
    (hm : m.Reachable) (ho : m.environment.isOpen scope) : m.Continues scope m' := by
  have hcalls := keeps_rules.calls fuel
  cases h with
  | thenBlock h | elseBlock h => exact (keeps_rules.evaluateBoolean hcalls _).continues hm ho h
  | arm h hs =>
    have h₁ := (keeps_rules.evaluate hcalls _).continues hm ho h
    exact h₁.trans (hs.continues h₁.reachable h₁.isOpen)
  | round _ hr hc =>
    have h₁ := hr.continues hm ho
    exact h₁.trans ((keeps_rules.evaluateBoolean hcalls _).continues h₁.reachable h₁.isOpen hc)

/-- The machine in which a block of a statement begins, in a child of the statement's scope. -/
lemma Machine.Continues.opened (h : m.Continues scope m') :
    Machine.Reachable { m' with environment := m'.environment.inner scope } ∧
    (m'.environment.inner scope).isOpen m'.environment.depth = true :=
  ⟨h.reachable.opened h.isOpen,Environment.isOpen_inner_depth _ _⟩

/-- A block that arrives at a return ends with its value, in the machine in which the value was found
but for the scopes that were opened on the way, which are closed. -/
lemma Stmt.Arrives.executeBlock {ss : List Stmt} {inner : Nat} {e : Expr} {v : Value}
    (h : Arrives (Run.call fuel) rounds scope ss m inner e m') (hm : m.Reachable)
    (ho : m.environment.isOpen scope) (he : e.evaluate (Run.call fuel) inner m' = .ok v n) :
    Stmt.executeBlock (Run.call fuel) rounds scope ss m =
      .ok (.returned v) { n with environment := n.environment.pop m.environment.depth } := by
  have hcalls := keeps_rules.calls fuel
  induction h with
  | @ret scope e ss m =>
    have hn := (keeps_rules.evaluate hcalls e).continues hm ho he
    rw [Environment.pop_depth hn.depth_eq]
    rw [Stmt.executeBlock,Stmt.execute,bind_assoc,bind_ok he]
    rfl
  | @next scope s ss m m₁ inner e m' hs _ ih =>
    have h₁ := (keeps_rules.execute hcalls rounds s).continues hm ho hs
    have hrest := ih h₁.reachable h₁.isOpen he
    rw [h₁.depth_eq] at hrest
    rw [Stmt.executeBlock,bind_ok hs]
    exact hrest
  | @within scope s ss m body m₁ inner e m' hs _ ih =>
    have h₁ := hs.continues hm ho
    obtain ⟨hm',ho'⟩ := h₁.opened
    have hbody := ih hm' ho' he
    have hchild : inChild scope (fun inner => Stmt.executeBlock (Run.call fuel) rounds inner body) m₁ =
        .ok (.returned v) { n with environment := n.environment.pop m.environment.depth } := by
      rw [inChild_eq h₁.isOpen,hbody,Environment.depth_inner,h₁.depth_eq]
      simp only [closing,Environment.pop_pop_succ]
    rw [Stmt.executeBlock,bind_ok (hs.execute_returned hchild)]
    rfl

/-- A statement enters a part of itself. -/
lemma Stmt.Enters.sizeOf_lt {call : Caller} {s : Stmt} (h : Enters call rounds scope s m body m') :
    sizeOf body < sizeOf s := by
  cases h with
  | thenBlock | elseBlock | round =>
    simp only [ifElse.sizeOf_spec,loop.sizeOf_spec]
    omega
  | @arm c cs _ v m₁ _ _ _ hs =>
    have harm : sizeOf body < sizeOf cs := by
      clear * - hs
      induction hs with
      | taken =>
        simp only [List.cons.sizeOf_spec,Case.mk.sizeOf_spec]
        omega
      | skipped _ _ ih =>
        simp only [List.cons.sizeOf_spec]
        omega
    simp only [switch.sizeOf_spec]
    omega

/-- A block that ends with a value arrives at a return of its own, which gives that value. -/
theorem Stmt.exists_arrives {scope : Nat} {m n : Machine} {ss : List Stmt} {v : Value}
    (hm : m.Reachable) (ho : m.environment.isOpen scope)
    (h : Stmt.executeBlock (Run.call fuel) rounds scope ss m = .ok (.returned v) n) :
    ∃ inner e m' n', Arrives (Run.call fuel) rounds scope ss m inner e m' ∧
      e.evaluate (Run.call fuel) inner m' = .ok v n' := by
  match ss with
  | [] => cases h
  | s :: ss =>
    rw [Stmt.executeBlock] at h
    obtain ⟨completion,m₁,hs,h⟩ := bind_eq_ok.mp h
    cases completion with
    | normal =>
      have h₁ := (keeps_rules.execute (keeps_rules.calls fuel) rounds s).continues hm ho hs
      obtain ⟨inner,e,m',n',ha,he⟩ := Stmt.exists_arrives h₁.reachable h₁.isOpen h
      exact ⟨inner,e,m',n',.next hs ha,he⟩
    | returned w =>
      cases h
      rcases Stmt.eq_ret_or_exists_enters hs with ⟨e,rfl,he⟩ | ⟨body,m₁,hs,hb⟩
      · exact ⟨scope,e,m,n,.ret,he⟩
      · have h₁ := hs.continues hm ho
        have hsize := hs.sizeOf_lt
        obtain ⟨hm',ho'⟩ := h₁.opened
        rw [inChild_eq h₁.isOpen] at hb
        generalize hr : Stmt.executeBlock (Run.call fuel) rounds _ body _ = r at hb
        cases r with
        | error => cases hb
        | ok completion n' =>
          obtain rfl : completion = .returned v := by cases hb; rfl
          obtain ⟨inner,e,m',n',ha,he⟩ := Stmt.exists_arrives hm' ho' hr
          exact ⟨inner,e,m',n',.within hs ha,he⟩
termination_by sizeOf ss

/-- A block returns a value exactly if it arrives at a return of its own whose expression has that value
there. -/
theorem Stmt.returns_iff_arrives {ss : List Stmt} {v : Value} (hm : m.Reachable)
    (ho : m.environment.isOpen scope) :
    Stmt.executeBlock (Run.call fuel) rounds scope ss m = .ok (.returned v) n ↔
    ∃ inner e m' n', Arrives (Run.call fuel) rounds scope ss m inner e m' ∧
      e.evaluate (Run.call fuel) inner m' = .ok v n' ∧
      n = { n' with environment := n'.environment.pop m.environment.depth } := by
  constructor
  · intro h
    obtain ⟨inner,e,m',n',ha,he⟩ := Stmt.exists_arrives hm ho h
    refine ⟨inner,e,m',n',ha,he,?_⟩
    rw [ha.executeBlock hm ho he] at h
    cases h
    rfl
  · rintro ⟨inner,e,m',n',ha,he,rfl⟩
    exact ha.executeBlock hm ho he

/-- Nothing after a return is run. -/
lemma Stmt.BlocksSame.ret (e : Expr) (after after' : List Stmt) :
    BlocksSame (.ret e :: after) (.ret e :: after') := by
  intro fuel rounds m scope _ _
  simp only [Stmt.executeBlock,Stmt.execute,bind_assoc,pure_bind]

end

namespace Run

/-- A call comes to a return of the called function: in a child of the root the parameters are bound and
the body arrives there. -/
def CallArrives (fuel scope : Nat) (f : String) (vs : List Value) (m : Machine) (inner : Nat) (e : Expr)
    (m' : Machine) : Prop :=
  ∃ g m₁, m.environment.lookupFunction scope f vs.length = .ok (.declared g Environment.root) ∧
    defineAll m.environment.depth (g.parameters.zip vs)
      { m with environment := m.environment.inner Environment.root } = .ok () m₁ ∧
    Stmt.Arrives (Run.call fuel) fuel m.environment.depth g.body m₁ inner e m'

/-- A call that comes to a return has its value, and all scopes it opened are closed. -/
lemma CallArrives.call {fuel scope inner : Nat} {f : String} {vs : List Value} {e : Expr} {v : Value}
    {m m' n : Machine} (h : CallArrives fuel scope f vs m inner e m') (hm : m.Reachable)
    (he : e.evaluate (Run.call fuel) inner m' = .ok v n) :
    Run.call (fuel + 1) scope f vs m =
      .ok v { n with environment := n.environment.pop m.environment.depth } := by
  obtain ⟨g,m₁,hl,hd,ha⟩ := h
  have ho := hm.nested.isOpen_root
  have hin : (m.environment.inner Environment.root).isOpen m.environment.depth = true :=
    Environment.isOpen_inner_depth _ _
  have h₁ := (keeps_rules.steps.defineAll (g.parameters.zip vs)).continues (hm.opened ho) hin hd
  have hdepth : m₁.environment.depth = m.environment.depth + 1 :=
    h₁.depth_eq.trans (Environment.depth_inner _)
  simp only [Run.call]
  rw [bind_ok (lookupFunction_ok hl)]
  dsimp only
  rw [inChild_eq ho,bind_ok hd,bind_ok (ha.executeBlock h₁.reachable h₁.isOpen he),hdepth]
  exact congrArg (fun env => EStateM.Result.ok v { n with environment := env })
    Environment.pop_pop_succ

/-- A return unwinds its own call and nothing else. Whatever follows a return in its block, in any place
of a program, a machine gives the same answers. And where a call comes to a return of its own function,
the value of the return is the value of the call and the caller goes on with it, in the scopes it had. -/
theorem return_unwinds :
    (∀ (S : Program.Site) (before after after' : List Stmt) (e : Expr)
      (prelude : Frame Value Callable) (sink : Sink) (requests requests' : List Request),
      prelude.Rooted →
      List.Forall₂ (Request.Swaps (S.fill (before ++ .ret e :: after))
        (S.fill (before ++ .ret e :: after'))) requests requests' →
      (Machine.new prelude sink).answers requests = (Machine.new prelude sink).answers requests') ∧
    ∀ (fuel scope inner : Nat) (f : String) (vs : List Value) (e : Expr) (v : Value)
      (m m' n : Machine), m.Reachable → m.environment.isOpen scope = true →
      CallArrives fuel scope f vs m inner e m' → e.evaluate (Run.call fuel) inner m' = .ok v n →
      let after := { n with environment := n.environment.pop m.environment.depth }
      m.environment.Grows scope [] after.environment ∧
      ∀ (β : Type) (k : Value → Run β), (Run.call (fuel + 1) scope f vs >>= k) m = k v after := by
  constructor
  · intro S before after after' e prelude sink requests requests' hp hr
    have hblock := (Stmt.BlocksSame.ret e after after').append before
    exact (S.fill_same hblock).answers_eq hr hp sink
  · intro fuel scope inner f vs e v m m' n hm ho ha he
    have hcall := ha.call hm he
    have hkeeps : m.environment.Grows scope [] (left (Run.call (fuel + 1) scope f vs m)).environment :=
      (keeps_rules.calls (fuel + 1) f vs m scope hm ho).grows
    rw [hcall] at hkeeps
    exact ⟨hkeeps,fun β k => bind_ok hcall k⟩

/-- A place in the branch of a loop. -/
def loopSite : Program.Site :=
  ⟨[],[],⟨"main",[],[],some "Integer",[],none⟩,
    .inLoop [] (.literal (.boolean true) none) (.inThen [] (.literal (.boolean true) none) .whole [] [])
      [],[]⟩

def returnOne : Stmt := .ret (.literal (.integer 1) none)

/-- The names of a program that returns from there. -/
def loopNames : Frame Value Callable :=
  ⟨[],[⟨"main",0,.declared (loopSite.filled [returnOne]) Environment.root⟩]⟩

theorem return_unwinds_loop :
    let m := Machine.new loopNames (.new none true)
    loopNames.Rooted ∧ m.Reachable ∧ m.environment.isOpen Environment.root = true ∧
    m.answers [.run 2 (loopSite.fill [returnOne])] =
      m.answers [.run 2 (loopSite.fill [returnOne,.expression (.call "main" [] none none)])] ∧
    ∃ n, (Run.call 2 Environment.root "main" [] >>= fun v => pure v.kind) m = .ok .integer n := by
  have hnames : loopNames.Rooted := by
    refine ⟨List.nodup_nil,fun e he => ?_⟩
    obtain rfl := List.mem_singleton.mp he
    rfl
  have hm : (Machine.new loopNames (.new none true)).Reachable := .start hnames
  have hanswers := return_unwinds.1 loopSite [] [] [.expression (.call "main" [] none none)]
    (.literal (.integer 1) none) loopNames (.new none true) _ _ hnames (.cons (.run 2) .nil)
  have hmain : (Machine.new loopNames (.new none true)).environment.lookupFunction Environment.root
      "main" 0 = .ok (.declared (loopSite.filled [returnOne]) Environment.root) := by
    rw [Environment.lookupFunction_eq_ok,Machine.new,Environment.chain_ofRoot]
    rfl
  have harrives : CallArrives 1 Environment.root "main" [] (.new loopNames (.new none true)) 3
      (.literal (.integer 1) none) _ :=
    ⟨loopSite.filled [returnOne],_,hmain,rfl,
      .within (.round Nat.zero_lt_one (.none _) rfl) (.within (.thenBlock rfl) .ret)⟩
  have hcall := return_unwinds.2 1 Environment.root 3 "main" [] (.literal (.integer 1) none)
    (.integer 1) _ _ _ hm rfl harrives rfl
  exact ⟨hnames,hm,rfl,hanswers,_,hcall.2 Value.Kind fun v => pure v.kind⟩

end Run
end BlockScript
