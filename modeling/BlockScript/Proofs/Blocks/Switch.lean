import BlockScript.Proofs.Blocks.Exchange
import BlockScript.Proofs.Blocks.Hidden
import BlockScript.Proofs.Execution.Slots
import BlockScript.Proofs.Values.Order
import Mathlib
/-! A switch is a chain of conditionals over a variable that holds its value. The chain nests one scope
for each arm that is not taken, and one for the variable. -/
namespace BlockScript

/-- The arms of a switch with a value each, and the arm for all other values. -/
def Case.withDefault (arms : List (Expr × List Stmt)) (default : List Stmt) : List Case :=
  arms.map (fun arm => .mk (some arm.1) arm.2) ++ [.mk none default]

/-- Conditionals that compare a variable with the values of arms in order, each in the other branch of
the one before. -/
def Stmt.comparing (t : String) : List (Expr × List Stmt) → List Stmt → List Stmt
  | [],default => default
  | (value,body) :: arms,default =>
    [.ifElse (.binary .equal (.ref t none none) value none) body (Stmt.comparing t arms default)]

/-- A variable for the value of an expression, and the conditionals that compare it, in a block of their
own. -/
def Stmt.ifChain (t : String) (e : Expr) (arms : List (Expr × List Stmt)) (default : List Stmt) : Stmt :=
  .ifElse (.literal (.boolean true) none)
    (.declaration t none (some e) none :: Stmt.comparing t arms default) []

section
open Run
variable {call : Caller} {fuel rounds scope d parent : Nat} {m n : Machine} {t : String} {v : Value}

lemma Stmt.executeBlock_singleton (s : Stmt) :
    Stmt.executeBlock call rounds scope [s] m = s.execute call rounds scope m := by
  simp only [Stmt.executeBlock]
  cases h : s.execute call rounds scope m with
  | error e m' => rw [bind_error h]
  | ok completion m' =>
    rw [bind_ok h]
    cases completion <;> rfl

/-- The comparison of a variable with the value of an arm tells whether the arm is taken. -/
lemma Expr.evaluateBoolean_comparison {b : Binding Value}
    (h : m.environment.lookupVariable scope t = .ok b) (value : Expr) :
    (Expr.binary .equal (.ref t none none) value none).evaluateBoolean call scope m =
      Case.isTaken call scope b.value (some value) m := by
  have href : (Expr.ref t none none).evaluate call scope m = .ok b.value m := by
    rw [Expr.evaluate,bind_ok (lookupVariable_ok h)]
    rfl
  have hdecided : Operator.isDecided .equal b.value m = .ok false m := rfl
  rw [Expr.evaluateBoolean,Expr.evaluate,bind_assoc,bind_ok href,bind_assoc,bind_ok hdecided,
    if_neg Bool.false_ne_true,Case.isTaken]
  cases hv : value.evaluate call scope m with
  | error e m' => rw [bind_assoc,bind_error hv,bind_error hv]
  | ok w m' =>
    rw [bind_assoc,bind_ok hv,bind_ok hv,Value.equal_comm w]
    rfl

/-- The scope of a variable with a value. -/
def Frame.ofVariable (t : String) (v : Value) : Frame Value Callable := ⟨[⟨t,v,true⟩],[]⟩

lemma Frame.findVariable_ofVariable {x : String} (h : x ≠ t) :
    (Frame.ofVariable t v).findVariable x = none := by
  simp [Frame.ofVariable,Frame.findVariable,h.symm]

/-- The variable is defined in a new scope. -/
lemma Environment.defineVariable_insert {env : Environment Value Callable} (hd : env.Splits d parent) :
    (env.insert d parent .empty).defineVariable d ⟨t,v,true⟩ =
      .ok (env.insert d parent (.ofVariable t v)) :=
  defineVariable_eq_ok.mpr ⟨_,getElem?_insert_self hd.le_depth,rfl,
    (setFrame_insert_self hd.le_depth _).symm⟩

/-- In the scope of the variable the conditionals take the arm that a switch takes there. -/
lemma Stmt.executeBlock_comparing {arms : List (Expr × List Stmt)} {default : List Stmt}
    (hne : arms ≠ []) (ht : t ∉ Case.allVariables (Case.withDefault arms default)) (hm : m.Reachable)
    (ho : m.environment.isOpen parent) (hd : m.environment.Splits d parent)
    (hn : (m.insert d parent (.ofVariable t v)).Reachable) :
    Stmt.executeBlock (Run.call fuel) rounds d (Stmt.comparing t arms default)
        (m.insert d parent (.ofVariable t v)) =
      Case.executeFirst (Run.call fuel) rounds d v (Case.withDefault arms default)
        (m.insert d parent (.ofVariable t v)) := by
  induction arms generalizing m with
  | nil => exact absurd rfl hne
  | cons arm arms ih =>
    obtain ⟨value,body⟩ := arm
    have hlt := hd.parent_lt
    have hopen : (m.insert d parent (.ofVariable t v)).environment.isOpen d = true := by
      have := Environment.isOpen_insert (f := Frame.ofVariable t v) hd parent
      rw [Environment.redirect,if_pos hlt] at this
      exact this.trans ho
    have hlookup : (m.insert d parent (.ofVariable t v)).environment.lookupVariable d t =
        .ok ⟨t,v,true⟩ :=
      Environment.lookupVariable_insert_self hd (by simp [Frame.ofVariable,Frame.findVariable])
    have hvalue : ∀ x ∈ value.variables, (Frame.ofVariable t v).findVariable x = none := by
      intro x hx
      refine Frame.findVariable_ofVariable ?_
      rintro rfl
      exact ht (List.mem_append_left _ hx)
    have hrest : t ∉ Case.allVariables (Case.withDefault arms default) := fun h =>
      ht (List.mem_append_right _ (List.mem_append_right _ h))
    -- whether the arm is taken is found out in the same way
    have htaken := ((blind_steps (Frame.ofVariable t v)).isTaken (blind_calls rfl fuel) v (some value)
      hvalue).commutes m parent d parent hm ho hd (.inl ⟨rfl,rfl⟩)
    have hkeeps := keeps_rules.isTaken (keeps_rules.calls fuel) v (some value)
    rw [Environment.redirect,if_pos hlt] at htaken
    rw [Stmt.comparing,Stmt.executeBlock_singleton,Stmt.execute,Case.withDefault,List.map_cons,
      List.cons_append,Case.executeFirst]
    cases hr : Case.isTaken (Run.call fuel) parent v (some value) m with
    | error e m' =>
      rw [hr] at htaken
      rw [bind_error htaken,bind_error ((Expr.evaluateBoolean_comparison hlookup value).trans htaken)]
    | ok taken m' =>
      rw [hr] at htaken
      rw [bind_ok htaken,bind_ok ((Expr.evaluateBoolean_comparison hlookup value).trans htaken)]
      cases taken with
      | true => rfl
      | false =>
        simp only [Bool.false_eq_true,↓reduceIte]
        have hg : m.environment.Grows parent [] m'.environment := hkeeps.grows hm ho hr
        have hopen' := ((hkeeps.grows hn hopen htaken).isOpen d).trans hopen
        have hn' := hkeeps.reachable hn hopen htaken
        cases arms with
        | nil => rfl
        | cons arm' arms =>
          have hblind : Blind .empty [] fun scope => Stmt.executeBlock (Run.call fuel) rounds scope
              (Stmt.comparing t (arm' :: arms) default) :=
            (blind_steps .empty).executeBlock (blind_calls rfl fuel) rounds
              (Stmt.comparing t (arm' :: arms) default) fun _ _ => rfl
          rw [hblind.inChild_eq_self hn' hopen']
          exact ih (List.cons_ne_nil _ _) hrest (hkeeps.reachable hm ho hr) ((hg.isOpen parent).trans ho)
            (hd.grows hg) hn'

/-- A switch does what the chain does, in every open scope of every state. -/
theorem Stmt.ifChain_same (e : Expr) {arms : List (Expr × List Stmt)} {default : List Stmt}
    (hne : arms ≠ []) (ht : t ∉ Case.allVariables (Case.withDefault arms default)) :
    (Stmt.switch e (Case.withDefault arms default)).Same (Stmt.ifChain t e arms default) := by
  intro fuel rounds m scope hm ho
  have hcalls := keeps_rules.calls fuel
  have hvalue : Blind .empty [] fun scope => e.evaluate (Run.call fuel) scope :=
    (blind_steps .empty).evaluate (blind_calls rfl fuel) e fun _ _ => rfl
  have htrue : (Expr.literal (.boolean true) none).evaluateBoolean (Run.call fuel) scope m = .ok true m :=
    rfl
  change Stmt.execute _ _ scope _ m = Stmt.execute _ _ scope _ m
  have hd := Environment.Splits.last ho
  have hat := hvalue.commutes m scope _ _ hm ho hd (.inl ⟨rfl,rfl⟩)
  rw [Environment.redirect,if_pos hd.parent_lt] at hat
  rw [Stmt.ifChain,Stmt.execute,Stmt.execute,bind_ok htrue,if_pos rfl,inChild_eq ho,
    ← Machine.insert_depth,Stmt.executeBlock,Stmt.execute,bind_assoc,Expr.evaluateInitial]
  have hkeeps : Keeps [] fun scope => e.evaluate (Run.call fuel) scope := keeps_rules.evaluate hcalls e
  cases hr : e.evaluate (Run.call fuel) scope m with
  | error error m' =>
    have hg : m.environment.Grows scope [] m'.environment := hkeeps.grows hm ho hr
    rw [hr] at hat
    rw [bind_error hr,bind_error hat]
    exact (closing_inserted (r := .error error m') (hd.grows hg) hg.depth_eq).symm
  | ok v m' =>
    rw [hr] at hat
    have hg : m.environment.Grows scope [] m'.environment := hkeeps.grows hm ho hr
    have hm' := hkeeps.reachable hm ho hr
    have ho' := (hg.isOpen scope).trans ho
    have hd' := hd.grows hg
    -- the scope of the variable, before and after it is defined
    have hdefine : defineVariable m.environment.depth t v true
        (m'.insert m.environment.depth scope .empty) =
          .ok () (m'.insert m.environment.depth scope (.ofVariable t v)) :=
      updateEnvironment_ok (Environment.defineVariable_insert hd')
    have hdefined : (m'.insert m.environment.depth scope (.ofVariable t v)).Reachable := by
      have hopened := hm.opened ho
      have hin : (m.environment.inner scope).isOpen m.environment.depth = true :=
        Environment.isOpen_inner_depth _ _
      rw [← Machine.insert_depth] at hopened
      rw [Environment.inner_eq_insert] at hin
      exact (hkeeps.reachable hopened hin hat).defined (Environment.defineVariable_insert hd')
    have hblind : Blind (.ofVariable t v) [] fun scope =>
        Case.executeFirst (Run.call fuel) rounds scope v (Case.withDefault arms default) := by
      refine (blind_steps (.ofVariable t v)).executeFirst (blind_calls rfl fuel) rounds v _ fun x hx =>
        Frame.findVariable_ofVariable ?_
      rintro rfl
      exact ht hx
    have hclosing := hblind.closing hm' ho'
    rw [hg.depth_eq,← Stmt.executeBlock_comparing hne ht hm' ho' hd' hdefined] at hclosing
    rw [bind_ok hr,bind_ok hat,bind_assoc,bind_ok hdefine,pure_bind]
    exact hclosing.symm

end

namespace Run

/-- A switch is its chain of conditionals. Let a switch with arms and a default, at any place of a
program, be replaced by conditionals over a variable that the arms do not name, with any annotations:
a machine gives the same answers, whatever it is asked for. -/
theorem switch_as_conditionals (S : Program.Site) (before after : List Stmt) (e : Expr)
    (arms : List (Expr × List Stmt)) (default : List Stmt) (t : String) (s : Stmt)
    (hne : arms ≠ []) (ht : t ∉ Case.allVariables (Case.withDefault arms default))
    (hs : s.bare = (Stmt.ifChain t e arms default).bare) (prelude : Frame Value Callable) (sink : Sink)
    (hp : prelude.Rooted) (requests requests' : List Request)
    (hr : List.Forall₂ (Request.Swaps
      (S.fill (before ++ .switch e (Case.withDefault arms default) :: after))
      (S.fill (before ++ s :: after))) requests requests') :
    (Machine.new prelude sink).answers requests = (Machine.new prelude sink).answers requests' := by
  have hsame : (Stmt.switch e (Case.withDefault arms default)).Same s := by
    intro fuel rounds
    have hbare : (fun scope => (Stmt.ifChain t e arms default).execute (Run.call fuel) rounds scope) =
        fun scope => s.execute (Run.call fuel) rounds scope := by
      funext scope
      rw [← Stmt.execute_bare,← hs,Stmt.execute_bare]
    exact hbare ▸ Stmt.ifChain_same e hne ht fuel rounds
  exact (S.fill_same (hsame.among before after)).answers_eq hr hp sink

/-- A place for all of `main`. -/
def mainSite : Program.Site := ⟨[],[],⟨"main",[],[],some "Integer",[],none⟩,.whole,[]⟩

/-- Arms that return ten times their values. -/
def tenfoldArms : List (Expr × List Stmt) :=
  [(.literal (.integer 1) none,[.ret (.literal (.integer 10) none)]),
    (.literal (.integer 2) none,[.ret (.literal (.integer 20) none)])]

theorem switch_as_conditionals_tenfold :
    let e : Expr := .literal (.integer 2) none
    let m := Machine.new Machine.standardNames (.new none true)
    tenfoldArms ≠ [] ∧ "value" ∉ Case.allVariables (Case.withDefault tenfoldArms []) ∧
    Machine.standardNames.Rooted ∧
    m.answers [.run 1 (mainSite.fill [.switch e (Case.withDefault tenfoldArms [])])] =
      m.answers [.run 1 (mainSite.fill [Stmt.ifChain "value" e tenfoldArms []])] ∧
    (m.answers [.run 1 (mainSite.fill [Stmt.ifChain "value" e tenfoldArms []])]).map Answer.outcome =
      [.ok (.integer 20)] := by
  have hne : tenfoldArms ≠ [] := List.cons_ne_nil _ _
  have ht : "value" ∉ Case.allVariables (Case.withDefault tenfoldArms []) := List.not_mem_nil
  have hanswers := switch_as_conditionals mainSite [] [] (.literal (.integer 2) none) tenfoldArms []
    "value" _ hne ht rfl Machine.standardNames (.new none true) standardNames_rooted _ _
    (.cons (.run 1) .nil)
  exact ⟨hne,ht,standardNames_rooted,hanswers,by cbv⟩

end Run
end BlockScript
