import BlockScript.Proofs.Blocks.Site
import BlockScript.Proofs.Isolation.Discipline
/-! Code that gives the result of other code in every open scope of every state of a machine, but for errors
that are left out of account, and the blocks around it. -/
namespace BlockScript

namespace Run
variable {α β : Type} {xs : List String} {E : RunError → Prop}

lemma Keeps.grows {x : Nat → Run α} (hx : Keeps xs x) {m : Machine} {scope : Nat}
    (hm : m.Reachable) (ho : m.environment.isOpen scope) {r : EStateM.Result Halt Machine α}
    (hr : x scope m = r) : m.environment.Grows scope xs (left r).environment := by
  subst hr
  exact (hx m scope hm ho).grows

lemma Keeps.reachable {x : Nat → Run α} (hx : Keeps xs x) {m m' : Machine} {scope : Nat}
    (hm : m.Reachable) (ho : m.environment.isOpen scope) {a : α} (hr : x scope m = .ok a m') :
    m'.Reachable := ((hx m scope hm ho).next ho hr).1

/-- A result with a scope closed, and all that were opened after it. -/
def closing (scope : Nat) : EStateM.Result Halt Machine α → EStateM.Result Halt Machine α
  | .ok a m => .ok a { m with environment := m.environment.pop scope }
  | .error e m => .error e { m with environment := m.environment.pop scope }

lemma inChild_eq {m : Machine} {parent : Nat} (ho : m.environment.isOpen parent) (body : Nat → Run α) :
    inChild parent body m = closing m.environment.depth
      (body m.environment.depth { m with environment := m.environment.inner parent }) := by
  unfold inChild
  rw [Environment.push_eq_ok ho]
  dsimp only
  cases body m.environment.depth { m with environment := m.environment.inner parent } <;> rfl

/-- An error that is left out of account. -/
inductive Lost (E : RunError → Prop) : EStateM.Result Halt Machine α → Prop
  | error {e : RunError} {m : Machine} (h : E e) : Lost E (.error (.failed e) m)

lemma Lost.bind {x : Run α} {k : α → Run β} {m : Machine} (h : Lost E (x m)) : Lost E ((x >>= k) m) := by
  generalize hr : x m = r at h
  cases h with
  | error h =>
    rw [bind_error hr]
    exact .error h

lemma Lost.closing {r : EStateM.Result Halt Machine α} (h : Lost E r) (scope : Nat) :
    Lost E (closing scope r) := by
  cases h with
  | error h => exact .error h

/-- The same result in every open scope of every state, but for lost errors of the first. -/
def Refines (E : RunError → Prop) (x y : Nat → Run α) : Prop :=
  ∀ m scope, m.Reachable → m.environment.isOpen scope → Lost E (x scope m) ∨ x scope m = y scope m

namespace Refines
variable {x y : Nat → Run α}

lemma refl (x : Nat → Run α) : Refines E x x := fun _ _ _ _ => .inr rfl

/-- What comes after it runs in a state that is reached. -/
lemma bind {k k' : α → Nat → Run β} (hx : Keeps xs x) (h : Refines E x y)
    (hk : ∀ a, Refines E (k a) (k' a)) :
    Refines E (fun scope => x scope >>= fun a => k a scope)
      fun scope => y scope >>= fun a => k' a scope := by
  intro m scope hm ho
  rcases h m scope hm ho with hlost | heq
  · exact .inl hlost.bind
  · change Lost E ((x scope >>= fun a => k a scope) m) ∨
      (x scope >>= fun a => k a scope) m = (y scope >>= fun a => k' a scope) m
    cases hr : x scope m with
    | ok a m' =>
      obtain ⟨hm',ho'⟩ := (hx m scope hm ho).next ho hr
      rw [bind_ok hr,bind_ok (heq ▸ hr)]
      exact hk a m' scope hm' ho'
    | error e m' =>
      rw [bind_error hr,bind_error (heq ▸ hr)]
      exact .inr rfl

/-- What comes before it is shared. -/
lemma after {k k' : β → Nat → Run α} {w : Nat → Run β} (hw : Keeps xs w)
    (hk : ∀ a, Refines E (k a) (k' a)) :
    Refines E (fun scope => w scope >>= fun a => k a scope)
      fun scope => w scope >>= fun a => k' a scope :=
  bind hw (.refl w) hk

/-- In a child that is opened for it. -/
lemma child (h : Refines E x y) :
    Refines E (fun scope => inChild scope x) fun scope => inChild scope y := by
  intro m scope hm ho
  have hin : (m.environment.inner scope).isOpen m.environment.depth = true :=
    Environment.isOpen_inner_depth _ _
  change Lost E (inChild scope x m) ∨ inChild scope x m = inChild scope y m
  rw [inChild_eq ho,inChild_eq ho]
  rcases h { m with environment := _ } _ (hm.opened ho) hin with hlost | heq
  · exact .inl (hlost.closing _)
  · exact .inr (congrArg _ heq)

lemma repeatWhile {condition : Nat → Run Bool} {body body' : Nat → Run Completion}
    (hc : Keeps [] condition) (hb : Keeps [] body) (h : Refines E body body') (n : Nat) :
    Refines E (fun scope => Run.repeatWhile (condition scope) (body scope) n)
      fun scope => Run.repeatWhile (condition scope) (body' scope) n := by
  induction n with
  | zero => exact .refl _
  | succ n ih =>
    refine after hc fun go => ?_
    cases go with
    | false => exact .refl _
    | true =>
      refine bind hb h fun completion => ?_
      cases completion with
      | normal => exact ih
      | returned v => exact .refl _

end Refines
end Run

namespace Stmt
variable {E : RunError → Prop}
open Run

/-- A statement that gives the result of another one, however deep calls go and however many rounds loops
take. -/
def Refines (E : RunError → Prop) (s s' : Stmt) : Prop :=
  ∀ fuel rounds, Run.Refines E (fun scope => s.execute (Run.call fuel) rounds scope)
    fun scope => s'.execute (Run.call fuel) rounds scope

/-- A block that gives the result of another one. -/
def BlocksRefine (E : RunError → Prop) (ss ss' : List Stmt) : Prop :=
  ∀ fuel rounds, Run.Refines E (fun scope => executeBlock (Run.call fuel) rounds scope ss)
    fun scope => executeBlock (Run.call fuel) rounds scope ss'

namespace BlocksRefine
variable {ss ss' : List Stmt}

lemma refl (ss : List Stmt) : BlocksRefine E ss ss := fun _ _ => .refl _

/-- After the same statement. -/
lemma cons (s : Stmt) (h : BlocksRefine E ss ss') : BlocksRefine E (s :: ss) (s :: ss') := by
  intro fuel rounds
  simp only [executeBlock]
  refine .after (keeps_rules.execute (keeps_rules.calls fuel) rounds s) fun completion => ?_
  cases completion with
  | normal => exact h fuel rounds
  | returned v => exact .refl _

/-- After the same statements. -/
lemma append (before : List Stmt) (h : BlocksRefine E ss ss') :
    BlocksRefine E (before ++ ss) (before ++ ss') := by
  induction before with
  | nil => exact h
  | cons s before ih => exact .cons s ih

end BlocksRefine

/-- Among the same statements. -/
lemma Refines.among {s s' : Stmt} (h : s.Refines E s') (before after : List Stmt) :
    BlocksRefine E (before ++ s :: after) (before ++ s' :: after) := by
  refine .append before fun fuel rounds => ?_
  simp only [executeBlock]
  exact .bind (keeps_rules.execute (keeps_rules.calls fuel) rounds s) (h fuel rounds) fun _ => .refl _

end Stmt

section
variable {E : RunError → Prop} {ss ss' : List Stmt}

/-- An arm among the same arms. -/
lemma Case.executeFirst_refines (h : Stmt.BlocksRefine E ss ss') (earlier later : List Case)
    (value : Option Expr) (fuel rounds : Nat) (v : Value) :
    Run.Refines E
      (fun scope => executeFirst (Run.call fuel) rounds scope v (earlier ++ .mk value ss :: later))
      fun scope => executeFirst (Run.call fuel) rounds scope v (earlier ++ .mk value ss' :: later) := by
  have hc := Run.keeps_rules.calls fuel
  induction earlier with
  | nil =>
    simp only [List.nil_append,executeFirst]
    refine .after (Run.keeps_rules.isTaken hc v value) fun taken => ?_
    cases taken with
    | true => exact .child (h fuel rounds)
    | false => exact .refl _
  | cons c earlier ih =>
    obtain ⟨value',body⟩ := c
    simp only [List.cons_append,executeFirst]
    refine .after (Run.keeps_rules.isTaken hc v value') fun taken => ?_
    cases taken with
    | true => exact .refl _
    | false => exact ih

/-- A block that gives the result of another one gives it in every place. -/
theorem Stmt.Site.fill_refines (h : Stmt.BlocksRefine E ss ss') (S : Stmt.Site) :
    Stmt.BlocksRefine E (S.fill ss) (S.fill ss') := by
  induction S with
  | whole => exact h
  | inThen before c site elseBlock after ih =>
    refine Refines.among (fun fuel rounds => ?_) before after
    simp only [execute]
    refine .after (Run.keeps_rules.evaluateBoolean (Run.keeps_rules.calls fuel) c) fun go => ?_
    cases go with
    | true => exact .child (ih fuel rounds)
    | false => exact .refl _
  | inElse before c thenBlock site after ih =>
    refine Refines.among (fun fuel rounds => ?_) before after
    simp only [execute]
    refine .after (Run.keeps_rules.evaluateBoolean (Run.keeps_rules.calls fuel) c) fun go => ?_
    cases go with
    | true => exact .refl _
    | false => exact .child (ih fuel rounds)
  | inArm before c earlier value site later after ih =>
    refine Refines.among (fun fuel rounds => ?_) before after
    simp only [execute]
    exact .after (Run.keeps_rules.evaluate (Run.keeps_rules.calls fuel) c) fun v =>
      Case.executeFirst_refines ih earlier later value fuel rounds v
  | inLoop before c site after ih =>
    refine Refines.among (fun fuel rounds => ?_) before after
    have hc := Run.keeps_rules.calls fuel
    simp only [execute]
    exact .repeatWhile (Run.keeps_rules.evaluateBoolean hc c)
      (Run.keeps_rules.child (Run.keeps_rules.executeBlock hc rounds _)) (.child (ih fuel rounds)) rounds

end
end BlockScript
