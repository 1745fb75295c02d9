import BlockScript.Proofs.Blocks.Refines
/-! Code that does the same in every open scope of every state of a machine, and the blocks around it. -/
namespace BlockScript

namespace Run
variable {α : Type} {x y z : Nat → Run α}

/-- The same result in every open scope of every state. -/
def Same (x y : Nat → Run α) : Prop :=
  ∀ m scope, m.Reachable → m.environment.isOpen scope → x scope m = y scope m

namespace Same

lemma refl (x : Nat → Run α) : Same x x := fun _ _ _ _ => rfl

lemma trans (h : Same x y) (h' : Same y z) : Same x z := fun m scope hm ho =>
  (h m scope hm ho).trans (h' m scope hm ho)

lemma refines (h : Same x y) (E : RunError → Prop) : Refines E x y := fun m scope hm ho =>
  .inr (h m scope hm ho)

/-- Where no error is lost, the results are the same. -/
lemma of_refines (h : Refines (fun _ => False) x y) : Same x y := by
  intro m scope hm ho
  rcases h m scope hm ho with hlost | heq
  · generalize x scope m = r at hlost
    cases hlost with
    | error h => exact h.elim
  · exact heq

end Same
end Run

namespace Stmt

/-- Two statements that do the same however deep calls go and however many rounds loops take. -/
def Same (s s' : Stmt) : Prop :=
  ∀ fuel rounds, Run.Same (fun scope => s.execute (Run.call fuel) rounds scope)
    fun scope => s'.execute (Run.call fuel) rounds scope

/-- Two blocks that do the same. -/
def BlocksSame (ss ss' : List Stmt) : Prop :=
  ∀ fuel rounds, Run.Same (fun scope => executeBlock (Run.call fuel) rounds scope ss)
    fun scope => executeBlock (Run.call fuel) rounds scope ss'

namespace BlocksSame
variable {ss ss' : List Stmt}

lemma refl (ss : List Stmt) : BlocksSame ss ss := fun _ _ => .refl _

lemma refines (h : BlocksSame ss ss') (E : RunError → Prop) : BlocksRefine E ss ss' := fun fuel rounds =>
  (h fuel rounds).refines E

lemma of_refines (h : BlocksRefine (fun _ => False) ss ss') : BlocksSame ss ss' := fun fuel rounds =>
  .of_refines (h fuel rounds)

/-- After the same statements. -/
lemma append (before : List Stmt) (h : BlocksSame ss ss') :
    BlocksSame (before ++ ss) (before ++ ss') :=
  .of_refines ((h.refines _).append before)

end BlocksSame

/-- Among the same statements. -/
lemma Same.among {s s' : Stmt} (h : s.Same s') (before after : List Stmt) :
    BlocksSame (before ++ s :: after) (before ++ s' :: after) := by
  have hs : s.Refines (fun _ => False) s' := fun fuel rounds => (h fuel rounds).refines _
  exact .of_refines (hs.among before after)

/-- Blocks that do the same are the same in every place. -/
theorem Site.fill_same {ss ss' : List Stmt} (h : BlocksSame ss ss') (S : Stmt.Site) :
    BlocksSame (S.fill ss) (S.fill ss') :=
  .of_refines (S.fill_refines (h.refines _))

end Stmt
end BlockScript
