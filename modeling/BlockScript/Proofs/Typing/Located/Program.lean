import BlockScript.Proofs.Typing.Located.Rule
import Mathlib
/-! Every error of a check that two types alone make is placed once, at the innermost node whose rule raises
it; the others are never placed. -/
namespace BlockScript

open Checked (bind_eq_error bind_of_error bind_of_ok plain_of_fail)

namespace Node
variable {n m : Node} {cause : TypeError.Cause} {e : TypeError}

/-- The part of a node that its check takes apart. -/
noncomputable def size : Node → Nat
  | expr _ e => sizeOf e
  | stmt _ _ s => sizeOf s
  | global _ g => sizeOf g.value

lemma sizeOf_lt_among {α : Type} [SizeOf α] (before after : List α) (a : α) :
    sizeOf a < sizeOf (before ++ a :: after) :=
  List.sizeOf_lt_of_mem (List.mem_append_right _ List.mem_cons_self)

lemma sizeOf_lt_value (earlier later : List Case) (e : Expr) (body : List Stmt) :
    sizeOf e < sizeOf (earlier ++ .mk (some e) body :: later) := by
  have := sizeOf_lt_among earlier later (.mk (some e) body)
  simp only [Case.mk.sizeOf_spec,Option.some.sizeOf_spec] at this
  omega

lemma sizeOf_lt_body (earlier later : List Case) (value : Option Expr) (body : List Stmt) :
    sizeOf body < sizeOf (earlier ++ .mk value body :: later) := by
  have := sizeOf_lt_among earlier later (.mk value body)
  simp only [Case.mk.sizeOf_spec] at this
  omega

lemma Comes.size_lt (h : n.Comes m) : m.size < n.size := by
  cases h with
  | group | left | right | index =>
    simp only [size,Expr.group.sizeOf_spec,Expr.binary.sizeOf_spec,Expr.element.sizeOf_spec]
    omega
  | @argument _ _ _ _ _ before e after =>
    have := sizeOf_lt_among before after e
    simp only [size,Expr.call.sizeOf_spec]
    omega
  | @element _ before e after =>
    have := sizeOf_lt_among before after e
    simp only [size,Expr.list.sizeOf_spec]
    omega
  | expression | initial | receiver | assigned | condition | scrutinee | guard | returned =>
    simp only [size,Stmt.expression.sizeOf_spec,Stmt.declaration.sizeOf_spec,Stmt.assignment.sizeOf_spec,
      Stmt.ifElse.sizeOf_spec,Stmt.switch.sizeOf_spec,Stmt.loop.sizeOf_spec,Stmt.ret.sizeOf_spec,
      Option.some.sizeOf_spec]
    omega
  | @thenBlock _ _ _ _ _ before _ s after | @elseBlock _ _ _ _ _ _ _ before _ s after
  | @loopBody _ _ _ _ _ before _ s after =>
    have := sizeOf_lt_among before after s
    simp only [size,Stmt.ifElse.sizeOf_spec,Stmt.loop.sizeOf_spec]
    omega
  | @armValue _ _ _ _ _ earlier e body later =>
    have := sizeOf_lt_value earlier later e body
    simp only [size,Stmt.switch.sizeOf_spec]
    omega
  | @armBody _ _ _ _ _ _ earlier e before _ s after later =>
    have := sizeOf_lt_among before after s
    have := sizeOf_lt_body earlier later (some e) (before ++ s :: after)
    simp only [size,Stmt.switch.sizeOf_spec]
    omega
  | @defaultBody _ _ _ _ _ _ earlier before _ s after =>
    have := sizeOf_lt_among before after s
    have := sizeOf_lt_body earlier [] none (before ++ s :: after)
    simp only [size,Stmt.switch.sizeOf_spec]
    omega
  | @globalElement _ _ before e after _ _ _ hv =>
    have := sizeOf_lt_among before after e
    simp only [size,hv,Option.some.sizeOf_spec,Expr.list.sizeOf_spec]
    omega
  | globalInitial hv =>
    simp only [size,hv,Option.some.sizeOf_spec]
    omega

lemma Raises.isUnplaced (h : n.Raises cause) : cause.isUnplaced = true := by
  cases h with
  | operands hl hr h =>
    obtain ⟨_,hc,he⟩ := Operator.type_error h
    cases he
    exact hc
  | _ => rfl

/-- What a node that lies deeper raises is the error of the node, with the deeper one as its place. -/
lemma Reaches.fails (h : n.Reaches m) (hm : m.Raises cause) : n.Fails ⟨cause,some m.render⟩ := by
  induction h using Relation.ReflTransGen.head_induction_on with
  | refl =>
    rw [← TypeError.within_of hm.isUnplaced]
    exact hm.fails
  | head hc _ ih =>
    have hw := hc.fails ih
    rwa [TypeError.within_eq_self (.inr (Option.some_ne_none _))] at hw

/-- A node fails by its own rule or by that of a node in it. -/
theorem Fails.located (h : n.Fails e) :
    e.Plain ∨ ∃ m, n.Reaches m ∧ m.Raises e.cause ∧ e.node = some m.render := by
  induction hs : n.size using Nat.strongRecOn generalizing n e with
  | ind k ih =>
    obtain ⟨i,hi,rfl⟩ := h.meets
    cases hi with
    | raises hr =>
      rw [TypeError.within_of hr.isUnplaced]
      exact .inr ⟨n,.refl,hr,rfl⟩
    | comes hc hm =>
      rcases ih _ (hs ▸ hc.size_lt) hm rfl with hp | ⟨m,hreach,hr,hn⟩
      · rw [TypeError.within_eq_self (.inl hp)]
        exact .inl hp
      · rw [TypeError.within_eq_self (.inr (by rw [hn]; exact Option.some_ne_none _))]
        exact .inr ⟨m,.head hc hreach,hr,hn⟩
    | plain hp =>
      rw [TypeError.within_eq_self (.inl hp)]
      exact .inl hp

end Node

/-! ### Programs -/

section
variable {Γ Δ : Context} {err : TypeError}

namespace Global

lemma checkAll_error {gs : List Global} (h : checkAll Γ gs = .error err) :
    err.Plain ∨ ∃ before before' g after Δ, gs = before ++ g :: after ∧
      checkAll Γ before = .ok (before',Δ) ∧ g.checkValue Δ = .error err := by
  induction gs generalizing Γ with
  | nil => cases h
  | cons g gs ih =>
    rw [checkAll] at h
    rcases bind_eq_error.mp h with h | ⟨⟨g',Θ⟩,hg,h⟩
    · rcases bind_eq_error.mp h with h | ⟨_,_,h⟩
      · exact .inr ⟨[],[],g,gs,Γ,rfl,rfl,h⟩
      · rcases bind_eq_error.mp h with h | ⟨_,_,h⟩
        · exact .inl (Context.defineVariable_error h)
        · cases h
    · rcases bind_eq_error.mp h with h | ⟨_,_,h⟩
      · rcases ih h with h | ⟨before,before',i,after,Δ,rfl,hb,hi⟩
        · exact .inl h
        · exact .inr ⟨g :: before,g' :: before',i,after,Δ,rfl,
            checkAll_cons.mpr ⟨g',Θ,before',hg,hb,rfl⟩,hi⟩
      · cases h

lemma checkAll_of_error {before before' after : List Global} {g : Global}
    (hb : checkAll Γ before = .ok (before',Δ)) (hg : g.checkValue Δ = .error err) :
    checkAll Γ (before ++ g :: after) = .error err := by
  induction before generalizing Γ before' with
  | nil =>
    obtain ⟨_,rfl⟩ := checkAll_nil.mp hb
    rw [List.nil_append,checkAll]
    exact bind_of_error (bind_of_error hg)
  | cons i before ih =>
    obtain ⟨i',Θ,_,hi,hrest,_⟩ := checkAll_cons.mp hb
    rw [List.cons_append,checkAll]
    exact bind_of_ok hi (bind_of_error (ih hrest))

end Global

namespace Function

lemma mapM_named_error {names : List String} (h : names.mapM Ty.named = .error err) : err.Plain := by
  induction names with
  | nil => cases h
  | cons n names ih =>
    rw [List.mapM_cons] at h
    rcases bind_eq_error.mp h with h | ⟨_,_,h⟩
    · exact Ty.named_error h
    · rcases bind_eq_error.mp h with h | ⟨_,_,h⟩
      · exact ih h
      · cases h

lemma declared_error {f : Function} (h : f.declared = .error err) : err.Plain := by
  unfold declared at h
  rcases bind_eq_error.mp h with h | ⟨_,_,h⟩
  · exact mapM_named_error h
  · cases hr : f.resultTypeName with
    | none =>
      rw [hr] at h
      cases h
    | some n =>
      rw [hr] at h
      rcases bind_eq_error.mp h with h | ⟨_,_,h⟩
      · exact Ty.named_error h
      · cases h

lemma declareAll_error {fs : List Function} (h : declareAll Γ fs = .error err) : err.Plain := by
  induction fs generalizing Γ with
  | nil => cases h
  | cons f fs ih =>
    rw [declareAll] at h
    rcases bind_eq_error.mp h with h | ⟨_,_,h⟩
    · exact declared_error h
    · rcases bind_eq_error.mp h with h | ⟨_,_,h⟩
      · exact Context.defineFunction_error h
      · rcases bind_eq_error.mp h with h | ⟨_,_,h⟩
        · exact ih h
        · cases h

end Function

/-- The first member of a list that fails. -/
lemma Checked.mapM_eq_error {α β : Type} {f : α → Checked β} {as : List α} :
    as.mapM f = .error err ↔ ∃ before a after, as = before ++ a :: after ∧
      (∀ b ∈ before, ∃ c, f b = .ok c) ∧ f a = .error err := by
  induction as with
  | nil =>
    constructor
    · intro h
      cases h
    · rintro ⟨before,a,after,h,_⟩
      exact absurd h.symm (List.append_ne_nil_of_right_ne_nil _ (List.cons_ne_nil a after))
  | cons a as ih =>
    simp only [List.mapM_cons,bind_eq_error,pure_ne_error,and_false,exists_false,or_false,ih]
    constructor
    · rintro (h | ⟨c,hc,before,i,after,rfl,hb,hi⟩)
      · exact ⟨[],a,as,rfl,List.forall_mem_nil _,h⟩
      · exact ⟨a :: before,i,after,rfl,List.forall_mem_cons.mpr ⟨⟨c,hc⟩,hb⟩,hi⟩
    · rintro ⟨before,i,after,h,hb,hi⟩
      cases before with
      | nil =>
        cases h
        exact .inl hi
      | cons b before =>
        cases h
        obtain ⟨⟨c,hc⟩,hb⟩ := List.forall_mem_cons.mp hb
        exact .inr ⟨c,hc,before,i,after,rfl,hb,hi⟩

end

namespace Program
variable {names : Frame Ty Signature} {p : Program} {n : Node} {cause : TypeError.Cause} {e : TypeError}

/-- The check of a program comes to a global or to a statement of a body, with all before it typed. -/
inductive Visits (names : Frame Ty Signature) (p : Program) : Node → Prop
  | global {before before' g after Γ} (hm : p.functions.any Function.isMain = true)
      (hp : p.globals = before ++ g :: after)
      (hg : Global.checkAll (.ofFrame names) before = .ok (before',Γ)) : Visits names p (.global Γ g)
  | statement {gs Γ Δ Θ Λ earlier f s later before before' st after}
      (hm : p.functions.any Function.isMain = true)
      (hg : Global.checkAll (.ofFrame names) p.globals = .ok (gs,Γ))
      (hd : Function.declareAll Γ p.functions = .ok (earlier ++ (f,s) :: later,Δ))
      (hf : ∀ d ∈ earlier, ∃ f', d.1.check Δ d.2 = .ok f')
      (hi : Δ.enter.defineAll (f.bindings s) = .ok Θ) (hb : f.body = before ++ st :: after)
      (hs : Stmt.Leads s.result Θ before before' Λ) : Visits names p (.stmt Λ s.result st)

/-- The check comes to a node somewhere in the program. -/
def Reaches (names : Frame Ty Signature) (p : Program) (n : Node) : Prop :=
  ∃ m, p.Visits names m ∧ m.Reaches n

lemma visits_of_error (h : p.check names = .error e) : e.Plain ∨ ∃ n, p.Visits names n ∧ n.Fails e := by
  unfold check at h
  by_cases hm : p.functions.any Function.isMain = true
  · rw [if_pos hm] at h
    rcases bind_eq_error.mp h with h | ⟨⟨gs,Γ⟩,hg,h⟩
    · rcases Global.checkAll_error h with h | ⟨before,before',g,after,Γ,hp,hb,hg⟩
      · exact .inl h
      · exact .inr ⟨_,.global hm hp hb,hg⟩
    · rcases bind_eq_error.mp h with h | ⟨⟨ds,Δ⟩,hd,h⟩
      · exact .inl (Function.declareAll_error h)
      · rcases bind_eq_error.mp h with h | ⟨_,_,h⟩
        · obtain ⟨earlier,⟨f,s⟩,later,rfl,hf,h⟩ := Checked.mapM_eq_error.mp h
          rcases bind_eq_error.mp h with h | ⟨Θ,hi,h⟩
          · exact .inl (Context.defineAll_error h)
          · rcases bind_eq_error.mp h with h | ⟨_,_,h⟩
            · obtain ⟨before,before',st,after,Λ,hb,hl,hs⟩ := Stmt.checkBlock_eq_error.mp h
              exact .inr ⟨_,.statement hm hg hd hf hi hb hl,hs⟩
            · cases h
        · cases h
  · rw [if_neg hm] at h
    rcases bind_eq_error.mp h with h | ⟨_,h,_⟩
    · exact .inl (plain_of_fail rfl h)
    · cases h

lemma Visits.error (h : p.Visits names n) (hn : n.Fails e) : p.check names = .error e := by
  unfold check
  cases h with
  | global hm hp hg =>
    rw [if_pos hm,hp]
    exact bind_of_error (Global.checkAll_of_error hg hn)
  | statement hm hg hd hf hi hb hs =>
    rw [if_pos hm]
    apply bind_of_ok hg
    apply bind_of_ok hd
    apply bind_of_error
    apply Checked.mapM_eq_error.mpr
    refine ⟨_,_,_,rfl,hf,?_⟩
    apply bind_of_ok hi
    apply bind_of_error
    exact Stmt.checkBlock_eq_error.mpr ⟨_,_,_,_,_,hb,hs,hn⟩

/-- An error that two types alone make is placed at the node whose own rule raises it, with all that the
rule visited before typed, and an error with a cause of another kind is not placed. The check ends at the
first such node that it comes to. -/
theorem error_located (names : Frame Ty Signature) (p : Program) :
    (∀ e, p.check names = .error e →
      (e.cause.isUnplaced = false ∧ e.node = none ∧ e.message = e.cause.message) ∨
      (e.cause.isUnplaced = true ∧ ∃ n, p.Reaches names n ∧ n.Raises e.cause ∧ e.node = some n.render ∧
        e.message = e.cause.message ++ " In `" ++ n.render ++ "`.")) ∧
    ∀ n cause, p.Reaches names n → n.Raises cause → p.check names = .error ⟨cause,some n.render⟩ := by
  constructor
  · intro e h
    rcases visits_of_error h with h | ⟨m,hm,h⟩
    · exact .inl ⟨h.cause,h.node,h.message⟩
    · rcases h.located with h | ⟨n,hn,hr,he⟩
      · exact .inl ⟨h.cause,h.node,h.message⟩
      · exact .inr ⟨hr.isUnplaced,n,⟨m,hm,hn⟩,hr,he,TypeError.message_of_node he⟩
  · intro n cause ⟨m,hm,hn⟩ hr
    exact hm.error (hn.fails hr)

/-- Operands that do not fit, in an argument of a call in a conditional. -/
def unfit : Program :=
  ⟨[],[⟨"main",[],[],some "Integer",[.ifElse (.literal (.boolean true) none)
    [.expression (.call "print" [.binary .add (.literal (.integer 1) none)
      (.literal (.character 'c') none) none] none none)] [],.ret (.literal (.integer 0) none)],none⟩]⟩

theorem error_located_operands :
    unfit.check standardNames = .error ⟨.mismatch .integer .character,some "1 + 'c'"⟩ ∧
      ∃ n, unfit.Reaches standardNames n ∧ n.Raises (.mismatch .integer .character) ∧
        n.render = "1 + 'c'" := by
  have h : unfit.check standardNames = .error ⟨.mismatch .integer .character,some "1 + 'c'"⟩ := by cbv
  refine ⟨h,?_⟩
  rcases (error_located standardNames unfit).1 _ h with ⟨hc,_⟩ | ⟨_,n,hn,hr,he,_⟩
  · cases hc
  · exact ⟨n,hn,hr,(Option.some.inj he).symm⟩

end Program
end BlockScript
