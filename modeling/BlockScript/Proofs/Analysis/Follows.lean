import BlockScript.Proofs.Analysis.Slots
import BlockScript.Proofs.Analysis.Visit
/-! A visit comes to what a check comes to. An accepted node is left with the slots that the check
fills, and a rejected one with the rest of its tree as it was. -/
namespace BlockScript

open Checked (Agree)

/-- A visit comes to the error that a check comes to, or to a result that is related to the one of
the check and the visited node. Either way the node keeps a property. -/
structure Visit.Follows {ν α β : Type} (Keeps : ν → Prop) (R : ν → α → β → Prop) (v : Visit ν α)
    (c : Checked β) : Prop where
  keeps : Keeps v.node
  agree : Agree (R v.node) v.verdict c

namespace Visit.Follows
variable {μ ν α β γ δ : Type} {K : μ → Prop} {K' : ν → Prop} {R : μ → α → β → Prop}
  {R' : ν → γ → δ → Prop} {v : Visit μ α} {c : Checked β}

lemma ok {n : ν} {a : γ} {b : δ} (hk : K' n) (h : R' n a b) : Follows K' R' ⟨n,.ok a⟩ (.ok b) :=
  ⟨hk,.ok h⟩

lemma error {n : ν} (hk : K' n) (e : TypeError) : Follows K' R' ⟨n,.error e⟩ (.error e) :=
  ⟨hk,.error e⟩

lemma andThen {put : μ → ν} {next : μ → α → Visit ν γ} {f : β → Checked δ} (h : Follows K R v c)
    (hput : ∀ m, K m → K' (put m)) (hnext : ∀ m a b, K m → R m a b →
      Follows K' R' (next m a) (f b)) : Follows K' R' (v.andThen put next) (c >>= f) := by
  obtain ⟨n,verdict⟩ := v
  obtain ⟨hk,ha⟩ := h
  cases ha with
  | ok h => exact hnext n _ _ hk h
  | error e => exact error (hput n hk) e

lemma into {put : μ → ν} {g : β → δ} {R' : ν → α → δ → Prop} (h : Follows K R v c)
    (hput : ∀ m, K m → K' (put m)) (hR : ∀ m a b, R m a b → R' (put m) a (g b)) :
    Follows K' R' (v.into put) (c >>= fun b => .ok (g b)) := by
  obtain ⟨n,verdict⟩ := v
  obtain ⟨hk,ha⟩ := h
  cases ha with
  | ok h => exact ok (hput n hk) (hR n _ _ h)
  | error e => exact error (hput n hk) e

lemma check {S : α → β → Prop} {r : Checked α} {n : ν} {next : α → Visit ν γ} {f : β → Checked δ}
    (h : Agree S r c) (hk : K' n) (hnext : ∀ a b, S a b → Follows K' R' (next a) (f b)) :
    Follows K' R' (.check r n next) (c >>= f) := by
  cases h with
  | ok h => exact hnext _ _ h
  | error e => exact error hk e

/-- The same step in both, and what follows it. -/
lemma step {n : ν} {next : α → Visit ν γ} {f : α → Checked δ} (r : Checked α) (hk : K' n)
    (hnext : ∀ a, Follows K' R' (next a) (f a)) : Follows K' R' (.check r n next) (r >>= f) := by
  refine check (.refl r fun _ => Eq.refl _) hk fun a b h => ?_
  subst h
  exact hnext a

/-- A last step that writes no slot. -/
lemma last {n : ν} {g : γ → δ} (r : Checked γ) (hk : K' n) (h : ∀ a, R' n a (g a)) :
    Follows K' R' ⟨n,r⟩ (r >>= fun a => .ok (g a)) := by
  cases r with
  | ok a => exact ok hk (h a)
  | error e => exact error hk e

lemma within {render : μ → String} {node : Unit → String} (h : Follows K R v c)
    (hn : ∀ m, K m → render m = node ()) : Follows K R (v.within render) (c.within node) := by
  obtain ⟨n,verdict⟩ := v
  obtain ⟨hk,ha⟩ := h
  cases ha with
  | ok h => exact ok hk h
  | error e =>
    simp only [Visit.within,Checked.within,hn n hk]
    exact ⟨hk,.error _⟩

end Visit.Follows

open Visit (Follows)

/-! ### Names in sight

The scopes of an analyzer and the context of a check go together as long as the scope that is
visited sees the frames of the context. -/

namespace Context
variable {names : Names} {scope : Nat} {Γ : Context}

lemma lookupVariable_eq (hΓ : names.chain scope = Γ.frames) (x : String) :
    Checked.ofNames (names.lookupVariable scope x) = Γ.lookupVariable x := by
  rw [Environment.lookupVariable,Environment.lookup_eq_chain (Environment.isOpen_of_chain hΓ),hΓ,
    lookupVariable]
  cases Γ.frames.findSome? (·.findVariable x) <;> rfl

lemma lookupFunction_eq (hΓ : names.chain scope = Γ.frames) (f : String) (arity : Nat) :
    Checked.ofNames (names.lookupFunction scope f arity) = Γ.lookupFunction f arity := by
  rw [Environment.lookupFunction,Environment.lookup_eq_chain (Environment.isOpen_of_chain hΓ),hΓ,
    lookupFunction]
  cases Γ.frames.findSome? (·.findFunction f arity) <;> rfl

lemma requireMutable_eq (hΓ : names.chain scope = Γ.frames) (x : String) :
    names.requireMutable scope x = Γ.requireMutable x := by
  rw [Environment.requireMutable,lookupVariable_eq hΓ,requireMutable]

end Context

/-! ### Expressions -/

lemma Expr.bare_setTy (t : Ty) (e : Expr) : (e.setTy t).bare = e.bare := by
  cases e <;> rfl

/-- An expression is left as a check fills it, at the type that the check finds. -/
abbrev Expr.Settles (e : Expr) : Visit Expr Ty → Checked (Expr × Ty) → Prop :=
  Follows (·.bare = e.bare) fun n t b => b = (n,t)

lemma Visit.Follows.settle {e : Expr} {v : Visit Expr Ty} {c : Checked (Expr × Ty)}
    (h : Follows (·.bare = e.bare) (fun n t b => b = (n.setTy t,t)) v c) :
    e.Settles v.settle (c.within fun _ => e.render) := by
  obtain ⟨n,verdict⟩ := v
  obtain ⟨hk,ha⟩ := h
  cases ha with
  | ok h => exact .ok ((n.bare_setTy _).trans hk) h
  | error err =>
    have hn : n.render = e.render := by
      rw [← n.render_bare,hk,e.render_bare]
    simp only [Visit.settle,Checked.within,hn]
    exact ⟨hk,.error _⟩

section
variable {names : Names} {scope : Nat} {Γ : Context}

mutual
theorem Expr.visit_follows (hΓ : names.chain scope = Γ.frames) (e : Expr) :
    e.Settles (e.visit names scope) (e.check Γ) := by
  unfold Expr.visit Expr.check
  apply Follows.settle
  cases e with
  | literal v s => exact .last _ rfl fun _ => rfl
  | group e s =>
    refine (Expr.visit_follows hΓ e).into (fun _ h => by simp only [bare,h]) ?_
    rintro e t _ rfl
    rfl
  | binary op l r s =>
    refine (Expr.visit_follows hΓ l).andThen (fun _ h => by simp only [bare,h]) ?_
    rintro l left _ hl rfl
    refine (Expr.visit_follows hΓ r).andThen (fun _ h => by simp only [bare,hl,h]) ?_
    rintro r right _ hr rfl
    exact .last _ (by simp only [bare,hl,hr]) fun _ => rfl
  | ref x slot s =>
    dsimp only
    rw [Context.lookupVariable_eq hΓ]
    exact .step _ rfl fun b => .ok rfl rfl
  | element x i slot s =>
    dsimp only
    rw [Context.lookupVariable_eq hΓ]
    refine .step _ rfl fun b => ?_
    cases b.value.element? with
    | none => exact ⟨rfl,.error _⟩
    | some t =>
      refine (Expr.visit_follows hΓ i).andThen (fun _ h => by simp only [bare,h]) ?_
      rintro i index _ hi rfl
      -- The slot of the variable is still as it was found if the index is of another type.
      exact .step _ (by simp only [bare,hi]) fun _ => .ok (by simp only [bare,hi]) rfl
  | call f es slot s =>
    dsimp only
    rw [Context.lookupFunction_eq hΓ]
    refine .step _ rfl fun g => ?_
    refine (Expr.visitArguments_follows hΓ es g.parameters).andThen
      (fun _ h => by simp only [bare,h]) ?_
    rintro es _ _ hes rfl
    exact .ok (by simp only [bare,hes]) rfl
  | list es s =>
    refine (Expr.visitElements_follows hΓ none es).andThen (fun _ h => by simp only [bare,h]) ?_
    rintro es t _ hes rfl
    exact .ok (by simp only [bare,hes]) rfl

theorem Expr.visitArguments_follows (hΓ : names.chain scope = Γ.frames) (es : List Expr)
    (ts : List Ty) :
    Follows (Expr.bareAll · = Expr.bareAll es) (fun n _ b => b = n)
      (Expr.visitArguments names scope es ts) (Expr.checkArguments Γ es ts) := by
  match es,ts with
  | [],[] => exact .ok rfl rfl
  | [],t :: ts => exact .ok rfl rfl
  | e :: es,[] => exact .ok rfl rfl
  | e :: es,t :: ts =>
    simp only [visitArguments,checkArguments]
    refine (Expr.visit_follows hΓ e).andThen (fun _ h => by simp only [bareAll,h]) ?_
    rintro e received _ he rfl
    refine .step _ (by simp only [bareAll,he]) fun _ => ?_
    refine (Expr.visitArguments_follows hΓ es ts).into (fun _ h => by simp only [bareAll,he,h]) ?_
    rintro es _ _ rfl
    rfl

theorem Expr.visitElements_follows (hΓ : names.chain scope = Γ.frames) (expected : Option Ty)
    (es : List Expr) :
    Follows (Expr.bareAll · = Expr.bareAll es) (fun n t b => b = (n,t))
      (Expr.visitElements names scope expected es) (Expr.checkElements Γ expected es) := by
  match es with
  | [] =>
    cases expected with
    | none => exact ⟨rfl,.error _⟩
    | some t => exact .ok rfl rfl
  | e :: es =>
    simp only [visitElements,checkElements]
    refine (Expr.visit_follows hΓ e).andThen (fun _ h => by simp only [bareAll,h]) ?_
    rintro e' received _ he rfl
    have hrest (t : Ty) : Follows (Expr.bareAll · = e.bare :: Expr.bareAll es)
        (fun n t b => b = (n,t)) ((Expr.visitElements names scope (some t) es).into (e' :: ·))
        (do let (es,t) ← Expr.checkElements Γ (some t) es; return (e' :: es,t)) := by
      refine (Expr.visitElements_follows hΓ (some t) es).into
        (fun _ h => by simp only [bareAll,he,h]) ?_
      rintro _ _ _ rfl
      rfl
    cases expected with
    | none => exact hrest received
    | some t => exact .step _ (by simp only [bareAll,he]) fun _ => hrest t
end

end
/-- The initial value of a declaration, visited. -/
lemma Expr.visitInitial_follows {names : Names} {scope : Nat} {Γ : Context}
    (hΓ : names.chain scope = Γ.frames) (x : String) (typeName : Option String)
    (value : Option Expr) :
    Follows (Option.map Expr.bare · = value.map Expr.bare) (fun n t b => b = (n,t))
      (Expr.visitInitial names scope x typeName value)
      (Expr.checkInitial Γ x typeName value) := by
  cases typeName with
  | none =>
    cases value with
    | none => exact ⟨rfl,.error _⟩
    | some e =>
      refine (Expr.visit_follows hΓ e).into (fun _ h => congrArg some h) ?_
      rintro _ _ _ rfl
      rfl
  | some n =>
    cases value with
    | none => exact .last _ rfl fun _ => rfl
    | some e =>
      refine .step _ rfl fun declared => ?_
      refine (Expr.visit_follows hΓ e).andThen (fun _ h => congrArg some h) ?_
      rintro e t _ he rfl
      exact .step _ (congrArg some he) fun _ => .ok (congrArg some he) rfl

/-! ### Statements -/

/-- A scope of an analyzer has come to see the names of a context, and no other scope has changed. -/
structure Context.Reached (names : Names) (scope : Nat) (names' : Names) (Δ : Context) : Prop where
  names : names' = names.setFrame scope Δ.current
  chain : names'.chain scope = Δ.frames

namespace Context
variable {names names' names'' : Names} {scope : Nat} {Γ Δ Θ : Context}

lemma Reached.refl (hΓ : names.chain scope = Γ.frames) : Reached names scope names Γ :=
  ⟨(Environment.setFrame_chain hΓ).symm,hΓ⟩

lemma Reached.setFrame (h : Reached names scope names' Δ) (F : Frame Ty Signature) :
    names'.setFrame scope F = names.setFrame scope F := by
  rw [h.names,Environment.setFrame_setFrame]

lemma Reached.trans (h : Reached names scope names' Δ) (h' : Reached names' scope names'' Θ) :
    Reached names scope names'' Θ :=
  ⟨h'.names.trans (h.setFrame _),h'.chain⟩

/-- A change of the innermost frame is a change of the scope. -/
lemma updateFrame_agree (hΓ : names.chain scope = Γ.frames)
    (change : Frame Ty Signature → Except NameError (Frame Ty Signature)) :
    Agree (Reached names scope) (Checked.ofNames (names.updateFrame scope change))
      (do return { Γ with current := ← Checked.ofNames (change Γ.current) }) := by
  obtain ⟨s,hs,hf⟩ := Environment.getElem?_of_chain hΓ
  rw [Environment.updateFrame,hs]
  dsimp only
  rw [hf]
  cases change Γ.current with
  | ok F => exact .ok ⟨rfl,Environment.chain_setFrame hΓ⟩
  | error e => exact .error _

lemma defineVariable_agree (hΓ : names.chain scope = Γ.frames) (b : Binding Ty) :
    Agree (Reached names scope) (Checked.ofNames (names.defineVariable scope b))
      (Γ.defineVariable b) :=
  updateFrame_agree hΓ (·.defineVariable b)

lemma defineFunction_agree (hΓ : names.chain scope = Γ.frames) (f : String) (arity : Nat)
    (s : Signature) :
    Agree (Reached names scope) (Checked.ofNames (names.defineFunction scope f arity s))
      (Γ.defineFunction f arity s) :=
  updateFrame_agree hΓ (·.defineFunction f arity s)

end Context

/-- A block that is visited in a scope of its own leaves no scope behind. -/
lemma Visit.Follows.inScope {ν β : Type} {K : ν → Prop} {names : Names} {scope : Nat} {Γ : Context}
    {visit : Nat → Names → Visit (ν × Names) Unit} {c : Checked β} {R : ν → β → Prop}
    (hΓ : names.chain scope = Γ.frames)
    (h : (names.inner scope).chain names.depth = Γ.enter.frames →
      Follows (fun n => K n.1)
        (fun n _ b => R n.1 b ∧ ∃ F, n.2 = (names.inner scope).setFrame names.depth F)
        (visit names.depth (names.inner scope)) c) :
    Follows (fun n => K n.1) (fun n _ b => R n.1 b ∧ n.2 = names)
      (Visit.inScope scope names visit) c := by
  have ho := Environment.isOpen_of_chain hΓ
  have hdepth : 0 < names.depth := Nat.zero_lt_of_lt (Environment.isOpen_iff.mp ho)
  obtain ⟨hk,ha⟩ := h (by rw [Environment.chain_inner_depth ho,hΓ]; rfl)
  refine ⟨hk,ha.imp ?_⟩
  rintro _ b ⟨hr,F,hF⟩
  refine ⟨hr,?_⟩
  simp only [Visit.inScope,Visit.into,hF]
  exact Environment.pop_setFrame_inner names scope F hdepth

section
variable {result : Ty}

lemma Stmt.visitInner_follows {names : Names} {scope : Nat} {Γ : Context}
    (hΓ : names.chain scope = Γ.frames) {ss : List Stmt}
    (h : ∀ {names' : Names} {inner : Nat}, names'.chain inner = Γ.enter.frames →
      Follows (fun n => Stmt.bareBlock n.1 = Stmt.bareBlock ss)
        (fun n _ b => b = n.1 ∧ ∃ F, n.2 = names'.setFrame inner F)
        (Stmt.visitBlock inner result ss names') (Stmt.checkBlock Γ.enter result ss)) :
    Follows (fun n => Stmt.bareBlock n.1 = Stmt.bareBlock ss) (fun n _ b => b = n.1 ∧ n.2 = names)
      (Visit.inScope scope names fun inner => Stmt.visitBlock inner result ss)
      (Stmt.checkBlock Γ.enter result ss) :=
  .inScope (K := fun ss' => Stmt.bareBlock ss' = Stmt.bareBlock ss) (R := fun n b => b = n) hΓ h

mutual
theorem Stmt.visit_follows {names : Names} {scope : Nat} {Γ : Context}
    (hΓ : names.chain scope = Γ.frames) (s : Stmt) :
    Follows (fun n => n.1.bare = s.bare)
      (fun n _ b => b.1 = n.1 ∧ Context.Reached names scope n.2 b.2)
      (s.visit scope result names) (s.check Γ result) := by
  unfold Stmt.visit Stmt.check
  refine .within ?_ fun n hn => by rw [← n.1.render_bare,hn,s.render_bare]
  cases s with
  | expression e =>
    refine (Expr.visit_follows hΓ e).andThen (fun _ h => by simp only [Stmt.bare,h]) ?_
    rintro e t _ he rfl
    exact .ok (by simp only [Stmt.bare,he]) ⟨rfl,.refl hΓ⟩
  | declaration x typeName value slot =>
    refine (Expr.visitInitial_follows hΓ x typeName value).andThen
      (fun _ h => by simp only [Stmt.bare,h]) ?_
    rintro value t _ hv rfl
    refine .check (Context.defineVariable_agree hΓ _) (by simp only [Stmt.bare,hv]) ?_
    exact fun names' Δ hΔ => .ok (by simp only [Stmt.bare,hv]) ⟨rfl,hΔ⟩
  | assignment receiver e =>
    dsimp only
    cases receiver.receiver? with
    | none => exact ⟨rfl,.error _⟩
    | some x =>
      refine (Expr.visit_follows hΓ receiver).andThen (fun _ h => by simp only [Stmt.bare,h]) ?_
      rintro receiver t _ hr rfl
      rw [Context.requireMutable_eq hΓ]
      refine .step _ (by simp only [Stmt.bare,hr]) fun _ => ?_
      refine (Expr.visit_follows hΓ e).andThen (fun _ h => by simp only [Stmt.bare,hr,h]) ?_
      rintro e received _ he rfl
      exact .last _ (by simp only [Stmt.bare,hr,he]) fun _ => ⟨rfl,.refl hΓ⟩
  | ifElse c thenBlock elseBlock =>
    refine (Expr.visit_follows hΓ c).andThen (fun _ h => by simp only [Stmt.bare,h]) ?_
    rintro c t _ hc rfl
    refine .step _ (by simp only [Stmt.bare,hc]) fun _ => ?_
    cases thenBlock.isEmpty with
    | true => exact ⟨by simp only [if_true,Stmt.bare,hc],.error _⟩
    | false =>
      simp only [Bool.false_eq_true,if_false]
      refine (Stmt.visitInner_follows hΓ fun h => Stmt.visitBlock_follows h thenBlock).andThen
        (fun _ h => by simp only [Stmt.bare,hc,h]) ?_
      rintro ⟨thenBlock',_⟩ _ _ ht ⟨rfl,rfl⟩
      refine (Stmt.visitInner_follows hΓ fun h => Stmt.visitBlock_follows h elseBlock).into
        (fun _ h => by simp only [Stmt.bare,hc,ht,h]) ?_
      rintro ⟨elseBlock',_⟩ _ _ ⟨rfl,rfl⟩
      exact ⟨rfl,.refl hΓ⟩
  | switch c cases =>
    refine (Expr.visit_follows hΓ c).andThen (fun _ h => by simp only [Stmt.bare,h]) ?_
    rintro c t _ hc rfl
    refine (Case.visitAll_follows hΓ t cases).into (fun _ h => by simp only [Stmt.bare,hc,h]) ?_
    rintro ⟨cases',_⟩ _ _ ⟨rfl,rfl⟩
    exact ⟨rfl,.refl hΓ⟩
  | loop c body =>
    refine (Expr.visit_follows hΓ c).andThen (fun _ h => by simp only [Stmt.bare,h]) ?_
    rintro c t _ hc rfl
    refine .step _ (by simp only [Stmt.bare,hc]) fun _ => ?_
    refine (Stmt.visitInner_follows hΓ fun h => Stmt.visitBlock_follows h body).into
      (fun _ h => by simp only [Stmt.bare,hc,h]) ?_
    rintro ⟨body',_⟩ _ _ ⟨rfl,rfl⟩
    exact ⟨rfl,.refl hΓ⟩
  | ret e =>
    refine (Expr.visit_follows hΓ e).andThen (fun _ h => by simp only [Stmt.bare,h]) ?_
    rintro e received _ he rfl
    dsimp only
    split
    · exact .ok (by simp only [Stmt.bare,he]) ⟨rfl,.refl hΓ⟩
    · exact ⟨by simp only [Stmt.bare,he],.error _⟩

theorem Stmt.visitBlock_follows {names : Names} {scope : Nat} {Γ : Context}
    (hΓ : names.chain scope = Γ.frames) (ss : List Stmt) :
    Follows (fun n => Stmt.bareBlock n.1 = Stmt.bareBlock ss)
      (fun n _ b => b = n.1 ∧ ∃ F, n.2 = names.setFrame scope F)
      (Stmt.visitBlock scope result ss names) (Stmt.checkBlock Γ result ss) := by
  cases ss with
  | nil => exact .ok rfl ⟨rfl,_,(Environment.setFrame_chain hΓ).symm⟩
  | cons s ss =>
    rw [Stmt.visitBlock,Stmt.checkBlock]
    refine (Stmt.visit_follows hΓ s).andThen (fun _ h => by simp only [Stmt.bareBlock,h]) ?_
    rintro ⟨s',names'⟩ _ ⟨_,Δ⟩ hs ⟨rfl,hΔ⟩
    refine (Stmt.visitBlock_follows hΔ.chain ss).into
      (fun _ h => by simp only [Stmt.bareBlock,hs,h]) ?_
    rintro ⟨ss',_⟩ _ _ ⟨rfl,F,rfl⟩
    exact ⟨rfl,F,hΔ.setFrame F⟩

theorem Case.visitAll_follows {names : Names} {scope : Nat} {Γ : Context}
    (hΓ : names.chain scope = Γ.frames) (t : Ty) (cs : List Case) :
    Follows (fun n => Case.bareAll n.1 = Case.bareAll cs) (fun n _ b => b = n.1 ∧ n.2 = names)
      (Case.visitAll scope result t cs names) (Case.checkAll Γ result t cs) := by
  match cs with
  | [] => exact ⟨rfl,.error _⟩
  | [.mk value body] =>
    cases value with
    | some e => exact ⟨rfl,.error _⟩
    | none =>
      simp only [Case.visitAll,Case.checkAll]
      refine (Stmt.visitInner_follows hΓ fun h => Stmt.visitBlock_follows h body).into
        (fun _ h => by simp only [Case.bareAll,h]) ?_
      rintro ⟨body',_⟩ _ _ ⟨rfl,rfl⟩
      exact ⟨rfl,rfl⟩
  | .mk value body :: d :: cs =>
    cases value with
    | none => exact ⟨rfl,.error _⟩
    | some e =>
      simp only [Case.visitAll,Case.checkAll]
      refine (Expr.visit_follows hΓ e).andThen
        (fun _ h => by simp only [Case.bareAll,Option.map_some,h]) ?_
      rintro e' u _ he rfl
      refine .step _ (by simp only [Case.bareAll,Option.map_some,he]) fun _ => ?_
      refine (Stmt.visitInner_follows hΓ fun h => Stmt.visitBlock_follows h body).andThen
        (fun _ h => by simp only [Case.bareAll,Option.map_some,he,h]) ?_
      rintro ⟨body',_⟩ _ _ hb ⟨rfl,rfl⟩
      refine (Case.visitAll_follows hΓ t (d :: cs)).into
        (fun _ h => by simp only [Case.bareAll,Option.map_some,he,hb,h]) ?_
      rintro ⟨cs',_⟩ _ _ ⟨rfl,rfl⟩
      exact ⟨rfl,rfl⟩
end

end
end BlockScript
