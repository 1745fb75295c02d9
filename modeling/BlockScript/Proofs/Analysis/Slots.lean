import BlockScript.Proofs.Syntax.Slots
import BlockScript.Proofs.Typing.Decides.Program
/-! A check reads no slot: a tree and the one it was read as are rejected with the same error, or
found to be of the same type and filled alike. -/
namespace BlockScript

/-- The same error, or related results. -/
inductive Checked.Agree {α β : Type} (R : α → β → Prop) : Checked α → Checked β → Prop
  | ok {a : α} {b : β} (h : R a b) : Agree R (.ok a) (.ok b)
  | error (e : TypeError) : Agree R (.error e) (.error e)

namespace Checked.Agree
variable {α β γ δ : Type} {R : α → β → Prop} {S : γ → δ → Prop} {x : Checked α} {y : Checked β}

lemma refl {r : α → α → Prop} (x : Checked α) (h : ∀ a, r a a) : Agree r x x := by
  cases x with
  | ok a => exact .ok (h a)
  | error e => exact .error e

lemma bind {f : α → Checked γ} {g : β → Checked δ} (h : Agree R x y)
    (hf : ∀ a b, x = .ok a → R a b → Agree S (f a) (g b)) : Agree S (x >>= f) (y >>= g) := by
  cases h with
  | ok h => exact hf _ _ rfl h
  | error e => exact .error e

/-- The same step, and what follows it. -/
lemma step {f : α → Checked γ} {g : α → Checked δ} (x : Checked α)
    (hf : ∀ a, Agree S (f a) (g a)) : Agree S (x >>= f) (x >>= g) := by
  refine bind (refl x fun a => rfl) fun a b _ h => ?_
  subst h
  exact hf a

lemma within {node node' : Unit → String} (h : Agree R x y) (hn : node () = node' ()) :
    Agree R (Checked.within node x) (Checked.within node' y) := by
  cases h with
  | ok h => exact .ok h
  | error e =>
    rw [Checked.within,Checked.within,hn]
    exact .error _

lemma imp {r : α → β → Prop} (h : Agree R x y) (hr : ∀ a b, R a b → r a b) : Agree r x y := by
  cases h with
  | ok h => exact .ok (hr _ _ h)
  | error e => exact .error e

lemma trans {R' : β → γ → Prop} {z : Checked γ} {T : α → γ → Prop} (h : Agree R x y)
    (h' : Agree R' y z) (ht : ∀ a b c, R a b → R' b c → T a c) : Agree T x z := by
  cases h with
  | ok h => cases h' with | ok h' => exact .ok (ht _ _ _ h h')
  | error e => cases h' with | error => exact .error e

lemma symm (h : Agree R x y) : Agree (fun b a => R a b) y x := by
  cases h with
  | ok h => exact .ok h
  | error e => exact .error e

lemma mapM {P : Prop} {f g : α → Checked β} (h : ∀ a, Agree (fun b c => P → b = c) (f a) (g a))
    (as : List α) : Agree (fun bs cs => P → bs = cs) (as.mapM f) (as.mapM g) := by
  induction as with
  | nil => exact .ok fun _ => rfl
  | cons a as ih =>
    rw [List.mapM_cons,List.mapM_cons]
    exact (h a).bind fun _ _ _ hb => ih.bind fun _ _ _ hbs => .ok fun hp => by rw [hb hp,hbs hp]

end Checked.Agree

open Checked (Agree)

/-- The same type or context beside both, and the same tree where every known function has as many
parameters as types for them. -/
inductive Context.Refills {α β : Type} (Γ : Context) : α × β → α × β → Prop
  | mk {a a' : α} {b : β} (h : Γ.Matched → a = a') : Refills Γ (a,b) (a',b)

lemma Expr.length_bareAll (es : List Expr) : (Expr.bareAll es).length = es.length := by
  induction es with
  | nil => rfl
  | cons e es ih => rw [bareAll,List.length_cons,List.length_cons,ih]

lemma Expr.receiver?_bare (e : Expr) : e.bare.receiver? = e.receiver? := by
  cases e <;> rfl

section
variable (Γ : Context)

mutual
theorem Expr.check_bare (e : Expr) : Agree Γ.Refills (e.check Γ) (e.bare.check Γ) := by
  unfold Expr.check
  refine .within ?_ e.render_bare.symm
  cases e with
  | literal v s => exact .step _ fun t => .ok ⟨fun _ => rfl⟩
  | group e s =>
    refine .bind (Expr.check_bare e) ?_
    rintro _ _ _ ⟨he⟩
    exact .ok ⟨fun h => by rw [he h]⟩
  | binary op l r s =>
    refine .bind (Expr.check_bare l) ?_
    rintro _ _ _ ⟨hl⟩
    refine .bind (Expr.check_bare r) ?_
    rintro _ _ _ ⟨hr⟩
    exact .step _ fun t => .ok ⟨fun h => by rw [hl h,hr h]⟩
  | ref x slot s => exact .step _ fun b => .ok ⟨fun _ => rfl⟩
  | element x i slot s =>
    refine .step _ fun b => ?_
    cases b.value.element? with
    | none => exact .error _
    | some t =>
      refine .bind (Expr.check_bare i) ?_
      rintro _ _ _ ⟨hi⟩
      exact .step _ fun _ => .ok ⟨fun h => by rw [hi h]⟩
  | call f es slot s =>
    simp only [bare,Expr.length_bareAll]
    refine .bind (.refl _ fun _ => Eq.refl _) ?_
    rintro g _ hg rfl
    refine .bind (Expr.checkArguments_bare es g.parameters) fun es' es'' _ hes => ?_
    exact .ok ⟨fun h => by rw [hes h (h.length_eq hg)]⟩
  | list es s =>
    refine .bind (Expr.checkElements_bare none es) ?_
    rintro _ _ _ ⟨hes⟩
    exact .ok ⟨fun h => by rw [hes h]⟩

theorem Expr.checkArguments_bare (es : List Expr) (ts : List Ty) :
    Agree (fun a b => Γ.Matched → es.length = ts.length → a = b) (Expr.checkArguments Γ es ts)
      (Expr.checkArguments Γ (Expr.bareAll es) ts) := by
  match es,ts with
  | [],[] => exact .ok fun _ _ => rfl
  | [],t :: ts => exact .ok fun _ _ => rfl
  | e :: es,[] => exact .ok fun _ hl => nomatch hl
  | e :: es,t :: ts =>
    simp only [bareAll,checkArguments]
    refine .bind (Expr.check_bare e) ?_
    rintro _ _ _ ⟨he⟩
    refine .step _ fun _ => .bind (Expr.checkArguments_bare es ts) fun es' es'' _ hes => ?_
    exact .ok fun h hl => by rw [he h,hes h (Nat.succ.inj hl)]

theorem Expr.checkElements_bare (expected : Option Ty) (es : List Expr) :
    Agree Γ.Refills (Expr.checkElements Γ expected es)
      (Expr.checkElements Γ expected (Expr.bareAll es)) := by
  match es with
  | [] => exact .refl _ fun _ => ⟨fun _ => rfl⟩
  | e :: es =>
    simp only [bareAll,checkElements]
    refine .bind (Expr.check_bare e) ?_
    rintro ⟨i,received⟩ _ _ ⟨he⟩
    have hrest (t : Ty) := (Expr.checkElements_bare (some t) es).bind
      (f := fun a => pure (i :: a.1,a.2)) (g := fun a => pure (_ :: a.1,a.2)) (S := Γ.Refills)
      fun _ _ _ ⟨hes⟩ => .ok ⟨fun h => by rw [he h,hes h]⟩
    cases expected with
    | none => exact hrest received
    | some t => exact .step _ fun _ => hrest t
end

lemma Expr.checkInitial_bare (x : String) (typeName : Option String) (value : Option Expr) :
    Agree Γ.Refills (Expr.checkInitial Γ x typeName value)
      (Expr.checkInitial Γ x typeName (value.map Expr.bare)) := by
  cases typeName with
  | none =>
    cases value with
    | none => exact .error _
    | some e =>
      refine .bind (e.check_bare Γ) ?_
      rintro _ _ _ ⟨he⟩
      exact .ok ⟨fun h => by rw [he h]⟩
  | some n =>
    cases value with
    | none => exact .step _ fun _ => .ok ⟨fun _ => rfl⟩
    | some e =>
      refine .step _ fun _ => .bind (e.check_bare Γ) ?_
      rintro _ _ _ ⟨he⟩
      exact .step _ fun _ => .ok ⟨fun h => by rw [he h]⟩

end

section
variable {result : Ty}

mutual
theorem Stmt.check_bare (Γ : Context) (s : Stmt) :
    Agree Γ.Refills (s.check Γ result) (s.bare.check Γ result) := by
  unfold Stmt.check
  refine .within ?_ s.render_bare.symm
  cases s with
  | expression e =>
    refine .bind (e.check_bare Γ) ?_
    rintro _ _ _ ⟨he⟩
    exact .ok ⟨fun h => by rw [he h]⟩
  | declaration x typeName value slot =>
    refine .bind (Expr.checkInitial_bare Γ x typeName value) ?_
    rintro _ _ _ ⟨hv⟩
    exact .step _ fun _ => .ok ⟨fun h => by rw [hv h]⟩
  | assignment receiver e =>
    simp only [Stmt.bare,Expr.receiver?_bare]
    cases receiver.receiver? with
    | none => exact .error _
    | some x =>
      refine .bind (receiver.check_bare Γ) ?_
      rintro _ _ _ ⟨hr⟩
      refine .step _ fun _ => .bind (e.check_bare Γ) ?_
      rintro _ _ _ ⟨he⟩
      exact .step _ fun _ => .ok ⟨fun h => by rw [hr h,he h]⟩
  | ifElse c thenBlock elseBlock =>
    simp only [Stmt.bare,Stmt.isEmpty_bareBlock]
    refine .bind (c.check_bare Γ) ?_
    rintro _ _ _ ⟨hc⟩
    refine .step _ fun _ => ?_
    cases thenBlock.isEmpty with
    | true => exact .error _
    | false =>
      refine .bind (Stmt.checkBlock_bare Γ.enter thenBlock) fun _ _ _ ht => ?_
      refine .bind (Stmt.checkBlock_bare Γ.enter elseBlock) fun _ _ _ he => ?_
      exact .ok ⟨fun h => by rw [hc h,ht h.enter,he h.enter]⟩
  | switch c cases =>
    refine .bind (c.check_bare Γ) ?_
    rintro _ _ _ ⟨hc⟩
    refine .bind (Case.checkAll_bare Γ _ cases) fun _ _ _ hcs => ?_
    exact .ok ⟨fun h => by rw [hc h,hcs h]⟩
  | loop c body =>
    refine .bind (c.check_bare Γ) ?_
    rintro _ _ _ ⟨hc⟩
    refine .step _ fun _ => .bind (Stmt.checkBlock_bare Γ.enter body) fun _ _ _ hb => ?_
    exact .ok ⟨fun h => by rw [hc h,hb h.enter]⟩
  | ret e =>
    refine .bind (e.check_bare Γ) ?_
    rintro _ _ _ ⟨he⟩
    dsimp only
    split
    · exact .ok ⟨fun h => by rw [he h]⟩
    · exact .error _

theorem Stmt.checkBlock_bare (Γ : Context) (ss : List Stmt) :
    Agree (fun ss' ss'' => Γ.Matched → ss' = ss'') (Stmt.checkBlock Γ result ss)
      (Stmt.checkBlock Γ result (Stmt.bareBlock ss)) := by
  cases ss with
  | nil => exact .ok fun _ => rfl
  | cons s ss =>
    rw [Stmt.bareBlock,Stmt.checkBlock,Stmt.checkBlock]
    refine .bind (Stmt.check_bare Γ s) ?_
    rintro ⟨s',Δ⟩ _ hok ⟨hs⟩
    refine .bind (Stmt.checkBlock_bare Δ ss) fun _ _ _ hss => .ok fun h => ?_
    rw [hs h,hss (((Stmt.check_iff h s Δ).mp ⟨s',hok⟩).matched h)]

theorem Case.checkAll_bare (Γ : Context) (t : Ty) (cs : List Case) :
    Agree (fun cs' cs'' => Γ.Matched → cs' = cs'') (Case.checkAll Γ result t cs)
      (Case.checkAll Γ result t (Case.bareAll cs)) := by
  match cs with
  | [] => exact .error _
  | [.mk value body] =>
    cases value with
    | some e => exact .error _
    | none =>
      refine .bind (Stmt.checkBlock_bare Γ.enter body) fun _ _ _ hb => .ok fun h => ?_
      rw [hb h.enter]
  | .mk value body :: .mk value' body' :: cs =>
    cases value with
    | none => exact .error _
    | some e =>
      simp only [Case.bareAll,Option.map_some,Case.checkAll]
      refine .bind (e.check_bare Γ) ?_
      rintro _ _ _ ⟨he⟩
      refine .step _ fun _ => .bind (Stmt.checkBlock_bare Γ.enter body) fun _ _ _ hb => ?_
      refine .bind (Case.checkAll_bare Γ t (.mk value' body' :: cs)) fun _ _ _ hcs => ?_
      exact .ok fun h => by rw [he h,hb h.enter,hcs h]
end

end
namespace Global
variable (Γ : Context)

lemma checkValue_bare (g : Global) : Agree Γ.Refills (g.checkValue Γ) (g.bare.checkValue Γ) := by
  refine .within ?_ g.render_bare.symm
  obtain ⟨x,typeName,m,_ | e,slot⟩ := g
  · exact Expr.checkInitial_bare Γ x typeName none
  · cases e with
    | list es s =>
      refine .step _ fun declared => .bind (Expr.checkElements_bare Γ declared es) ?_
      rintro _ _ _ ⟨hes⟩
      exact .ok ⟨fun h => by rw [hes h]⟩
    | _ => exact Expr.checkInitial_bare Γ x typeName (some _)

lemma check_bare (g : Global) : Agree Γ.Refills (g.check Γ) (g.bare.check Γ) := by
  refine .bind (g.checkValue_bare Γ) ?_
  rintro _ _ _ ⟨hv⟩
  exact .step _ fun _ => .ok ⟨fun h => by rw [hv h]; rfl⟩

lemma matched_of_check {Γ Δ : Context} {g g' : Global} (h : g.check Γ = .ok (g',Δ))
    (hΓ : Γ.Matched) : Δ.Matched := by
  obtain ⟨_,_,_,hd,_⟩ := check_eq_ok.mp h
  obtain ⟨_,rfl⟩ := Context.defineVariable_iff.mp hd
  exact hΓ.bind _

lemma checkAll_bare (gs : List Global) :
    Agree Γ.Refills (checkAll Γ gs) (checkAll Γ (gs.map bare)) := by
  induction gs generalizing Γ with
  | nil => exact .ok ⟨fun _ => rfl⟩
  | cons g gs ih =>
    rw [List.map_cons,checkAll,checkAll]
    refine .bind (g.check_bare Γ) ?_
    rintro ⟨g',Δ⟩ _ hok ⟨hg⟩
    refine .bind (ih Δ) ?_
    rintro _ _ _ ⟨hgs⟩
    exact .ok ⟨fun h => by rw [hg h,hgs (matched_of_check hok h)]⟩

end Global

namespace Function
variable (Γ : Context)

/-- Functions are declared by their texts. -/
lemma declareAll_bare (fs : List Function) :
    Agree (fun a b => b = (a.1.map fun d => (d.1.bare,d.2),a.2)) (declareAll Γ fs)
      (declareAll Γ (fs.map bare)) := by
  induction fs generalizing Γ with
  | nil => exact .ok rfl
  | cons f fs ih =>
    rw [List.map_cons,declareAll,declareAll]
    refine .step _ fun s => .step _ fun Δ => .bind (ih Δ) ?_
    rintro _ _ _ rfl
    exact .ok rfl

lemma check_bare (f : Function) (s : Signature) :
    Agree (fun a b => Γ.Matched → a = b) (f.check Γ s) (f.bare.check Γ s) := by
  refine .bind (.refl _ fun _ => Eq.refl _) ?_
  rintro Δ _ hΔ rfl
  refine .bind (Stmt.checkBlock_bare Δ f.body) fun _ _ _ hb => .ok fun h => ?_
  obtain ⟨_,_,rfl⟩ := Context.defineAll_iff.mp hΔ
  rw [hb (Matched.foldl_bind h.enter _)]
  rfl

end Function

namespace Program

/-- A program is rejected with the error that the program as it was read is rejected with, or both
are filled; where every function takes as many arguments as its text gives types, they are filled
alike. -/
theorem check_bare (names : Frame Ty Signature) (p : Program) :
    Agree (fun a b => names.Matched →
      (∀ f ∈ p.functions, f.parameters.length = f.parameterTypeNames.length) → a = b)
      (p.check names) (p.bare.check names) := by
  have hmain : p.bare.functions.any Function.isMain = p.functions.any Function.isMain := by
    simp only [bare,List.any_map]
    rfl
  unfold check
  rw [hmain]
  cases p.functions.any Function.isMain with
  | false => exact .error _
  | true =>
    refine .bind (Global.checkAll_bare (.ofFrame names) p.globals) ?_
    rintro ⟨gs,Γ⟩ _ hgs ⟨hg⟩
    refine .bind (Function.declareAll_bare Γ p.functions) ?_
    rintro ⟨ds,Δ⟩ _ hds rfl
    dsimp only
    rw [List.mapM_map]
    refine .bind (.mapM (fun d => d.1.check_bare Δ d.2) ds) fun fs fs' _ hfs => ?_
    refine .ok fun hn hl => ?_
    obtain ⟨ss,hss,rfl⟩ := Function.declareAll_iff.mp hds
    have hΓ := matched_ofFrame hn
    have hΔ : Δ.Matched := hss.matched (Global.filled_of_checkAll hΓ hgs).2.1 hl
    rw [hg hΓ,hfs hΔ]

/-- So are two programs that are the same but for their slots. -/
theorem check_congr (names : Frame Ty Signature) {p q : Program} (h : p.bare = q.bare) :
    Agree (fun a b => names.Matched →
      (∀ f ∈ p.functions, f.parameters.length = f.parameterTypeNames.length) → a = b)
      (p.check names) (q.check names) := by
  have hbare (r : Program) :
      (∀ f ∈ r.bare.functions, f.parameters.length = f.parameterTypeNames.length) ↔
        ∀ f ∈ r.functions, f.parameters.length = f.parameterTypeNames.length := by
    simp only [bare,List.forall_mem_map,Function.bare]
  have hq := (q.check_bare names).symm
  rw [← h] at hq
  refine (p.check_bare names).trans hq fun a b c hab hcb hn hl => (hab hn hl).trans (hcb hn ?_).symm
  rwa [← hbare,← h,hbare]

end Program
end BlockScript
