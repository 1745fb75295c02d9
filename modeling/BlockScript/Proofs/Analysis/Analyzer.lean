import BlockScript.Proofs.Analysis.Follows
/-! An analyzer looks at no slot of a program that it is given, and at nothing that it was given
before. -/
namespace BlockScript

open Checked (Agree)
open Context (Reached)
open Visit (Follows)

section
variable {names : Names} {scope : Nat} {Γ : Context}

namespace Global

lemma visitValue_follows (hΓ : names.chain scope = Γ.frames) (g : Global) :
    Follows (Option.map Expr.bare · = g.value.map Expr.bare) (fun n t b => b = (n,t))
      (g.visitValue scope names) (g.checkValue Γ) := by
  have hrender (value : Option Expr) (h : value.map Expr.bare = g.value.map Expr.bare) :
      { g with value := value }.render = g.render := by
    have hbare : { g with value := value }.bare = g.bare := by simp only [bare,h]
    rw [← render_bare,hbare,render_bare]
  refine .within ?_ hrender
  obtain ⟨x,typeName,m,_ | e,slot⟩ := g
  · exact Expr.visitInitial_follows hΓ x typeName none
  · cases e with
    | list es s =>
      refine .step _ rfl fun declared => ?_
      refine (Expr.visitElements_follows hΓ declared es).andThen
        (fun _ h => by simp only [Option.map_some,Expr.bare,h]) ?_
      rintro es t _ hes rfl
      exact .ok (by simp only [Option.map_some,Expr.bare,hes]) rfl
    | _ => exact Expr.visitInitial_follows hΓ x typeName (some _)

lemma visit_follows (hΓ : names.chain scope = Γ.frames) (g : Global) :
    Follows (fun n => n.1.bare = g.bare) (fun n _ b => b.1 = n.1 ∧ Reached names scope n.2 b.2)
      (g.visit scope names) (g.check Γ) := by
  refine (g.visitValue_follows hΓ).andThen (fun _ h => by simp only [bare,h]) ?_
  rintro value t _ hv rfl
  refine .check (Context.defineVariable_agree hΓ _) (by simp only [bare,hv]) ?_
  exact fun names' Δ hΔ => .ok (by simp only [bare,hv]) ⟨rfl,hΔ⟩

lemma visitAll_follows (hΓ : names.chain scope = Γ.frames) (gs : List Global) :
    Follows (fun n => n.1.map bare = gs.map bare)
      (fun n _ b => b.1 = n.1 ∧ Reached names scope n.2 b.2)
      (Visit.all (visit scope) gs names) (checkAll Γ gs) := by
  induction gs generalizing names Γ with
  | nil => exact .ok rfl ⟨rfl,.refl hΓ⟩
  | cons g gs ih =>
    rw [checkAll]
    refine (g.visit_follows hΓ).andThen (fun _ h => by simp only [List.map_cons,h]) ?_
    rintro ⟨g',names'⟩ _ ⟨_,Δ⟩ hg ⟨rfl,hΔ⟩
    refine (ih hΔ.chain).into (fun _ h => by simp only [List.map_cons,hg,h]) ?_
    rintro ⟨gs',names''⟩ _ ⟨_,Θ⟩ ⟨rfl,hΘ⟩
    exact ⟨rfl,hΔ.trans hΘ⟩

end Global

namespace Function

/-- A function with a signature in its slot. -/
def signed (d : Function × Signature) : Function := { d.1 with signature := some d.2 }

lemma visitSignature_follows (hΓ : names.chain scope = Γ.frames) (f : Function) :
    Follows (fun n => n.1.bare = f.bare)
      (fun n _ b => n.1 = signed (f,b.1) ∧ Reached names scope n.2 b.2)
      (f.visitSignature scope names)
      (do let s ← f.declared; return (s,← Γ.defineFunction f.name f.arity s)) := by
  refine .step _ rfl fun s => .check (Context.defineFunction_agree hΓ f.name f.arity s) rfl ?_
  exact fun names' Δ hΔ => .ok rfl ⟨rfl,hΔ⟩

/-- Every function is left with its signature in its slot. -/
lemma visitSignatures_follows (hΓ : names.chain scope = Γ.frames) (fs : List Function) :
    Follows (fun n => n.1.map bare = fs.map bare)
      (fun n _ b => n.1 = b.1.map signed ∧ Reached names scope n.2 b.2)
      (Visit.all (visitSignature scope) fs names) (declareAll Γ fs) := by
  induction fs generalizing names Γ with
  | nil => exact .ok rfl ⟨rfl,.refl hΓ⟩
  | cons f fs ih =>
    -- One function is declared before the next one's text is looked at.
    have hcons : declareAll Γ (f :: fs) =
        (do let s ← f.declared; return (s,← Γ.defineFunction f.name f.arity s) : Checked _) >>=
          fun a => declareAll a.2 fs >>= fun b => .ok ((f,a.1) :: b.1,b.2) := by
      simp only [declareAll,bind_assoc,pure_bind]
      rfl
    rw [hcons]
    refine (f.visitSignature_follows hΓ).andThen (fun _ h => by simp only [List.map_cons,h]) ?_
    rintro ⟨f',names'⟩ _ ⟨s,Δ⟩ hf ⟨rfl,hΔ⟩
    refine (ih hΔ.chain).into (fun _ h => by simp only [List.map_cons,hf,h]) ?_
    rintro ⟨fs',names''⟩ _ ⟨ds,Θ⟩ ⟨rfl,hΘ⟩
    exact ⟨rfl,hΔ.trans hΘ⟩

lemma defineAll_agree (hΓ : names.chain scope = Γ.frames) (bs : List (Binding Ty)) :
    Agree (Reached names scope) (Checked.ofNames (names.defineAll scope bs)) (Γ.defineAll bs) := by
  induction bs generalizing names Γ with
  | nil => exact .ok (.refl hΓ)
  | cons b bs ih =>
    have hb := Context.defineVariable_agree hΓ b
    rw [Environment.defineAll,Context.defineAll]
    generalize Γ.defineVariable b = r at hb
    cases h : names.defineVariable scope b with
    | error e =>
      rw [h] at hb
      cases hb with | error => exact .error _
    | ok names' =>
      rw [h] at hb
      cases hb with | ok hΔ => exact (ih hΔ.chain).imp fun _ _ => hΔ.trans

lemma visitBody_follows (hΓ : names.chain scope = Γ.frames) (f : Function) (s : Signature) :
    Follows (fun n => n.1.bare = f.bare) (fun n _ b => b = n.1 ∧ n.2 = names)
      ((signed (f,s)).visitBody scope names) (f.check Γ s) := by
  unfold visitBody check
  dsimp only [signed]
  refine .inScope (K := fun g : Function => g.bare = f.bare) (R := fun n b => b = n) hΓ ?_
  intro hi
  refine .check (defineAll_agree hi _) rfl fun names' Δ hΔ => ?_
  refine (Stmt.visitBlock_follows hΔ.chain f.body).into (fun _ h => by simp only [bare,h]) ?_
  rintro ⟨body,_⟩ _ _ ⟨rfl,F,rfl⟩
  exact ⟨rfl,F,hΔ.setFrame F⟩

lemma visitBodies_follows (hΓ : names.chain scope = Γ.frames) (ds : List (Function × Signature)) :
    Follows (fun n => n.1.map bare = (ds.map signed).map bare)
      (fun n _ b => b = n.1 ∧ n.2 = names)
      (Visit.all (visitBody scope) (ds.map signed) names) (ds.mapM fun d => d.1.check Γ d.2) := by
  induction ds with
  | nil => exact .ok rfl ⟨rfl,rfl⟩
  | cons d ds ih =>
    rw [List.mapM_cons]
    refine (visitBody_follows hΓ d.1 d.2).andThen
      (fun _ h => by simp only [List.map_cons,h]; rfl) ?_
    rintro ⟨f,_⟩ _ _ hf ⟨rfl,rfl⟩
    refine ih.into (fun _ h => by simp only [List.map_cons,hf,h]; rfl) ?_
    rintro ⟨fs,_⟩ _ _ ⟨rfl,rfl⟩
    exact ⟨rfl,rfl⟩

end Function

end

/-- A program that is analyzed comes to what a check of it comes to. -/
theorem Program.visit_follows {prelude : Names} {outer : Scope Ty Signature}
    (hroot : prelude.scopes[Environment.root]? = some outer) (p : Program) :
    Follows (fun n => n.1.bare = p.bare) (fun n _ b => b = n.1) (p.visit prelude)
      (p.check outer.frame) := by
  unfold visit check
  cases p.functions.any Function.isMain with
  | false => exact ⟨rfl,.error _⟩
  | true =>
    have hΓ : prelude.chain Environment.root = (Context.ofFrame outer.frame).frames :=
      Environment.chain_root hroot
    simp only [↓reduceIte]
    refine (Global.visitAll_follows hΓ p.globals).andThen (fun _ h => by simp only [bare,h]) ?_
    rintro ⟨gs,names⟩ _ ⟨_,Γ⟩ hg ⟨rfl,hΓ⟩
    refine (Function.visitSignatures_follows hΓ.chain p.functions).andThen
      (fun _ h => by simp only [bare,hg,h]) ?_
    rintro ⟨_,names'⟩ _ ⟨ds,Δ⟩ hf ⟨rfl,hΔ⟩
    refine (Function.visitBodies_follows hΔ.chain ds).into
      (fun _ h => by simp only [bare,hg,h,hf]) ?_
    rintro ⟨fs',_⟩ _ _ ⟨rfl,rfl⟩
    rfl

namespace Analyzer
variable {prelude : Names}

lemma after_prelude (a : Analyzer) (history : List Program) :
    (a.after history).prelude = a.prelude := by
  induction history generalizing a with
  | nil => rfl
  | cons p history ih => exact ih _

/-- What came before leaves nothing behind. -/
lemma analyze_after (history : List Program) (p : Program) :
    (((new prelude).after history).analyze p).2 = ((new prelude).analyze p).2 := by
  unfold analyze
  rw [after_prelude]

/-- A program is analyzed as a check has it. -/
lemma analyze_check {outer : Scope Ty Signature}
    (hroot : prelude.scopes[Environment.root]? = some outer) (p : Program) :
    p.check outer.frame =
      ((new prelude).analyze p).2.verdict.map fun _ => ((new prelude).analyze p).2.node := by
  have h := (p.visit_follows hroot).agree
  change Agree _ ((new prelude).analyze p).2.verdict (p.check outer.frame) at h
  generalize ((new prelude).analyze p).2.verdict = r at h
  generalize p.check outer.frame = c at h
  cases h with
  | ok h => exact congrArg Except.ok h
  | error e => rfl

lemma analyze_congr {outer : Scope Ty Signature}
    (hroot : prelude.scopes[Environment.root]? = some outer) {p q : Program} (h : p.bare = q.bare) :
    ((new prelude).analyze p).2.verdict = ((new prelude).analyze q).2.verdict ∧
      (outer.frame.Matched →
        (∀ f ∈ p.functions, f.parameters.length = f.parameterTypeNames.length) →
        ((new prelude).analyze p).2.verdict = .ok () →
          ((new prelude).analyze p).2.node = ((new prelude).analyze q).2.node) := by
  have hc := Program.check_congr outer.frame h
  rw [analyze_check hroot p,analyze_check hroot q] at hc
  generalize ((new prelude).analyze p).2 = v at hc
  generalize ((new prelude).analyze q).2 = w at hc
  obtain ⟨n,r⟩ := v
  obtain ⟨m,r'⟩ := w
  cases r with
  | ok _ =>
    cases r' with
    | ok _ => cases hc with | ok hc => exact ⟨rfl,fun hn hl _ => hc hn hl⟩
    | error e => cases hc
  | error e =>
    cases r' with
    | ok _ => cases hc
    | error e' => cases hc with | error => exact ⟨rfl,fun _ _ h => nomatch h⟩

/-- Two programs that are the same but for their slots are analyzed alike, whatever an analyzer has
been given before: both are accepted or both rejected with one error, and the rest of their trees
stays, also when the analysis stops half way. A program is analyzed as a check has it. Where every
function has a type for each of its parameters, the slots of accepted programs are the same as well,
and stay the same when the program is analyzed again. -/
theorem analyze_ignores_slots {outer : Scope Ty Signature}
    (hroot : prelude.scopes[Environment.root]? = some outer) {p q : Program} (h : p.bare = q.bare)
    (before before' : List Program) :
    let v := (((new prelude).after before).analyze p).2
    let w := (((new prelude).after before').analyze q).2
    v.verdict = w.verdict ∧ v.node.bare = p.bare ∧ w.node.bare = q.bare ∧
      p.check outer.frame = v.verdict.map (fun _ => v.node) ∧
      (outer.frame.Matched →
        (∀ f ∈ p.functions, f.parameters.length = f.parameterTypeNames.length) →
        v.verdict = .ok () → v.node = w.node ∧
          ∀ later, (((new prelude).after later).analyze v.node).2 = v) := by
  simp only [analyze_after]
  have hp := (p.visit_follows hroot).keeps
  have hq := (q.visit_follows hroot).keeps
  obtain ⟨hverdict,hnode⟩ := analyze_congr hroot h
  refine ⟨hverdict,hp,hq,analyze_check hroot p,fun hn hl hok => ⟨hnode hn hl hok,fun _ => ?_⟩⟩
  obtain ⟨hagain,hsame⟩ := analyze_congr hroot hp.symm
  exact (Visit.ext (hsame hn hl hok) hagain).symm

/-- A program whose slots are left over from other programs. -/
def stale : Program :=
  ⟨[⟨"n",some "Integer",true,some (.list [.literal (.integer 5) (some .string)] (some .nil)),
      some ⟨"m",.character,false⟩⟩],
    [⟨"main",[],[],some "Integer",
      [.declaration "x" none (some (.element "n" (.literal (.integer 0) none) none (some .any)))
          (some ⟨"y",.nil,false⟩),
        .ret (.call "same" [.ref "x" (some ⟨"z",.string,true⟩) none] (some ⟨[],.any⟩) none)],none⟩,
      ⟨"same",["x"],["Integer"],some "Integer",[.ret (.ref "x" none (some .boolean))],
        some ⟨[.decimal],.nil⟩⟩]⟩

theorem analyze_ignores_slots_stale :
    let a := new (.ofRoot Program.standardNames)
    let v := ((a.after [stale,⟨[],[]⟩]).analyze stale).2
    let w := (a.analyze stale.bare).2
    v.verdict = .ok () ∧ w.verdict = .ok () ∧ v.node = w.node ∧ v.node.bare = stale.bare ∧
      Program.standardNames.Matched ∧
      (∀ f ∈ stale.functions, f.parameters.length = f.parameterTypeNames.length) ∧
      stale.check Program.standardNames = .ok v.node ∧
      ∀ later, ((a.after later).analyze v.node).2 = v := by
  have hroot : (Environment.ofRoot Program.standardNames).scopes[Environment.root]? =
      some ⟨none,Program.standardNames⟩ := rfl
  have hn := Program.standardNames_matched
  have hl : ∀ f ∈ stale.functions, f.parameters.length = f.parameterTypeNames.length := by decide
  have hbare : stale.bare = stale.bare.bare := rfl
  obtain ⟨hvw,hv,_,hc,hmatched⟩ :=
    analyze_ignores_slots hroot hbare [stale,⟨[],[]⟩] []
  obtain ⟨_,hok⟩ := Checked.exists_of_toBool (r :=
    (((new (.ofRoot Program.standardNames)).after [stale,⟨[],[]⟩]).analyze stale).2.verdict)
    (by decide +kernel)
  obtain ⟨hsame,hagain⟩ := hmatched hn hl hok
  refine ⟨hok,hvw ▸ hok,hsame,hv,hn,hl,?_,hagain⟩
  rw [hc,hok]
  rfl

end Analyzer
end BlockScript
