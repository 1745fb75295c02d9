import BlockScript.Proofs.Blocks.Exchange
import BlockScript.Proofs.Blocks.Point
import Mathlib
/-! The assignment of a variable to itself. It changes nothing when it runs, and a check accepts it for
every type but one. -/
namespace BlockScript

/-- A name that is not in sight, or whose variable is not mutable. -/
inductive RunError.OfNames : RunError → Prop
  | scope (e : NameError) : OfNames (.scope e)
  | immutableAssignment (x : String) : OfNames (.immutableAssignment x)

/-- The value that a variable has is assigned to it. -/
def Stmt.selfAssignment (x : String) : Stmt := .assignment (.ref x none none) (.ref x none none)

/-! ### Running it -/

namespace Run
variable {m : Machine} {scope : Nat} {x : String}

/-- The value of a variable is stored in it, and nothing changes, unless it cannot be assigned to. -/
lemma assign_self (hm : m.Reachable) {b : Binding Value}
    (hb : m.environment.lookupVariable scope x = .ok b) :
    Lost RunError.OfNames (assign scope x none b.value m) ∨ assign scope x none b.value m = .ok () m := by
  unfold assign
  rw [bind_ok (lookupVariable_ok hb)]
  split
  · have hw : updateEnvironment (·.writeVariable scope x b.value) m = .ok () m :=
      updateEnvironment_ok (hm.nested.writeVariable_self hb)
    exact .inr hw
  · exact .inl (.error (.immutableAssignment x))

end Run

namespace Stmt
variable {E : RunError → Prop} {s : Stmt} {ss : List Stmt}

/-- A statement that does nothing, but for lost errors. -/
def Idle (E : RunError → Prop) (s : Stmt) : Prop :=
  ∀ fuel rounds m scope, m.Reachable → m.environment.isOpen scope →
    Run.Lost E (s.execute (Run.call fuel) rounds scope m) ∨
      s.execute (Run.call fuel) rounds scope m = .ok .normal m

/-- With a statement that does nothing in front a block does the same. -/
lemma Idle.refines (h : s.Idle E) (ss : List Stmt) : BlocksRefine E (s :: ss) ss := by
  intro fuel rounds m scope hm ho
  simp only [executeBlock]
  rcases h fuel rounds m scope hm ho with hlost | hidle
  · exact .inl hlost.bind
  · rw [Run.bind_ok hidle]
    exact .inr rfl

lemma idle_self (x : String) (slot slot' : Option (Binding Ty)) (ty ty' : Option Ty) :
    (assignment (.ref x slot ty) (.ref x slot' ty')).Idle RunError.OfNames := by
  intro fuel rounds m scope hm ho
  simp only [execute,Expr.evaluate,bind_assoc,pure_bind]
  cases hb : m.environment.lookupVariable scope x with
  | error e =>
    rw [Run.bind_error (Run.lookupVariable_error hb)]
    exact .inl (.error (.scope e))
  | ok b =>
    rw [Run.bind_ok (Run.lookupVariable_ok hb)]
    rcases Run.assign_self hm hb with hlost | hself
    · exact .inl hlost.bind
    · rw [Run.bind_ok hself]
      exact .inr rfl

end Stmt

/-- A checked program that gives the results of another checked one, but for errors about names, runs in
the same way. It has no such errors. -/
lemma Script.run_refined {source text : String} {t u : Program} (h : check source = .ok t)
    (hu : check text = .ok u) (hr : u.Refines RunError.OfNames t) (fuel : Nat) (sink : Sink) :
    run fuel text sink = run fuel source sink := by
  have hm : (Machine.new Machine.standardNames sink).Reachable := .start Run.standardNames_rooted
  have hframe : Frame.Alike (Function.Refines RunError.OfNames) Machine.standardNames
      Machine.standardNames := .refl .refl _
  rcases Run.program_refined hm hm fuel ⟨hframe,.ofRoot hframe,rfl⟩ hr with hlost | hends
  · generalize hp : Run.program fuel u _ = r at hlost
    cases hlost with
    | @error e m he =>
      have hi : true = false → u.initialised = true ∧ ∀ f ∈ u.functions, f.completes = true := by simp
      have hrun : (run fuel text sink).1 = .error (.running e) := by
        simp only [run,hu,runProgram,hp,ScriptError.ofHalt]
      obtain ⟨w,_,hw⟩ := stopped_of_run hu hi hrun
      have hallowed := hw.allowed e rfl
      cases he <;> exact hallowed.elim
  · simp only [run,h,hu,runProgram]
    generalize Run.program fuel u _ = r at hends ⊢
    generalize Run.program fuel t _ = r' at hends ⊢
    cases hends with
    | ok hn => simp only [hn.sink]
    | error hn => simp only [hn.sink]

/-! ### Checking it -/

/-- Every type but `comparable` can be stored where it is expected. -/
lemma Ty.accepts_self {t : Ty} : t.accepts t = true ↔ t ≠ .comparable := by
  cases t <;> simp [accepts,isOrdered]

lemma Stmt.check_selfAssignment {Γ Δ : Context} {result : Ty} {x : String} {b : Binding Ty} {s : Stmt}
    (hb : Γ.lookupVariable x = .ok b) :
    (selfAssignment x).check Γ result = .ok (s,Δ) ↔ b.mutable = true ∧ b.value ≠ .comparable ∧
      s = .assignment (.ref x b b.value) (.ref x b b.value) ∧ Δ = Γ := by
  have href (e : Expr) (t : Ty) :
      (Expr.ref x none none).check Γ = .ok (e,t) ↔ e = .ref x b b.value ∧ t = b.value := by
    rw [Expr.check_ref]
    constructor
    · rintro ⟨c,hc,rfl,rfl⟩
      obtain rfl := Except.ok.inj (hb.symm.trans hc)
      exact ⟨rfl,rfl⟩
    · rintro ⟨rfl,rfl⟩
      exact ⟨b,hb,rfl,rfl⟩
  rw [selfAssignment,check_assignment]
  constructor
  · rintro ⟨_,_,_,c,_,_,hx,hr,hc,hm,he,ha,rfl,rfl⟩
    obtain rfl := Option.some.inj hx
    obtain rfl := Except.ok.inj (hb.symm.trans hc)
    obtain ⟨rfl,rfl⟩ := (href _ _).mp hr
    obtain ⟨rfl,rfl⟩ := (href _ _).mp he
    exact ⟨hm,Ty.accepts_self.mp ha,rfl,rfl⟩
  · rintro ⟨hm,hc,rfl,rfl⟩
    have hr := (href _ _).mpr ⟨rfl,rfl⟩
    exact ⟨x,_,_,b,_,_,rfl,hr,hb,hm,hr,Ty.accepts_self.mpr hc,rfl,rfl⟩

namespace Script
variable {source text : String} {t u : Program} {P : Program.Site} {before after : List Stmt} {x : String}
  {b : Binding Ty}

lemma assignable_of_check (hu : check text = .ok u)
    (hr : read text = .ok (P.fill (before ++ .selfAssignment x :: after)))
    (hb : P.Binds Program.standardNames before x b) : b.mutable = true ∧ b.value ≠ .comparable := by
  obtain ⟨result,Δ,hat,hlook⟩ := hb
  have hc := program_check_of_read hr hu
  obtain ⟨_,_,hs⟩ := P.check_at Program.standardNames_matched (arity_of_read hr) hc hat
  obtain ⟨hm,hv,_⟩ := (Stmt.check_selfAssignment hlook).mp hs
  exact ⟨hm,hv⟩

lemma exists_check_self (h : check source = .ok t) (hr : read source = .ok (P.fill (before ++ after)))
    (hread : read text = .ok (P.fill (before ++ .selfAssignment x :: after)))
    (hb : P.Binds Program.standardNames before x b) (hm : b.mutable = true)
    (hv : b.value ≠ .comparable) : ∃ u, check text = .ok u ∧ u.Refines RunError.OfNames t := by
  obtain ⟨result,Δ,hat,hlook⟩ := hb
  have hc := program_check_of_read hr h
  have hs : (Stmt.selfAssignment x).check Δ result = .ok (_,Δ) :=
    (Stmt.check_selfAssignment hlook).mpr ⟨hm,hv,rfl,rfl⟩
  obtain ⟨T,before',after',rfl,hcheck⟩ :=
    P.check_with Program.standardNames_matched (arity_of_read hr) hc hat hs
  refine ⟨_,?_,T.fill_refines (((Stmt.idle_self x b b b.value b.value).refines after').append before')⟩
  rw [check_of_read hread,hcheck]
  rfl

/-- A program that can be written can be written with the assignment of a variable to itself. -/
lemma wellFormed_self (hr : read source = .ok (P.fill (before ++ after)))
    (hb : P.Binds Program.standardNames before x b) :
    (P.fill (before ++ .selfAssignment x :: after)).WellFormed := by
  have hw := wellFormed_of_read hr
  obtain ⟨result,Δ,hat,hlook⟩ := hb
  have hx : IsName x := (hat.named Program.standardNames_named hw).isName hlook
  obtain ⟨hblock,hfill⟩ := P.wellFormed_fill hw
  obtain ⟨hbefore,hafter⟩ := Stmt.blockWellFormed_append.mp hblock
  have hself : (Stmt.selfAssignment x).WellFormed := ⟨rfl,⟨hx,rfl,rfl⟩,hx,rfl,rfl⟩
  exact hfill _ (Stmt.blockWellFormed_append.mpr ⟨hbefore,hself,hafter⟩)

/-- Assigning a variable to itself has no effect. Let `x` be in sight at a point of a block, at any depth
of a program whose text is checked, and let the program have `x = x;` there as well. A text of it, such as
the one that it is written as, is checked exactly if the variable is mutable and its type is not
`comparable`, the only type that does not accept itself. It then runs to the same value or error with the
same output. -/
theorem run_self_assignment (h : check source = .ok t) (P : Program.Site) (before after : List Stmt)
    (hr : read source = .ok (P.fill (before ++ after))) (x : String) (b : Binding Ty)
    (hb : P.Binds Program.standardNames before x b) :
    let p := P.fill (before ++ .selfAssignment x :: after)
    read p.render = .ok p ∧ ∀ text, read text = .ok p →
      ((∃ u, check text = .ok u) ↔ b.mutable = true ∧ b.value ≠ .comparable) ∧
      ∀ u, check text = .ok u → ∀ fuel sink, run fuel text sink = run fuel source sink := by
  intro p
  refine ⟨read_render (wellFormed_self hr hb),fun text hread => ⟨⟨?_,?_⟩,?_⟩⟩
  · intro hu
    obtain ⟨u,hu⟩ := hu
    exact assignable_of_check hu hread hb
  · intro hmv
    obtain ⟨u,hu,_⟩ := exists_check_self h hr hread hb hmv.1 hmv.2
    exact ⟨u,hu⟩
  · intro u hu fuel sink
    obtain ⟨hm,hv⟩ := assignable_of_check hu hread hb
    obtain ⟨u',hu',hrefines⟩ := exists_check_self h hr hread hb hm hv
    exact run_refined h hu' hrefines fuel sink

/-- A global that a loop counts in. -/
def countText : String :=
  "VAR x = 0; FUN main(): Integer DO WHILE x < 3 DO x = x + 1; END RETURN x; END"

/-- The text with an assignment that changes nothing in the loop. -/
def countTextIdle : String :=
  "VAR x = 0; FUN main(): Integer DO WHILE x < 3 DO x = x; x = x + 1; END RETURN x; END"

/-- The body of the loop. -/
def countSite : Program.Site :=
  ⟨[⟨"x",none,true,some (.literal (.integer 0) none),none⟩],[],⟨"main",[],[],some "Integer",[],none⟩,
    .inLoop [] (.binary .less (.ref "x" none none) (.literal (.integer 3) none) none) .whole
      [.ret (.ref "x" none none)],[]⟩

set_option maxRecDepth 1024 in
theorem run_self_assignment_loop :
    let increment : Stmt := .assignment (.ref "x" none none)
      (.binary .add (.ref "x" none none) (.literal (.integer 1) none) none)
    (∃ t, check countText = .ok t) ∧ read countText = .ok (countSite.fill [increment]) ∧
      countSite.Binds Program.standardNames [] "x" ⟨"x",.integer,true⟩ ∧
      (∃ u, check countTextIdle = .ok u) ∧
      ∀ fuel sink, run fuel countTextIdle sink = run fuel countText sink := by
  intro increment
  obtain ⟨t,ht,_⟩ : ∃ t, check countText = .ok t ∧ (fun _ => true) t = true :=
    exists_check (by decide +kernel)
  have hr : read countText = .ok (countSite.fill [increment]) := by cbv
  have hread : read countTextIdle = .ok (countSite.fill [.selfAssignment "x",increment]) := by cbv
  have hb : countSite.Binds Program.standardNames [] "x" ⟨"x",.integer,true⟩ := by
    exact ⟨_,_,.intro (.intro rfl rfl rfl rfl (.inLoop .nil .whole)) .nil,rfl⟩
  have hself := (run_self_assignment ht countSite [] [increment] hr "x" _ hb).2 countTextIdle hread
  obtain ⟨u,hu⟩ := hself.1.mpr ⟨rfl,by simp⟩
  exact ⟨⟨t,ht⟩,hr,hb,⟨u,hu⟩,hself.2 u hu⟩

/-- A variable of the type that does not accept itself. -/
def orderedText : String := "FUN main(): Integer DO LET x: Comparable = 1; RETURN 0; END"

/-- The text with the variable assigned to itself. -/
def orderedTextIdle : String :=
  "FUN main(): Integer DO LET x: Comparable = 1; x = x; RETURN 0; END"

/-- The body of `main`. -/
def mainSite : Program.Site := ⟨[],[],⟨"main",[],[],some "Integer",[],none⟩,.whole,[]⟩

/-- A mutable variable cannot always be assigned to itself. -/
theorem self_assignment_rejected :
    let declaration : Stmt :=
      .declaration "x" (some "Comparable") (some (.literal (.integer 1) none)) none
    let result : Stmt := .ret (.literal (.integer 0) none)
    (∃ t, check orderedText = .ok t) ∧ read orderedText = .ok (mainSite.fill [declaration,result]) ∧
      mainSite.Binds Program.standardNames [declaration] "x" ⟨"x",.comparable,true⟩ ∧
      read orderedTextIdle = .ok (mainSite.fill [declaration,.selfAssignment "x",result]) ∧
      check orderedTextIdle = .error (.typing ⟨.mismatch .comparable .comparable,some "x = x;"⟩) := by
  intro declaration result
  obtain ⟨t,ht,_⟩ : ∃ t, check orderedText = .ok t ∧ (fun _ => true) t = true :=
    exists_check (by decide +kernel)
  have hb : mainSite.Binds Program.standardNames [declaration] "x" ⟨"x",.comparable,true⟩ :=
    ⟨_,_,.intro (.intro rfl rfl rfl rfl .whole) (.cons rfl .nil),rfl⟩
  exact ⟨⟨t,ht⟩,by cbv,hb,by cbv,by cbv⟩

end Script
end BlockScript
