import BlockScript.Proofs.Blocks.Same
import BlockScript.Proofs.Execution.Alike
import BlockScript.Proofs.Isolation.Session
/-! Programs whose functions give the results of one another, but for lost errors, end alike. A machine does
not tell programs apart whose functions do the same: whatever it is asked for, it gives the same answers with
the one and the other. -/
namespace BlockScript

/-- The same name and parameters, and a body that gives the result of the other one. -/
structure Function.Refines (E : RunError → Prop) (f f' : Function) : Prop where
  name : f.name = f'.name
  parameters : f.parameters = f'.parameters
  body : Stmt.BlocksRefine E f.body f'.body

/-- The same globals, and functions that give the results of the others in the same order. -/
structure Program.Refines (E : RunError → Prop) (p q : Program) : Prop where
  globals : p.globals = q.globals
  functions : List.Forall₂ (Function.Refines E) p.functions q.functions

section
variable {E : RunError → Prop}

lemma Function.Refines.refl (f : Function) : f.Refines E f := ⟨rfl,rfl,.refl _⟩

/-- A block that gives the result of another one gives it in every place in a program. -/
theorem Program.Site.fill_refines {ss ss' : List Stmt} (h : Stmt.BlocksRefine E ss ss')
    (S : Program.Site) : (S.fill ss).Refines E (S.fill ss') := by
  have hrefl (fs : List Function) : List.Forall₂ (Function.Refines E) fs fs :=
    List.forall₂_same.mpr fun f _ => .refl f
  exact ⟨rfl,List.rel_append (hrefl _) (.cons ⟨rfl,rfl,Stmt.Site.fill_refines h S.site⟩ (hrefl _))⟩

end

namespace Run
variable {α β : Type} {xs ys : List String} {m m' : Machine} {scope : Nat}
  {R : Function → Function → Prop} {E : RunError → Prop}

/-- A lost error, or the same result in machines that are alike. -/
def EndsRefined (E : RunError → Prop) (R : Function → Function → Prop)
    (r r' : EStateM.Result Halt Machine α) : Prop :=
  Lost E r ∨ EndsAlike R r r'

namespace EndsRefined

lemma ok {a : α} (h : m.Alike R m') : EndsRefined E R (.ok a m) (.ok a m') := .inr (.ok h)

lemma error {e : Halt} (h : m.Alike R m') :
    EndsRefined E R (.error e m : EStateM.Result Halt Machine α) (.error e m') := .inr (.error h)

lemma bind {x y : Run α} {k l : α → Run β} (h : EndsRefined E R (x m) (y m'))
    (hk : ∀ a n n', x m = .ok a n → y m' = .ok a n' → n.Alike R n' →
      EndsRefined E R (k a n) (l a n')) :
    EndsRefined E R ((x >>= k) m) ((y >>= l) m') := by
  rcases h with hlost | h
  · exact .inl hlost.bind
  · generalize hx : x m = r at h
    generalize hy : y m' = r' at h
    cases h with
    | ok hn =>
      rw [bind_ok hx,bind_ok hy]
      exact hk _ _ _ hx hy hn
    | error hn =>
      rw [bind_error hx,bind_error hy]
      exact .error hn

lemma child {body body' : Nat → Run α} (hm : m.Reachable) (hm' : m'.Reachable)
    (ho : m.environment.isOpen scope) (hw : m.Alike R m')
    (hb : ∀ n n' inner, n.Reachable → n'.Reachable → n.environment.isOpen inner → n.Alike R n' →
      EndsRefined E R (body inner n) (body' inner n')) :
    EndsRefined E R (inChild scope body m) (inChild scope body' m') := by
  have ho' := (hw.environment.isOpen_eq scope).symm.trans ho
  have hin : (m.environment.inner scope).isOpen m.environment.depth = true :=
    Environment.isOpen_inner_depth _ _
  have hbody := hb _ _ _ (hm.opened ho) (hm'.opened ho') hin
    ⟨hw.prelude,hw.environment.inner .empty scope,hw.sink⟩
  rw [inChild_eq ho,inChild_eq ho',← hw.environment.depth_eq]
  rcases hbody with hlost | hbody
  · exact .inl (hlost.closing _)
  · generalize body _ _ = r at hbody ⊢
    generalize body' _ _ = r' at hbody ⊢
    cases hbody with
    | ok h => exact .ok ⟨h.prelude,h.environment.pop _,h.sink⟩
    | error h => exact .error ⟨h.prelude,h.environment.pop _,h.sink⟩

/-- The second of two runs in machines that are alike, replaced by one whose result it gives. -/
lemma replace {r r' r'' : EStateM.Result Halt Machine α} (h : EndsRefined E R r r')
    (hr : Lost E r' ∨ r' = r'') : EndsRefined E R r r'' := by
  rcases h with hlost | h
  · exact .inl hlost
  · rcases hr with hlost | rfl
    · cases hlost with
      | error he =>
        cases h with
        | error _ => exact .inl (.error he)
    · exact .inr h

end EndsRefined

/-- What runs in a scope ends in the same way in machines whose functions give the results of one
another. -/
structure Matched (E : RunError → Prop) (names : List String) (x : Nat → Run α) : Prop where
  keeps : Keeps names x
  alike : ∀ m m' scope, m.Reachable → m'.Reachable → m.environment.isOpen scope →
    m.Alike (Function.Refines E) m' → EndsRefined E (Function.Refines E) (x scope m) (x scope m')

namespace Matched

lemma seq {x : Nat → Run α} {k : α → Nat → Run β} (hx : Matched E xs x)
    (hk : ∀ a, Matched E ys (k a)) : Matched E (xs ++ ys) fun scope => x scope >>= fun a => k a scope := by
  refine ⟨keeps_rules.seq hx.keeps fun a => (hk a).keeps,fun m m' scope hm hm' ho hw => ?_⟩
  have ho' := (hw.environment.isOpen_eq scope).symm.trans ho
  refine (hx.alike m m' scope hm hm' ho hw).bind fun a n n' hr hr' hn => ?_
  obtain ⟨hm₁,ho₁⟩ := (hx.keeps m scope hm ho).next ho hr
  obtain ⟨hm₁',_⟩ := (hx.keeps m' scope hm' ho').next ho' hr'
  exact (hk a).alike n n' scope hm₁ hm₁' ho₁ hn

end Matched

theorem matched_steps : Steps (fun _ => True) (Matched E) where
  give a := ⟨keeps_rules.give a,fun _ _ _ _ _ _ hw => .ok hw⟩
  stop := ⟨keeps_rules.stop,fun _ _ _ _ _ _ hw => .error hw⟩
  fail h := ⟨keeps_rules.fail h,fun _ _ _ _ _ _ hw => .error hw⟩
  seq hx hk := .seq hx hk
  widen hx h := ⟨keeps_rules.widen hx.keeps h,hx.alike⟩
  look _ := ⟨keeps_rules.look _,fun m m' scope _ _ _ hw => .inr (Alike.lookupVariable scope _ m m' hw)⟩
  define x v mutable := ⟨keeps_rules.define x v mutable,fun m m' scope _ _ _ hw =>
    .inr (Alike.defineVariable scope x v mutable m m' hw)⟩
  assign _ index v := ⟨keeps_rules.assign _ index v,fun m m' scope _ _ _ hw =>
    .inr (Alike.assign scope _ index v m m' hw)⟩
  child hb := ⟨keeps_rules.child hb.keeps,fun _ _ _ hm hm' ho hw => .child hm hm' ho hw hb.alike⟩

/-- Calls end in the same way although other bodies run: those give their results, in every state. -/
theorem matched_calls (fuel : Nat) : Steps.Calls (Matched E) (Run.call fuel) := by
  induction fuel with
  | zero => exact fun _ _ => matched_steps.stop
  | succ fuel ih =>
    intro f vs
    refine ⟨keeps_rules.calls (fuel + 1) f vs,fun m m' scope hm hm' ho hw => ?_⟩
    have hl := hw.lookupFunction_agree scope f vs.length
    simp only [Run.call]
    generalize hx : m.environment.lookupFunction scope f vs.length = r at hl
    generalize hy : m'.environment.lookupFunction scope f vs.length = r' at hl
    cases hl with
    | error e =>
      rw [bind_error (lookupFunction_error hx),bind_error (lookupFunction_error hy)]
      exact .error hw
    | @ok c c' hc =>
      rw [bind_ok (lookupFunction_ok hx),bind_ok (lookupFunction_ok hy)]
      have hhome := Disciplined.home_of_lookupFunction hm hx
      cases hc with
      | print => exact .inr (Alike.print vs m m' hw)
      | @declared g g' home hg =>
        obtain rfl : home = Environment.root := hhome
        dsimp only
        rw [← hg.parameters]
        refine .child hm hm' hm.nested.isOpen_root hw fun n n' inner hn hn' hi hnw => ?_
        have hdefine := matched_steps (E := E).defineAll (g.parameters.zip vs)
        have hi' := (hnw.environment.isOpen_eq inner).symm.trans hi
        refine (hdefine.alike n n' inner hn hn' hi hnw).bind fun _ n₁ n₁' hr hr' h₁ => ?_
        obtain ⟨hn₁,hi₁⟩ := (hdefine.keeps n inner hn hi).next hi hr
        obtain ⟨hn₁',hi₁'⟩ := (hdefine.keeps n' inner hn' hi').next hi' hr'
        -- the first body in both machines, and then the second in place of the first
        have hbody := (matched_steps.executeBlock ih fuel g.body fun _ _ => trivial).alike n₁ n₁' inner
          hn₁ hn₁' hi₁ h₁
        refine (hbody.replace (hg.body fuel fuel n₁' inner hn₁' hi₁')).bind fun completion _ _ _ _ h => ?_
        cases completion <;> exact .ok h

variable (hm : m.Reachable) (hm' : m'.Reachable) (fuel : Nat)
include hm hm'

section
variable (hw : m.Alike (Function.Refines E) m')
include hw

lemma loadGlobals_refined (gs : List Global) :
    EndsRefined E (Function.Refines E) (loadGlobals fuel gs m) (loadGlobals fuel gs m') := by
  induction gs generalizing m m' with
  | nil => exact .ok hw
  | cons g gs ih =>
    have hv := (matched_steps (E := E)).seq (matched_steps.evaluateInitial (matched_calls fuel) g.value
      fun _ _ => trivial) fun v => matched_steps.define g.name v g.mutable
    have ho := hm.nested.isOpen_root
    have ho' := hm'.nested.isOpen_root
    have hbind := (hv.alike m m' Environment.root hm hm' ho hw).bind (k := fun _ => loadGlobals fuel gs)
      (l := fun _ => loadGlobals fuel gs) fun _ n n' hr hr' hn =>
        ih ((hv.keeps m Environment.root hm ho).next ho hr).1
          ((hv.keeps m' Environment.root hm' ho').next ho' hr').1 hn
    simpa only [loadGlobals,bind_assoc] using hbind

lemma load_refined {p q : Program} (h : p.Refines E q) :
    EndsRefined E (Function.Refines E) (load fuel p m) (load fuel q m') := by
  have hfresh : Machine.Alike (Function.Refines E) { m with environment := .ofRoot m.prelude }
      { m' with environment := .ofRoot m'.prelude } := ⟨hw.prelude,.ofRoot hw.prelude,hw.sink⟩
  have hglobals := loadGlobals_refined hm.reset hm'.reset fuel hfresh p.globals
  unfold load
  rw [← h.globals]
  refine EndsRefined.bind (x := modify _) (y := modify _) (.ok hfresh) fun _ n n' hr hr' _ => ?_
  cases hr
  cases hr'
  exact hglobals.bind fun _ n n' _ _ hn => .inr
    (loadFunctions_alike (fun _ _ h => h.name) (fun _ _ h => h.parameters) h.functions n n' hn)

lemma invoke_refined (f : String) (vs : List Value) :
    EndsRefined E (Function.Refines E) (invoke fuel f vs m) (invoke fuel f vs m') :=
  (matched_calls fuel f vs).alike m m' Environment.root hm hm' hm.nested.isOpen_root hw

lemma program_refined {p q : Program} (h : p.Refines E q) :
    EndsRefined E (Function.Refines E) (program fuel p m) (program fuel q m') := by
  refine (load_refined hm hm' fuel hw h).bind fun _ n n' hr hr' hn => ?_
  have hs := (load_settled hm fuel p).reachable
  have hs' := (load_settled hm' fuel q).reachable
  rw [hr] at hs
  rw [hr'] at hs'
  exact invoke_refined hs hs' fuel hn "main" []

end
end Run

/-! ### Programs that do the same -/

/-- The same name and parameters, and bodies that do the same. -/
structure Function.Same (f f' : Function) : Prop where
  name : f.name = f'.name
  parameters : f.parameters = f'.parameters
  body : Stmt.BlocksSame f.body f'.body

lemma Function.Same.refl (f : Function) : f.Same f := ⟨rfl,rfl,.refl _⟩

/-- Functions do the same where one gives the results of the other and no error is lost. -/
lemma Function.same_eq : Function.Same = Function.Refines fun _ => False := by
  funext f f'
  apply propext
  constructor
  · exact fun h => ⟨h.name,h.parameters,h.body.refines _⟩
  · exact fun h => ⟨h.name,h.parameters,.of_refines h.body⟩

/-- The same globals, and functions that do the same in the same order. -/
structure Program.Same (p q : Program) : Prop where
  globals : p.globals = q.globals
  functions : List.Forall₂ Function.Same p.functions q.functions

lemma Program.Same.refl (p : Program) : p.Same p :=
  ⟨rfl,List.forall₂_same.mpr fun f _ => .refl f⟩

lemma Program.Same.refines {p q : Program} (h : p.Same q) : p.Refines (fun _ => False) q :=
  ⟨h.globals,Function.same_eq ▸ h.functions⟩

/-- Blocks that do the same are the same in every place in a program. -/
theorem Program.Site.fill_same {ss ss' : List Stmt} (h : Stmt.BlocksSame ss ss') (S : Program.Site) :
    (S.fill ss).Same (S.fill ss') := by
  have hrefines := S.fill_refines (h.refines fun _ => False)
  exact ⟨hrefines.globals,Function.same_eq ▸ hrefines.functions⟩

namespace Run
variable {α : Type} {m m' : Machine}

lemma EndsRefined.alike {R : Function → Function → Prop} {r r' : EStateM.Result Halt Machine α}
    (h : EndsRefined (fun _ => False) R r r') : EndsAlike R r r' := by
  rcases h with hlost | h
  · cases hlost with
    | error h => exact h.elim
  · exact h

lemma EndsAlike.refined {R : Function → Function → Prop} {r r' : EStateM.Result Halt Machine α}
    (h : EndsAlike R r r') : EndsRefined (fun _ => False) R r r' := .inr h

variable (hm : m.Reachable) (hm' : m'.Reachable) (hw : m.Alike Function.Same m') (fuel : Nat)
include hm hm' hw

lemma load_matched {p q : Program} (h : p.Same q) :
    EndsAlike Function.Same (load fuel p m) (load fuel q m') := by
  rw [Function.same_eq] at hw ⊢
  exact (load_refined hm hm' fuel hw h.refines).alike

lemma invoke_matched (f : String) (vs : List Value) :
    EndsAlike Function.Same (invoke fuel f vs m) (invoke fuel f vs m') := by
  rw [Function.same_eq] at hw ⊢
  exact (invoke_refined hm hm' fuel hw f vs).alike

lemma program_matched {p q : Program} (h : p.Same q) :
    EndsAlike Function.Same (program fuel p m) (program fuel q m') := by
  rw [Function.same_eq] at hw ⊢
  exact (program_refined hm hm' fuel hw h.refines).alike

end Run

/-- The value that a request comes to; loading a program gives none. -/
def Request.answer : Request → Run Value
  | load fuel p => do
    Run.load fuel p
    return .nil
  | run fuel p => Run.program fuel p
  | invoke fuel f vs => Run.invoke fuel f vs

/-- The variables of the root with their values. -/
def Machine.globals (m : Machine) : List (Binding Value) :=
  m.environment.scopes[Environment.root]?.elim [] (·.frame.bindings)

/-- What can be seen after a request: its value or error, all that was printed and the globals. -/
structure Answer where
  outcome : Except Halt Value
  sink : Sink
  globals : List (Binding Value)

/-- The answers to some requests; one that failed is followed by the next. -/
def Machine.answers (m : Machine) : List Request → List Answer
  | [] => []
  | request :: requests =>
    let r := request.answer m
    ⟨Run.outcome r,(Run.left r).sink,(Run.left r).globals⟩ :: (Run.left r).answers requests

/-- The same request, or one for another program. -/
inductive Request.Swaps (p q : Program) : Request → Request → Prop
  | same (request : Request) : Swaps p q request request
  | load (fuel : Nat) : Swaps p q (.load fuel p) (.load fuel q)
  | run (fuel : Nat) : Swaps p q (.run fuel p) (.run fuel q)

lemma Request.answer_settled {m : Machine} (hm : m.Reachable) (hd : m.environment.depth = 1)
    (request : Request) : Run.Settled (request.answer m) := by
  cases request with
  | load fuel p => exact (Run.load_settled hm fuel p).bind fun _ _ hm' hd' => .ok hm' hd' Value.nil
  | run fuel p => exact Run.program_settled hm fuel p
  | invoke fuel f vs => exact Run.invoke_settled hm fuel hd f vs

lemma Request.answer_matched {m m' : Machine} {p q : Program} {request request' : Request}
    (hr : Request.Swaps p q request request') (h : p.Same q) (hm : m.Reachable) (hm' : m'.Reachable)
    (hw : m.Alike Function.Same m') :
    Run.EndsAlike Function.Same (request.answer m) (request'.answer m') := by
  cases hr with
  | load fuel =>
    exact ((Run.load_matched hm hm' hw fuel h).refined.bind fun _ _ _ _ _ hn => .ok hn).alike
  | run fuel => exact Run.program_matched hm hm' hw fuel h
  | same request =>
    cases request with
    | load fuel p =>
      exact ((Run.load_matched hm hm' hw fuel (.refl p)).refined.bind fun _ _ _ _ _ hn => .ok hn).alike
    | run fuel p => exact Run.program_matched hm hm' hw fuel (.refl p)
    | invoke fuel f vs => exact Run.invoke_matched hm hm' hw fuel f vs

lemma Machine.Alike.globals {R : Function → Function → Prop} {m m' : Machine} (h : m.Alike R m') :
    m.globals = m'.globals := by
  have hr := h.environment Environment.root
  unfold Machine.globals
  generalize m.environment.scopes[Environment.root]? = s at hr
  generalize m'.environment.scopes[Environment.root]? = s' at hr
  cases hr with
  | none => rfl
  | some hs => exact hs.2.bindings

lemma Machine.answers_matched {m m' : Machine} {p q : Program} (h : p.Same q)
    {requests requests' : List Request} (hr : List.Forall₂ (Request.Swaps p q) requests requests')
    (hm : m.Reachable) (hm' : m'.Reachable) (hd : m.environment.depth = 1)
    (hw : m.Alike Function.Same m') : m.answers requests = m'.answers requests' := by
  induction hr generalizing m m' with
  | nil => rfl
  | @cons request request' requests requests' hr _ ih =>
    have hd' := hw.environment.depth_eq.symm.trans hd
    have hs := request.answer_settled hm hd
    have hs' := request'.answer_settled hm' hd'
    have he := Request.answer_matched hr h hm hm' hw
    simp only [Machine.answers]
    generalize request.answer m = r at hs he ⊢
    generalize request'.answer m' = r' at hs' he ⊢
    cases he with
    | ok hn =>
      rw [ih hs.reachable hs'.reachable hs.depth hn]
      simp only [Run.outcome,Run.left,hn.sink,hn.globals]
    | error hn =>
      rw [ih hs.reachable hs'.reachable hs.depth hn]
      simp only [Run.outcome,Run.left,hn.sink,hn.globals]

/-- The names from outside go with themselves. -/
lemma Frame.Alike.refl {R : Function → Function → Prop} (hR : ∀ f, R f f) (f : Frame Value Callable) :
    Frame.Alike R f f := by
  refine ⟨rfl,fun name arity => ?_⟩
  cases f.findFunction name arity with
  | none => exact .none
  | some c =>
    cases c with
    | print => exact .some .print
    | declared g home => exact .some (.declared home (hR g))

/-- Programs that do the same give the same answers, whatever the machine is asked for before, between
and after them. -/
theorem Program.Same.answers_eq {p q : Program} (h : p.Same q) {requests requests' : List Request}
    (hr : List.Forall₂ (Request.Swaps p q) requests requests') {prelude : Frame Value Callable}
    (hp : prelude.Rooted) (sink : Sink) :
    (Machine.new prelude sink).answers requests = (Machine.new prelude sink).answers requests' := by
  have hf : Frame.Alike Function.Same prelude prelude := .refl .refl prelude
  exact Machine.answers_matched h hr (.start hp) (.start hp) rfl ⟨hf,.ofRoot hf,rfl⟩

end BlockScript
