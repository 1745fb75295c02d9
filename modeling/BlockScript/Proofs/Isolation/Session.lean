import BlockScript.Proofs.Isolation.Discipline
/-! What a machine is asked for, one request after the other: whether a request succeeds or fails,
only the root is open after it. -/
namespace BlockScript

/-- Something that a machine is asked to do from outside. -/
inductive Request where
  | load (fuel : Nat) (program : Program)
  | run (fuel : Nat) (program : Program)
  | invoke (fuel : Nat) (function : String) (arguments : List Value)

def Request.perform : Request → Run Unit
  | load fuel p => Run.load fuel p
  | run fuel p => do let _ ← Run.program fuel p
  | invoke fuel f vs => do let _ ← Run.invoke fuel f vs

/-- The machine after some requests; one that failed is followed by the next. -/
def Machine.serve (m : Machine) (requests : List Request) : Machine :=
  requests.foldl (fun m request => Run.left (request.perform m)) m

namespace Run
variable {α β : Type} {xs : List String} {m : Machine}

/-- The root is the one open scope, and no step was given a scope that is not open. -/
structure Settled (r : EStateM.Result Halt Machine α) : Prop where
  reachable : (left r).Reachable
  depth : (left r).environment.depth = 1
  inScope : ∀ i, outcome r ≠ .error (.failed (.scope (.closedScope i)))

namespace Settled

lemma ok (hm : m.Reachable) (hd : m.environment.depth = 1) (a : α) : Settled (.ok a m) := by
  refine ⟨hm,hd,fun i h => ?_⟩
  cases h

lemma of_disciplined {r : EStateM.Result Halt Machine α} (hd : m.environment.depth = 1)
    (h : Disciplined Environment.root xs m r) : Settled r :=
  ⟨h.reachable,h.grows.depth_eq.trans hd,h.inScope⟩

lemma bind {x : Run α} {k : α → Run β} (hx : Settled (x m))
    (hk : ∀ a m', m'.Reachable → m'.environment.depth = 1 → Settled (k a m')) :
    Settled ((x >>= k) m) := by
  obtain ⟨hr,hd,hs⟩ := hx
  cases h : x m with
  | ok a m' =>
    rw [h] at hr hd
    rw [bind_ok h]
    exact hk a m' hr hd
  | error e m' =>
    rw [h] at hr hd hs
    rw [bind_error h]
    refine ⟨hr,hd,fun i => ?_⟩
    simpa [outcome] using hs i

end Settled

variable (hm : m.Reachable) (fuel : Nat)
include hm

lemma loadGlobals_disciplined (gs : List Global) :
    Disciplined Environment.root (gs.map Global.name) m (loadGlobals fuel gs m) := by
  induction gs generalizing m with
  | nil => exact .same hm ()
  | cons g gs ih =>
    have hv := keeps_rules.evaluateInitial (keeps_rules.calls fuel) g.value m Environment.root hm
      hm.nested.isOpen_root
    refine hv.bind hm.nested.isOpen_root fun v m' hm' ho' => ?_
    exact (Disciplined.define hm' ho' g.name v g.mutable).bind ho' fun _ m' hm' _ => ih hm'

omit fuel in
lemma loadFunctions_settled (hd : m.environment.depth = 1) (fs : List Function) :
    Settled (loadFunctions fs m) := by
  induction fs generalizing m with
  | nil => exact .ok hm hd ()
  | cons f fs ih =>
    refine Settled.bind ?_ fun _ m' hm' hd' => ih hm' hd'
    cases h : m.environment.defineFunction Environment.root f.name f.arity
        (.declared f Environment.root) with
    | error e =>
      rw [updateEnvironment_error h]
      refine ⟨hm,hd,fun i he => ?_⟩
      cases he
      exact Environment.defineFunction_ne_closed hm.nested.isOpen_root _ _ _ i h
    | ok env =>
      rw [updateEnvironment_ok h]
      refine .ok (hm.declared h) ?_ ()
      obtain ⟨s,_,_,rfl⟩ := Environment.defineFunction_eq_ok.mp h
      simpa [Environment.setFrame,Environment.depth] using hd

lemma load_settled (p : Program) : Settled (load fuel p m) := by
  have hm := hm.reset
  have hg := loadGlobals_disciplined hm fuel p.globals
  exact (Settled.of_disciplined rfl hg).bind fun _ m' hm' hd' =>
    loadFunctions_settled hm' hd' p.functions

lemma invoke_settled (hd : m.environment.depth = 1) (f : String) (vs : List Value) :
    Settled (invoke fuel f vs m) :=
  .of_disciplined hd (keeps_rules.calls fuel f vs m Environment.root hm hm.nested.isOpen_root)

lemma program_settled (p : Program) : Settled (program fuel p m) :=
  (load_settled hm fuel p).bind fun _ _ hm' hd' => invoke_settled hm' fuel hd' "main" []

end Run

lemma Request.perform_settled {m : Machine} (hm : m.Reachable) (hd : m.environment.depth = 1)
    (request : Request) : Run.Settled (request.perform m) := by
  cases request with
  | load fuel p => exact Run.load_settled hm fuel p
  | run fuel p => exact (Run.program_settled hm fuel p).bind fun _ m' hm' hd' => .ok hm' hd' ()
  | invoke fuel f vs =>
    exact (Run.invoke_settled hm fuel hd f vs).bind fun _ m' hm' hd' => .ok hm' hd' ()

lemma Machine.serve_settled {m : Machine} (hm : m.Reachable) (hd : m.environment.depth = 1)
    (requests : List Request) :
    (m.serve requests).Reachable ∧ (m.serve requests).environment.depth = 1 := by
  induction requests generalizing m with
  | nil => exact ⟨hm,hd⟩
  | cons request requests ih =>
    have h := request.perform_settled hm hd
    exact ih h.reachable h.depth

namespace Run

/-- Scope discipline. What runs in an open scope leaves every scope as it was, but for the values of
mutable variables and a name that it declares in its own, whether it succeeds, returns or fails; and
whatever a machine was asked for, only its root is open. -/
theorem runs_keep_scopes :
    (∀ (m : Machine) (scope fuel : Nat), m.Reachable → m.environment.isOpen scope = true →
      (∀ e, Disciplined scope [] m (Expr.evaluate (Run.call fuel) scope e m)) ∧
      (∀ rounds s, Disciplined scope s.declares m (Stmt.execute (Run.call fuel) rounds scope s m)) ∧
      (∀ rounds ss, Disciplined scope (ss.flatMap Stmt.declares) m
        (Stmt.executeBlock (Run.call fuel) rounds scope ss m)) ∧
      ∀ f vs, Disciplined scope [] m (Run.call fuel scope f vs m)) ∧
    ∀ (prelude : Frame Value Callable) (sink : Sink), prelude.Rooted →
      ∀ (requests : List Request) (request : Request),
        ((Machine.new prelude sink).serve requests).Reachable ∧
        ((Machine.new prelude sink).serve requests).environment.depth = 1 ∧
        Settled (request.perform ((Machine.new prelude sink).serve requests)) := by
  constructor
  · intro m scope fuel hm ho
    have hc := keeps_rules.calls fuel
    exact ⟨fun e => keeps_rules.evaluate hc e m scope hm ho,
      fun rounds s => keeps_rules.execute hc rounds s m scope hm ho,
      fun rounds ss => keeps_rules.executeBlock hc rounds ss m scope hm ho,
      fun f vs => hc f vs m scope hm ho⟩
  · intro prelude sink hp requests request
    obtain ⟨hm,hd⟩ := Machine.serve_settled (m := .new prelude sink) (.start hp) rfl requests
    exact ⟨hm,hd,request.perform_settled hm hd⟩

lemma standardNames_rooted : Machine.standardNames.Rooted := by
  refine ⟨List.nodup_nil,fun e he => ?_⟩
  obtain rfl := List.mem_singleton.mp he
  rfl

/-- A block that fails before its variable is defined. -/
def failingBlock : Stmt :=
  .ifElse (.literal (.boolean true) none)
    [.declaration "x" none (some (.binary .divide (.literal (.integer 1) none)
      (.literal (.integer 0) none) none)) none] []

theorem runs_keep_scopes_division :
    let m := Machine.new Machine.standardNames (.new none true)
    Machine.standardNames.Rooted ∧ m.Reachable ∧ m.environment.isOpen Environment.root = true ∧
    outcome (failingBlock.execute (Run.call 1) 1 Environment.root m) =
      .error (.failed .divisionByZero) ∧
    Disciplined Environment.root failingBlock.declares m
      (failingBlock.execute (Run.call 1) 1 Environment.root m) ∧
    Settled ((Request.invoke 1 "f" []).perform (m.serve [.load 1 ⟨[],[]⟩])) := by
  have hm : (Machine.new Machine.standardNames (.new none true)).Reachable :=
    .start standardNames_rooted
  have hblock := (runs_keep_scopes.1 _ Environment.root 1 hm rfl).2.1 1 failingBlock
  have hcall := (runs_keep_scopes.2 Machine.standardNames (.new none true) standardNames_rooted
    [.load 1 ⟨[],[]⟩] (.invoke 1 "f" [])).2.2
  exact ⟨standardNames_rooted,hm,rfl,rfl,hblock,hcall⟩

end Run
end BlockScript
