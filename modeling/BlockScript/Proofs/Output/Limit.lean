import BlockScript.Proofs.Isolation.Session
import BlockScript.Proofs.Output.Sink
import BlockScript.Script
/-! A run on a sink with a limit does what the run on an unlimited sink does, up to the write that
passes the limit; there it stops. -/
namespace BlockScript

/-- The machine whose sink has a limit. -/
def Machine.limit (k : Nat) (m : Machine) : Machine := { m with sink := m.sink.limit k }

namespace Run
variable {α β : Type} {scope k : Nat} {xs ys : List String} {m m' : Machine}

/-- What a run comes to when its sink has a limit. -/
inductive Limited (k : Nat) : EStateM.Result Halt Machine α → EStateM.Result Halt Machine α → Prop
  | ok {a m} (h : m.sink.taken.length ≤ k) : Limited k (.ok a m) (.ok a (m.limit k))
  | error {e m} (h : m.sink.taken.length ≤ k) : Limited k (.error e m) (.error e (m.limit k))
  /-- The text is longer than the limit: its first bytes are written and the run stops. -/
  | full {r m'} (h : k < (left r).sink.taken.length) (hm : m'.sink = (left r).sink.limit k) :
    Limited k r (.error (.failed .output) m')

/-- A run that only adds to what was printed, and is cut short by every limit on it. -/
structure Cuts (m : Machine) (x : Run α) : Prop where
  grows : m.sink.Grows (left (x m)).sink
  limited : ∀ k, m.sink.taken.length ≤ k → Limited k (x m) (x (m.limit k))

namespace Cuts

/-- Nothing is printed, whatever the sink is. -/
lemma silent {x : Run α} (h : m.sink.room = none) (hs : (left (x m)).sink = m.sink)
    (hc : ∀ k, x (m.limit k) = match x m with
      | .ok a m' => .ok a (m'.limit k)
      | .error e m' => .error e (m'.limit k)) : Cuts m x := by
  refine ⟨by rw [hs]; exact .refl h,fun k hk => ?_⟩
  rw [hc k]
  cases hx : x m with
  | ok a m' =>
    rw [hx] at hs
    exact .ok (hs ▸ hk)
  | error e m' =>
    rw [hx] at hs
    exact .error (hs ▸ hk)

lemma bind {x : Run α} {f : α → Run β} (hx : Cuts m x)
    (hf : ∀ a m', x m = .ok a m' → Cuts m' (f a)) : Cuts m (x >>= f) := by
  obtain ⟨hg,hl⟩ := hx
  cases h : x m with
  | error e m' =>
    rw [h] at hg hl
    refine ⟨by rwa [bind_error h],fun k hk => ?_⟩
    rw [bind_error h]
    cases hk' : x (m.limit k) with
    | ok a m'' => exact absurd (hk' ▸ hl k hk) nofun
    | error e' m'' =>
      rw [bind_error hk']
      cases hk' ▸ hl k hk with
      | error h => exact .error h
      | full h hm => exact .full h hm
  | ok a m' =>
    rw [h] at hg hl
    obtain ⟨hg',hl'⟩ := hf a m' h
    refine ⟨by rw [bind_ok h]; exact hg.trans hg',fun k hk => ?_⟩
    rw [bind_ok h]
    cases hk' : x (m.limit k) with
    | ok a' m'' =>
      rw [bind_ok hk']
      cases hk' ▸ hl k hk with
      | ok h => exact hl' k h
    | error e m'' =>
      rw [bind_error hk']
      cases hk' ▸ hl k hk with
      | full h hm =>
        -- what follows only adds to a text that is too long already
        exact .full (Nat.lt_of_lt_of_le h hg'.length_le)
          (hm.trans (hg'.limit_eq (Nat.le_of_lt h)).symm)

lemma update (h : m.sink.room = none)
    (change : Environment Value Callable → Except NameError (Environment Value Callable)) :
    Cuts m (updateEnvironment change) := by
  cases hc : change m.environment with
  | ok env =>
    refine silent h ?_ fun k => ?_
    · rw [updateEnvironment_ok hc]
      rfl
    · rw [updateEnvironment_ok hc,updateEnvironment_ok (m := m.limit k) hc]
      rfl
  | error e =>
    refine silent h ?_ fun k => ?_
    · rw [updateEnvironment_error hc]
      rfl
    · rw [updateEnvironment_error hc,updateEnvironment_error (m := m.limit k) hc]

lemma lookupVariable (h : m.sink.room = none) (scope : Nat) (x : String) :
    Cuts m (Run.lookupVariable scope x) := by
  cases hl : m.environment.lookupVariable scope x with
  | ok b =>
    refine silent h ?_ fun k => ?_
    · rw [lookupVariable_ok hl]
      rfl
    · rw [lookupVariable_ok hl,lookupVariable_ok (m := m.limit k) hl]
  | error e =>
    refine silent h ?_ fun k => ?_
    · rw [lookupVariable_error hl]
      rfl
    · rw [lookupVariable_error hl,lookupVariable_error (m := m.limit k) hl]

lemma give (h : m.sink.room = none) (a : α) : Cuts m (pure a : Run α) := silent h rfl fun _ => rfl

lemma fail (h : m.sink.room = none) (e : RunError) : Cuts m (Run.fail e : Run α) :=
  silent h rfl fun _ => rfl

lemma ofResult (h : m.sink.room = none) (r : Except RunError α) : Cuts m (Run.ofResult r) := by
  cases r with
  | ok a => exact give h a
  | error e => exact fail h e

lemma room (hx : Cuts m (x : Run α)) {a : α} (h : x m = .ok a m') : m'.sink.room = none := by
  have hg := hx.grows
  rw [h] at hg
  exact hg.unbounded

lemma assign (h : m.sink.room = none) (scope : Nat) (x : String) (index : Option Value)
    (v : Value) : Cuts m (Run.assign scope x index v) := by
  have hl := lookupVariable h scope x
  refine hl.bind fun b m' hb => ?_
  have h' := hl.room hb
  split
  · cases index with
    | none => exact (give h' v).bind fun new m'' hn =>
        update ((give h' v).room hn) (·.writeVariable scope x new)
    | some i =>
      have hs := ofResult h' (b.value.setElement i v)
      exact hs.bind fun new m'' hn => update (hs.room hn) (·.writeVariable scope x new)
  · exact fail h' _

/-- The step that prints is the one that a limit can stop. -/
lemma print (h : m.sink.room = none) (vs : List Value) : Cuts m (Run.print vs) := by
  have hall (s : Sink) := s.writeAll_eq
    (vs.flatMap fun v : Value => [Sink.bytesOf v.render,Sink.bytesOf "\n"])
  generalize (vs.flatMap fun v : Value =>
    [Sink.bytesOf v.render,Sink.bytesOf "\n"]).flatten = bytes at hall
  obtain ⟨sink,hs⟩ : ∃ sink, m.sink.write bytes = (sink,true) := ⟨_,Sink.write_none h bytes⟩
  have hm : Run.print vs m = .ok .nil { m with sink := sink } := print_eq ((hall m.sink).trans hs)
  have hg : m.sink.Grows (m.sink.write bytes).1 := .write h bytes
  refine ⟨by rw [hm]; rwa [hs] at hg,fun k hk => ?_⟩
  have hl := Sink.write_limit h hk bytes
  rw [hs] at hl
  rw [hm,print_eq (m := m.limit k) ((hall _).trans hl)]
  by_cases hfit : sink.taken.length ≤ k
  · rw [decide_eq_true hfit,if_pos rfl]
    exact .ok hfit
  · rw [decide_eq_false hfit,if_neg Bool.false_ne_true]
    exact .full (Nat.lt_of_not_le hfit) rfl

lemma child {parent : Nat} {body : Nat → Run α} (h : m.sink.room = none)
    (hb : m.environment.isOpen parent → Cuts { m with environment := m.environment.inner parent }
      (body m.environment.depth)) : Cuts m (inChild parent body) := by
  by_cases ho : m.environment.isOpen parent = true
  · obtain ⟨hg,hl⟩ := hb ho
    have hin (m₁ : Machine) (he : m₁.environment = m.environment) : inChild parent body m₁ =
        match body m.environment.depth { m₁ with environment := m.environment.inner parent } with
        | .ok a m => .ok a { m with environment := m.environment.pop m₁.environment.depth }
        | .error e m => .error e { m with environment := m.environment.pop m₁.environment.depth } := by
      unfold inChild
      rewrite [he,Environment.push_eq_ok ho]
      rfl
    refine ⟨?_,fun k hk => ?_⟩
    · rw [hin m rfl]
      cases hr : body m.environment.depth { m with environment := m.environment.inner parent } <;>
      · rw [hr] at hg
        exact hg
    · have hk := hl k hk
      rw [hin m rfl,hin (m.limit k) rfl]
      change Limited k _ (match body m.environment.depth
        (Machine.limit k { m with environment := m.environment.inner parent }) with
        | .ok a m₁ => .ok a { m₁ with environment := m₁.environment.pop m.environment.depth }
        | .error e m₁ => .error e { m₁ with environment := m₁.environment.pop m.environment.depth })
      generalize body m.environment.depth { m with environment := m.environment.inner parent } = r
        at hk
      generalize body m.environment.depth
        (Machine.limit k { m with environment := m.environment.inner parent }) = r' at hk
      cases hk with
      | ok h => exact .ok h
      | error h => exact .error h
      | full h hm => cases r <;> exact .full h hm
  · have hp (m₁ : Machine) (he : m₁.environment = m.environment) : inChild parent body m₁ =
        .error (.failed (.scope (.closedScope parent))) m₁ := by
      unfold inChild
      rw [he,Environment.push,if_neg ho]
    exact silent h (by rw [hp m rfl]; rfl) fun k => by rw [hp m rfl,hp (m.limit k) rfl]

/-- A call finds the same function and cuts its body short. -/
lemma called (hm : m.Reachable) (h : m.sink.room = none) (f : String) (arity : Nat)
    {body : Function → Nat → Run α} {k : Callable → Run α} (hp : Cuts m (k .print))
    (hd : ∀ g, k (.declared g Environment.root) = inChild Environment.root (body g))
    (hb : ∀ g, Cuts m (inChild Environment.root (body g))) :
    Cuts m (Run.lookupFunction scope f arity >>= k) := by
  cases hl : m.environment.lookupFunction scope f arity with
  | error e =>
    have he (m₁ : Machine) (hm₁ : m₁.environment = m.environment) :
        (Run.lookupFunction scope f arity >>= k) m₁ = .error (.failed (.scope e)) m₁ :=
      bind_error (lookupFunction_error (hm₁ ▸ hl)) k
    exact silent h (by rw [he m rfl]; rfl) fun n => by rw [he m rfl,he (m.limit n) rfl]
  | ok c =>
    have hk : Cuts m (k c) := by
      have hc := Disciplined.home_of_lookupFunction hm hl
      cases c with
      | print => exact hp
      | declared g home =>
        obtain rfl : home = Environment.root := hc
        rw [hd]
        exact hb g
    have hok (m₁ : Machine) (hm₁ : m₁.environment = m.environment) :
        (Run.lookupFunction scope f arity >>= k) m₁ = k c m₁ :=
      bind_ok (lookupFunction_ok (hm₁ ▸ hl)) k
    refine ⟨by rw [hok m rfl]; exact hk.grows,fun n hn => ?_⟩
    rw [hok m rfl,hok (m.limit n) rfl]
    exact hk.limited n hn

end Cuts

/-- What runs in a scope is cut short there by every limit. -/
structure Truncates (names : List String) (x : Nat → Run α) : Prop where
  keeps : Keeps names x
  cuts : ∀ m scope, m.Reachable → m.environment.isOpen scope → m.sink.room = none →
    Cuts m (x scope)

lemma Truncates.child {body : Nat → Run α} (hb : Truncates xs body) (hm : m.Reachable)
    (h : m.sink.room = none) (parent : Nat) : Cuts m (inChild parent body) := by
  exact Cuts.child h fun ho => hb.cuts _ _ (hm.opened ho) (Environment.isOpen_inner_depth _ _) h

theorem truncates_rules : Rules Truncates where
  give a := ⟨keeps_rules.give a,fun _ _ _ _ h => .give h a⟩
  stop := ⟨keeps_rules.stop,fun _ _ _ _ h => .silent h rfl fun _ => rfl⟩
  fail h := ⟨keeps_rules.fail h,fun _ _ _ _ hr => .fail hr _⟩
  seq hx hk := by
    refine ⟨keeps_rules.seq hx.keeps fun a => (hk a).keeps,fun m scope hm ho h => ?_⟩
    have hc := hx.cuts m scope hm ho h
    refine hc.bind fun a m' hr => ?_
    obtain ⟨hm',ho'⟩ := (hx.keeps m scope hm ho).next ho hr
    exact (hk a).cuts m' scope hm' ho' (hc.room hr)
  widen hx h := ⟨keeps_rules.widen hx.keeps h,hx.cuts⟩
  look x := ⟨keeps_rules.look x,fun _ scope _ _ h => .lookupVariable h scope x⟩
  define x v mutable := ⟨keeps_rules.define x v mutable,fun _ _ _ _ h => .update h _⟩
  assign x index v := ⟨keeps_rules.assign x index v,fun _ scope _ _ h => .assign h scope x index v⟩
  print vs := ⟨keeps_rules.print vs,fun _ _ _ _ h => .print h vs⟩
  child hb := ⟨keeps_rules.child hb.keeps,fun _ scope hm _ h => hb.child hm h scope⟩
  called f arity _ _ hp hd hb := by
    refine ⟨keeps_rules.called f arity hp.keeps hd fun g => (hb g).imp fun _ h => h.keeps,
      fun m scope hm ho h => ?_⟩
    refine .called hm h f arity (hp.cuts m scope hm ho h) hd fun g => ?_
    obtain ⟨xs,hg⟩ := hb g
    exact hg.child hm h Environment.root

namespace Cuts

lemma loadGlobals (hm : m.Reachable) (h : m.sink.room = none) (fuel : Nat) (gs : List Global) :
    Cuts m (Run.loadGlobals fuel gs) := by
  induction gs generalizing m with
  | nil => exact give h ()
  | cons g gs ih =>
    have ho := hm.nested.isOpen_root
    have hv := truncates_rules.evaluateInitial (truncates_rules.calls fuel) g.value
    have hc := hv.cuts m Environment.root hm ho h
    refine hc.bind fun v m₁ hr₁ => ?_
    obtain ⟨hm₁,ho₁⟩ := (hv.keeps m Environment.root hm ho).next ho hr₁
    have hd : Cuts m₁ (defineVariable Environment.root g.name v g.mutable) := update (hc.room hr₁) _
    refine hd.bind fun u m₂ hr₂ => ?_
    obtain ⟨hm₂,_⟩ := (Disciplined.define hm₁ ho₁ g.name v g.mutable).next ho₁ hr₂
    exact ih hm₂ (hd.room hr₂)

lemma loadFunctions (h : m.sink.room = none) (fs : List Function) :
    Cuts m (Run.loadFunctions fs) := by
  induction fs generalizing m with
  | nil => exact give h ()
  | cons f fs ih =>
    have hd := update h (·.defineFunction Environment.root f.name f.arity
      (.declared f Environment.root))
    exact hd.bind fun u m' hx => ih (hd.room hx)

/-- Every limit cuts the run of a program short. -/
lemma program (hm : m.Reachable) (h : m.sink.room = none) (fuel : Nat) (p : Program) :
    Cuts m (Run.program fuel p) := by
  have hload : Cuts m (Run.load fuel p) := by
    have hr : Cuts { m with environment := .ofRoot m.prelude }
        (Run.loadGlobals fuel p.globals >>= fun _ => Run.loadFunctions p.functions) :=
      (loadGlobals hm.reset h fuel p.globals).bind fun u m' hx =>
        loadFunctions ((loadGlobals hm.reset h fuel p.globals).room hx) p.functions
    exact ⟨hr.grows,hr.limited⟩
  refine hload.bind fun u m' hx => ?_
  have hs := load_settled hm fuel p
  rw [hx] at hs
  exact (truncates_rules.calls fuel "main" []).cuts m' Environment.root hs.reachable
    hs.reachable.nested.isOpen_root (hload.room hx)

end Cuts

/-- Hand a text to the sink in chunks. -/
def deliver (chunks : List (List UInt8)) : Run Value := do
  let m ← get
  let (sink,complete) := m.sink.writeAll chunks
  set { m with sink := sink }
  if complete then return .nil else fail .output

/-- What is handed to the sink is its text. -/
lemma deliver_eq (chunks : List (List UInt8)) : deliver chunks = deliver [chunks.flatten] := by
  have h (m : Machine) : m.sink.writeAll chunks = m.sink.writeAll [chunks.flatten] := by
    rw [Sink.writeAll_eq,Sink.writeAll_eq,List.flatten_singleton]
  funext m
  change (do
    set { m with sink := (m.sink.writeAll chunks).1 }
    if (m.sink.writeAll chunks).2 then return .nil else fail .output : Run Value) m = _
  rw [h]
  rfl

end Run

namespace Script

lemma runProgram_limited (fuel : Nat) (p : Program) (delivers : Bool) (k : Nat) :
    let whole := runProgram fuel p (.new none delivers)
    let cut := runProgram fuel p (.new (some k) delivers)
    cut.2.written = whole.2.written.take k ∧
    cut.1 = if whole.2.written.length ≤ k then whole.1 else .error (.running .output) := by
  have hm : (Machine.new Machine.standardNames (.new none delivers)).Reachable :=
    .start Run.standardNames_rooted
  have hk := (Run.Cuts.program hm rfl fuel p).limited k (Nat.zero_le k)
  have hnew : (Machine.new Machine.standardNames (.new none delivers)).limit k =
      .new Machine.standardNames (.new (some k) delivers) :=
    congrArg (Machine.mk _ _) (Sink.limit_new k delivers)
  rw [hnew] at hk
  unfold runProgram
  generalize Run.program fuel p (.new Machine.standardNames (.new none delivers)) = whole at hk
  generalize Run.program fuel p (.new Machine.standardNames (.new (some k) delivers)) = cut at hk
  cases hk with
  | ok h => exact ⟨Sink.written_limit k _,(if_pos (by rwa [Sink.length_written])).symm⟩
  | error h => exact ⟨Sink.written_limit k _,(if_pos (by rwa [Sink.length_written])).symm⟩
  | full h hm =>
    have hlong (s : Sink) (hs : k < s.taken.length) : ¬ s.written.length ≤ k := by
      rw [Sink.length_written]
      omega
    have hw := (congrArg Sink.written hm).trans (Sink.written_limit k _)
    cases whole <;> exact ⟨hw,(if_neg (hlong _ h)).symm⟩

/-- A sink with a limit takes the first bytes of what a run writes. The run comes to the same if they
are all of it, and to an error of the output if they are not. In which chunks the text of a print is
handed to the sink makes no difference. -/
theorem run_limited (fuel : Nat) (source : String) (delivers : Bool) (k : Nat) :
    (run fuel source (.new (some k) delivers)).2.written =
      (run fuel source (.new none delivers)).2.written.take k ∧
    (run fuel source (.new (some k) delivers)).1 =
      (if (run fuel source (.new none delivers)).2.written.length ≤ k then
        (run fuel source (.new none delivers)).1
      else .error (.running .output)) ∧
    (∀ vs : List Value, Run.print vs =
      Run.deliver (vs.flatMap fun v => [Sink.bytesOf v.render,Sink.bytesOf "\n"])) ∧
    ∀ chunks, Run.deliver chunks = Run.deliver [chunks.flatten] := by
  simp only [← and_assoc]
  refine ⟨⟨?_,fun _ => rfl⟩,Run.deliver_eq⟩
  cases hc : check source with
  | error e => simp [run,hc,Sink.new,Sink.written]
  | ok p => simpa only [run,hc] using runProgram_limited fuel p delivers k

end Script
end BlockScript
