import BlockScript.Proofs.Soundness.Program
import BlockScript.Proofs.Syntax.Sound
import BlockScript.Proofs.Trace.Forget
import BlockScript.Script
/-! What a check of a source text promises of its runs. -/
namespace BlockScript.Script

lemma check_eq_ok {source : String} {p : Program} (h : check source = .ok p) :
    ∃ q, read source = .ok q ∧ q.check Program.standardNames = .ok p := by
  unfold check at h
  cases hr : read source with
  | error e => rw [hr] at h; cases h
  | ok q =>
    rw [hr] at h
    refine ⟨q,rfl,?_⟩
    cases hc : q.check Program.standardNames with
    | error e => simp only [hc,Bind.bind,Except.bind,Except.mapError] at h; cases h
    | ok p' => simp only [hc,Bind.bind,Except.bind,Except.mapError] at h; cases h; rfl

/-- A test of a concrete text gives the program that was checked. -/
lemma exists_check {source : String} {test : Program → Bool}
    (h : (check source).toOption.any test = true) :
    ∃ p, check source = .ok p ∧ test p = true := by
  cases hc : check source with
  | ok p => rw [hc] at h; exact ⟨p,rfl,h⟩
  | error e => rw [hc] at h; cases h

/-- A run of a checked text and its record end in the same way. -/
lemma run_eq {source : String} {p : Program} (h : check source = .ok p) (fuel : Nat) (sink : Sink) :
    (run fuel source sink).1 = match p.watch fuel sink with
      | .ok v w => if w.machine.sink.delivers then .ok v else .error .delivery
      | .error halt _ => .error (.ofHalt halt) := by
  simp only [run,h,runProgram,← Program.watch_forget]
  cases p.watch fuel sink <;> rfl

lemma watch_ended {blank : Bool} {source : String} {p : Program} (h : check source = .ok p)
    (hi : blank = false → p.initialised = true ∧ ∀ f ∈ p.functions, f.completes = true)
    (fuel : Nat) (sink : Sink) : Watch.Ended blank (p.watch fuel sink) := by
  obtain ⟨q,hq,hc⟩ := check_eq_ok h
  obtain ⟨ts,_,hr⟩ := read_eq_ok_iff.mp hq
  obtain ⟨_,vs,_,_,hfs⟩ := (Reader.program_ok hr).2
  refine Program.watch_sound hc (fun f hf => ?_) hi fuel sink
  obtain ⟨us,_,hus⟩ := hfs.exists_of_mem f hf
  exact hus.arity

lemma moments_sound {blank : Bool} {source : String} {p : Program} (h : check source = .ok p)
    (hi : blank = false → p.initialised = true ∧ ∀ f ∈ p.functions, f.completes = true)
    (fuel : Nat) (sink : Sink) : ∀ m ∈ p.moments fuel sink, m.Sound blank := by
  have he := watch_ended h hi fuel sink
  unfold Program.moments
  cases hw : p.watch fuel sink with
  | ok v w => rw [hw] at he; exact he.2
  | error halt w => rw [hw] at he; exact he.past

/-- What a run of a checked text stops with, and where. -/
lemma stopped_of_run {blank : Bool} {source : String} {p : Program} (h : check source = .ok p)
    (hi : blank = false → p.initialised = true ∧ ∀ f ∈ p.functions, f.completes = true)
    {fuel : Nat} {sink : Sink} {e : RunError} (he : (run fuel source sink).1 = .error (.running e)) :
    ∃ w, p.watch fuel sink = .error (.failed e) w ∧ w.Stopped blank (.failed e) := by
  have hend := watch_ended h hi fuel sink
  rw [run_eq h] at he
  cases hw : p.watch fuel sink with
  | ok v w => rw [hw] at he; dsimp only at he; split at he <;> cases he
  | error halt w =>
    rw [hw] at he hend
    cases halt with
    | outOfFuel => cases he
    | failed e' => cases he; exact ⟨w,rfl,hend⟩

/-- Types are kept up to nil. At every moment of a run of a checked text each variable in sight holds
nil or a value of its declared type, and an expression that was evaluated has a type, which its value
fits unless it is nil. So the program comes to nil or an integer, and an error about the kind of a
value is about nil or about the order of two ordered kinds. -/
theorem run_keeps_types {source : String} {p : Program} (h : check source = .ok p) (fuel : Nat)
    (sink : Sink) :
    Watch.forget (p.watch fuel sink) = Run.program fuel p (.new Machine.standardNames sink) ∧
    (∀ m ∈ p.moments fuel sink,
      (∀ x b, m.machine.environment.lookupVariable m.scope x = .ok b →
        ∃ d, m.declared.lookupVariable m.scope x = .ok d ∧ d.value.Fits true b.value) ∧
      ∀ e v, m.action = .evaluated e v → ∃ t, e.ty = some t ∧ t.Fits true v) ∧
    (∀ v, (run fuel source sink).1 = .ok v → v = .nil ∨ ∃ n, v = .integer n) ∧
    (∀ expected received, (run fuel source sink).1 =
      .error (.running (.typeMismatch expected received)) → received = .nil) ∧
    ∀ op left right, (run fuel source sink).1 = .error (.running (.invalidOperands op left right)) →
      left = .nil ∨ right = .nil ∨ (op.isOrdering = true ∧ left.isOrdered = true ∧
        right.isOrdered = true ∧ left ≠ right) := by
  have hi : true = false → p.initialised = true ∧ ∀ f ∈ p.functions, f.completes = true := nofun
  refine ⟨Program.watch_forget fuel p sink,?_,?_,?_,?_⟩
  · intro m hm
    have hs := moments_sound h hi fuel sink m hm
    refine ⟨fun x b hb => ?_,fun e v he => ?_⟩
    · obtain ⟨d,hd,hh⟩ := hs.visible x b hb
      exact ⟨d,hd,hh.value⟩
    · have ha := hs.action
      rw [he] at ha
      exact ha
  · intro v hv
    have he := watch_ended h hi fuel sink
    rw [run_eq h] at hv
    cases hw : p.watch fuel sink with
    | error halt w => rw [hw] at hv; cases hv
    | ok u w =>
      rw [hw] at hv he
      dsimp only at hv
      split at hv
      · cases hv
        exact he.1.imp (·.2) Value.kind_eq_integer.mp
      · cases hv
  · intro expected received hr
    obtain ⟨w,_,hw⟩ := stopped_of_run h hi hr
    exact (hw.allowed _ rfl).2
  · intro op left right hr
    obtain ⟨w,_,hw⟩ := stopped_of_run h hi hr
    rcases hw.allowed _ rfl with ⟨_,h⟩ | h
    · exact h.imp_right .inl
    · exact .inr (.inr h)

/-- A global without an initial value leads to nil. -/
theorem run_keeps_types_uninitialised : ∃ p,
    check "VAR x: Integer; FUN main(): Integer DO RETURN x; END" = .ok p ∧
    ∀ v, (run 2 "VAR x: Integer; FUN main(): Integer DO RETURN x; END" (.new none true)).1 = .ok v →
      v = .nil ∨ ∃ n, v = .integer n := by
  obtain ⟨p,hp,_⟩ : ∃ p, check "VAR x: Integer; FUN main(): Integer DO RETURN x; END" = .ok p ∧
      (fun _ => true) p = true := exists_check (by decide +kernel)
  exact ⟨p,hp,(run_keeps_types hp 2 (.new none true)).2.2.1⟩

/-- Names are kept. A run of a checked text never misses a name, defines one twice, or assigns to
what is immutable or no variable; wherever it looks up a variable it finds a binding with the name and
the mutability of the one the check found there. -/
theorem run_keeps_names {source : String} {p : Program} (h : check source = .ok p) (fuel : Nat)
    (sink : Sink) :
    (∀ e, (run fuel source sink).1 ≠ .error (.running (.scope e))) ∧
    (∀ x, (run fuel source sink).1 ≠ .error (.running (.immutableAssignment x))) ∧
    (run fuel source sink).1 ≠ .error (.running .invalidReceiver) ∧
    Watch.forget (p.watch fuel sink) = Run.program fuel p (.new Machine.standardNames sink) ∧
    ∀ m ∈ p.moments fuel sink, ∀ x slot, m.action = .accessing x slot →
      ∃ d b, slot = some d ∧ m.declared.lookupVariable m.scope x = .ok d ∧
        m.machine.environment.lookupVariable m.scope x = .ok b ∧
        b.name = d.name ∧ b.mutable = d.mutable := by
  have hi : true = false → p.initialised = true ∧ ∀ f ∈ p.functions, f.completes = true := nofun
  have hnever : ∀ e : RunError, ¬e.Allowed true →
      (run fuel source sink).1 ≠ .error (.running e) := by
    intro e hn he
    obtain ⟨w,_,hw⟩ := stopped_of_run h hi he
    exact hn (hw.allowed e rfl)
  refine ⟨fun e => hnever _ id,fun x => hnever _ id,hnever _ id,
    Program.watch_forget fuel p sink,?_⟩
  intro m hm x slot hx
  have hs := moments_sound h hi fuel sink m hm
  have ha := hs.action
  rw [hx] at ha
  obtain ⟨d,rfl,hd⟩ := ha
  obtain ⟨b,hb,hh⟩ := hs.declared x d hd
  exact ⟨d,b,rfl,hd,hb,hh.name,hh.mutable⟩

/-- A local variable hides a global of its name, and the global is assigned to again outside. -/
theorem run_keeps_names_shadowed :
    (∃ p, check "VAR x = 1; FUN main(): Integer DO IF x == 1 DO LET x = 2; x = 3; END x = 4; RETURN x; END" =
      .ok p) ∧
    ∀ e, (run 9 "VAR x = 1; FUN main(): Integer DO IF x == 1 DO LET x = 2; x = 3; END x = 4; RETURN x; END"
      (.new none true)).1 ≠ .error (.running (.scope e)) := by
  obtain ⟨p,hp,_⟩ : ∃ p, check
      "VAR x = 1; FUN main(): Integer DO IF x == 1 DO LET x = 2; x = 3; END x = 4; RETURN x; END" =
        .ok p ∧ (fun _ => true) p = true := exists_check (by decide +kernel)
  exact ⟨⟨p,hp⟩,(run_keeps_names hp 9 (.new none true)).1⟩

/-- Without blanks. In a checked program whose variables all have initial values and whose functions
all return, nothing is nil that should not be: a run comes to an integer, or fails for a reason that
types do not exclude. The only operands that are refused are those of an order, where the check gave
them two types. -/
theorem run_without_blanks {source : String} {p : Program} (h : check source = .ok p)
    (hinit : p.initialised = true) (hret : ∀ f ∈ p.functions, f.completes = true) (fuel : Nat)
    (sink : Sink) :
    match (run fuel source sink).1 with
    | .ok v => ∃ n, v = .integer n
    | .error (.running e) =>
      e = .divisionByZero ∨ (∃ i n, e = .indexOutOfRange i n) ∨ (∃ n, e = .narrowing n) ∨
      e = .output ∨ ∃ op k k' m rest l r a b left right,
        e = .invalidOperands op k k' ∧ op.isOrdering = true ∧ p.moments fuel sink = m :: rest ∧
        m.action = .operating op l r a b ∧ a.operate op b = .error e ∧
        l.ty = some left ∧ r.ty = some right ∧ left ≠ right
    | .error .delivery =>
      ∃ n m, Run.program fuel p (.new Machine.standardNames sink) = .ok (.integer n) m
    | .error .outOfFuel => True
    | .error _ => False := by
  have hi : false = false → p.initialised = true ∧ ∀ f ∈ p.functions, f.completes = true :=
    fun _ => ⟨hinit,hret⟩
  have hend := watch_ended h hi fuel sink
  have hpast := moments_sound h hi fuel sink
  have hforget := Program.watch_forget fuel p sink
  rw [run_eq h]
  cases hw : p.watch fuel sink with
  | ok v w =>
    rw [hw] at hend hforget
    obtain ⟨n,rfl⟩ : ∃ n, v = .integer n := by
      rcases hend.1 with ⟨h,_⟩ | h
      · cases h
      · exact Value.kind_eq_integer.mp h
    dsimp only
    cases w.machine.sink.delivers with
    | true => exact ⟨n,rfl⟩
    | false => exact ⟨n,w.machine,hforget.symm⟩
  | error halt w =>
    rw [hw] at hend
    cases halt with
    | outOfFuel => trivial
    | failed e =>
      have ha := hend.allowed e rfl
      cases e with
      | divisionByZero => exact .inl rfl
      | indexOutOfRange i n => exact .inr (.inl ⟨i,n,rfl⟩)
      | narrowing n => exact .inr (.inr (.inl ⟨n,rfl⟩))
      | output => exact .inr (.inr (.inr (.inl rfl)))
      | typeMismatch expected received => exact absurd ha.1 Bool.false_ne_true
      | scope e => exact ha.elim
      | immutableAssignment x => exact ha.elim
      | invalidReceiver => exact ha.elim
      | invalidOperands op k k' =>
        obtain ⟨m,rest,op',l,r,a,b,hm,hact,hop⟩ := hend.operands op k k' rfl
        have hmoments : p.moments fuel sink = m :: rest := by
          rw [Program.moments,hw]
          exact hm
        have hs := (hpast m (by rw [hmoments]; exact List.mem_cons_self)).action
        rw [hact] at hs
        obtain ⟨left,right,t,hl,hr,ht,hfa,hfb⟩ := hs
        obtain ⟨rfl,ho,hne⟩ := Value.types_ne_of_invalid ht hfa hfb hop
        exact .inr (.inr (.inr (.inr
          ⟨op,k,k',m,rest,l,r,a,b,left,right,rfl,ho,hmoments,hact,hop,hl,hr,hne⟩)))

/-- Both ways through this program return. -/
theorem run_without_blanks_branches :
    (∃ p, check "VAL n = 5; FUN main(): Integer DO IF n < 7 DO RETURN n / 0; ELSE RETURN n; END END" =
      .ok p ∧ p.initialised = true ∧ ∀ f ∈ p.functions, f.completes = true) ∧
    match (run 9 "VAL n = 5; FUN main(): Integer DO IF n < 7 DO RETURN n / 0; ELSE RETURN n; END END"
        (.new none true)).1 with
      | .error (.running (.typeMismatch _ _)) => False
      | _ => True := by
  obtain ⟨p,hp,ht⟩ : ∃ p, check
      "VAL n = 5; FUN main(): Integer DO IF n < 7 DO RETURN n / 0; ELSE RETURN n; END END" = .ok p ∧
      (p.initialised && p.functions.all Function.completes) = true := exists_check (by decide +kernel)
  simp only [Bool.and_eq_true,List.all_eq_true] at ht
  refine ⟨⟨p,hp,ht⟩,?_⟩
  have hsafe := run_without_blanks hp ht.1 ht.2 9 (.new none true)
  split
  · next hr =>
    rw [hr] at hsafe
    simp at hsafe
  · trivial

end BlockScript.Script
