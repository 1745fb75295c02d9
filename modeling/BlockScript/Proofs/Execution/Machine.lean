import BlockScript.Execution.Machine
import Mathlib.Tactic.Lemma
/-! What the steps of a machine do. -/
namespace BlockScript.Run
variable {α β : Type} {scope : Nat} {m : Machine}

lemma bind_ok {x : Run α} {a : α} {m' : Machine} (h : x m = .ok a m') (k : α → Run β) :
    (x >>= k) m = k a m' := by
  change EStateM.bind x k m = _
  unfold EStateM.bind
  rw [h]

lemma bind_error {x : Run α} {e : Halt} {m' : Machine} (h : x m = .error e m') (k : α → Run β) :
    (x >>= k) m = .error e m' := by
  change EStateM.bind x k m = _
  unfold EStateM.bind
  rw [h]

lemma bind_eq_ok {x : Run α} {k : α → Run β} {b : β} {n : Machine} :
    (x >>= k) m = .ok b n ↔ ∃ a m', x m = .ok a m' ∧ k a m' = .ok b n := by
  constructor
  · intro h
    cases hx : x m with
    | ok a m' => exact ⟨a,m',rfl,(bind_ok hx k).symm.trans h⟩
    | error e m' =>
      rw [bind_error hx] at h
      cases h
  · rintro ⟨a,m',hx,h⟩
    rw [bind_ok hx]
    exact h

lemma lookupVariable_ok {x : String} {b : Binding Value}
    (h : m.environment.lookupVariable scope x = .ok b) : lookupVariable scope x m = .ok b m := by
  change ofNames (m.environment.lookupVariable scope x) m = _
  rw [h]
  rfl

lemma lookupVariable_error {x : String} {e : NameError}
    (h : m.environment.lookupVariable scope x = .error e) :
    lookupVariable scope x m = .error (.failed (.scope e)) m := by
  change ofNames (m.environment.lookupVariable scope x) m = _
  rw [h]
  rfl

lemma lookupFunction_ok {x : String} {arity : Nat} {c : Callable}
    (h : m.environment.lookupFunction scope x arity = .ok c) :
    lookupFunction scope x arity m = .ok c m := by
  change ofNames (m.environment.lookupFunction scope x arity) m = _
  rw [h]
  rfl

lemma lookupFunction_error {x : String} {arity : Nat} {e : NameError}
    (h : m.environment.lookupFunction scope x arity = .error e) :
    lookupFunction scope x arity m = .error (.failed (.scope e)) m := by
  change ofNames (m.environment.lookupFunction scope x arity) m = _
  rw [h]
  rfl

lemma updateEnvironment_ok
    {change : Environment Value Callable → Except NameError (Environment Value Callable)}
    {env : Environment Value Callable} (h : change m.environment = .ok env) :
    updateEnvironment change m = .ok () { m with environment := env } := by
  change (ofNames (change m.environment) >>= fun env => set { m with environment := env } :
    Run Unit) m = _
  rw [h]
  rfl

lemma updateEnvironment_error
    {change : Environment Value Callable → Except NameError (Environment Value Callable)}
    {e : NameError} (h : change m.environment = .error e) :
    updateEnvironment change m = .error (.failed (.scope e)) m := by
  change (ofNames (change m.environment) >>= fun env => set { m with environment := env } :
    Run Unit) m = _
  rw [h]
  rfl

lemma print_eq {arguments : List Value} {sink : Sink} {complete : Bool}
    (h : m.sink.writeAll (arguments.flatMap fun v : Value =>
      [Sink.bytesOf v.render,Sink.bytesOf "\n"]) = (sink,complete)) :
    print arguments m = if complete then .ok .nil { m with sink := sink }
      else .error (.failed .output) { m with sink := sink } := by
  change (do
    set { m with sink := (m.sink.writeAll (arguments.flatMap fun v : Value =>
      [Sink.bytesOf v.render,Sink.bytesOf "\n"])).1 }
    if (m.sink.writeAll (arguments.flatMap fun v : Value =>
      [Sink.bytesOf v.render,Sink.bytesOf "\n"])).2 then return .nil else fail .output :
    Run Value) m = _
  rw [h]
  cases complete <;> rfl

end BlockScript.Run
