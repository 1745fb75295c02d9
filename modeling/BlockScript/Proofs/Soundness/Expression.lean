import BlockScript.Proofs.Soundness.Run
/-! Checked expressions come to values that fit their types. -/
namespace BlockScript

open Traced (Ensures)

/-- Calls with arguments that fit a signature come to values that fit its result. -/
def Traced.Caller.Sound (blank : Bool) (names : Option (Frame Ty Signature))
    (call : Traced.Caller) : Prop :=
  ∀ decls scope name arguments s, decls.lookupFunction scope name arguments.length = .ok s →
    List.Forall₂ (Ty.Fits blank) s.parameters arguments →
    Ensures blank names decls (call scope name arguments)
      (fun v decls' => decls = decls' ∧ s.result.Fits blank v)

section
variable {blank : Bool} {names : Option (Frame Ty Signature)} {decls : Environment Ty Signature}
  {scope : Nat} {Γ : Context}

lemma Context.lookupVariable_of_chain (hΓ : decls.chain scope = Γ.frames) {x : String}
    {d : Binding Ty} (h : Γ.lookupVariable x = .ok d) : decls.lookupVariable scope x = .ok d := by
  rwa [Environment.lookupVariable_eq_ok,hΓ,← Context.lookupVariable_eq_ok]

lemma Context.lookupFunction_of_chain (hΓ : decls.chain scope = Γ.frames) {f : String} {arity : Nat}
    {s : Signature} (h : Γ.lookupFunction f arity = .ok s) :
    decls.lookupFunction scope f arity = .ok s := by
  rwa [Environment.lookupFunction_eq_ok,hΓ,← Context.lookupFunction_eq_ok]

lemma Context.isOpen_of_chain (hΓ : decls.chain scope = Γ.frames) : decls.isOpen scope = true :=
  Environment.isOpen_of_chain hΓ

/-- New names in the innermost frame are new names in the running scope. -/
lemma Context.chain_setFrame (hΓ : decls.chain scope = Γ.frames) {Δ : Context}
    (h : Δ.enclosing = Γ.enclosing) : (decls.setFrame scope Δ.current).chain scope = Δ.frames := by
  rw [Environment.chain_setFrame hΓ,← h]
  rfl

/-- A list that is checked against a type is a list of that type. -/
lemma Expr.checkElements_some {es es' : List Expr} {t u : Ty}
    (h : checkElements Γ (some t) es = .ok (es',u)) : u = t := by
  induction es generalizing es' with
  | nil => exact (Option.some.inj (checkElements_nil.mp h).1).symm
  | cons e es ih =>
    obtain ⟨_,_,_,_,_,hes,_⟩ := checkElements_cons.mp h
    exact ih hes

/-- Only an `or` with a true left side is decided, and then it is true. -/
lemma Ensures.isDecided {op : Operator} {a : Value} {left right t : Ty}
    (ht : op.type left right = .ok t) (ha : left.Fits blank a) :
    Ensures blank names decls (Traced.lift (op.isDecided a))
      (fun b decls' => decls = decls' ∧ (b = true → t = .boolean)) := by
  unfold Operator.isDecided
  by_cases ho : op = .or
  · obtain ⟨rfl,rfl,_⟩ := (Operator.type_logical (.inr ho)).mp ht
    rw [if_pos ho]
    rcases Value.toBoolean_sound ha with ⟨b,hb⟩ | ⟨e,he,hall,hne⟩
    · exact .ofResult (fun a h => ⟨rfl,fun _ => rfl⟩) (fun e h => by rw [hb] at h; cases h)
    · exact .ofResult (fun a h => by rw [he] at h; cases h)
        (fun e' h => by rw [he] at h; cases h; exact ⟨hall,hne⟩)
  · rw [if_neg ho]
    exact .pure ⟨rfl,nofun⟩

variable {call : Traced.Caller}

mutual
/-- The value of a checked expression fits its type, and evaluation leaves the names in scope. -/
theorem Expr.trace_sound (hcall : call.Sound blank names) (hΓ : decls.chain scope = Γ.frames)
    (e : Expr) {e' : Expr} {t : Ty} (h : e.check Γ = .ok (e',t)) :
    Ensures blank names decls (e'.trace call scope)
      (fun v decls' => decls = decls' ∧ t.Fits blank v) := by
  have hty := Expr.ty_of_check h
  unfold Expr.trace
  refine .around trivial ?_ fun v _ hv => ⟨t,hty,hv.2⟩
  match e with
  | .literal l _ =>
    obtain ⟨hl,rfl⟩ := Expr.check_literal.mp h
    exact .pure ⟨rfl,Literal.type_sound hl⟩
  | .group i _ =>
    obtain ⟨i',hi,rfl⟩ := Expr.check_group.mp h
    exact Expr.trace_sound hcall hΓ i hi
  | .binary op l r _ =>
    obtain ⟨l',left,r',right,hl,hr,ht,rfl⟩ := Expr.check_binary.mp h
    refine .bind (Expr.trace_sound hcall hΓ l hl) ?_
    intro a _ hpost
    obtain ⟨rfl,ha⟩ := hpost
    refine .bind (Ensures.isDecided ht ha) ?_
    intro decided _ hpost
    obtain ⟨rfl,hd⟩ := hpost
    refine .ite (fun hdec => .pure ⟨rfl,?_⟩) fun _ => ?_
    · rw [hd hdec]
      exact .inr rfl
    · refine .bind (Expr.trace_sound hcall hΓ r hr) ?_
      intro b _ hpost
      obtain ⟨rfl,hb⟩ := hpost
      exact .operating (Expr.ty_of_check hl) (Expr.ty_of_check hr) ht ha hb
  | .ref x _ _ =>
    obtain ⟨d,hd,rfl,rfl⟩ := Expr.check_ref.mp h
    have hd := Context.lookupVariable_of_chain hΓ hd
    refine .bind (.note ⟨d,rfl,hd⟩) ?_
    intro _ _ hpost
    obtain rfl := hpost
    refine .bind (.lookupVariable hd) ?_
    intro b _ hpost
    obtain ⟨rfl,hb⟩ := hpost
    exact .pure ⟨rfl,hb.value⟩
  | .element x i _ _ =>
    obtain ⟨d,i',hd,hlist,hi,rfl⟩ := Expr.check_element.mp h
    refine .bind (Expr.trace_sound hcall hΓ i hi) ?_
    intro index _ hpost
    obtain ⟨rfl,hindex⟩ := hpost
    have hd := Context.lookupVariable_of_chain hΓ hd
    refine .bind (.note ⟨d,rfl,hd⟩) ?_
    intro _ _ hpost
    obtain rfl := hpost
    refine .bind (.lookupVariable hd) ?_
    intro b _ hpost
    obtain ⟨rfl,hb⟩ := hpost
    have hv := hb.value
    rw [hlist] at hv
    rcases Value.element_sound hv hindex with ⟨u,hu,hf⟩ | ⟨e,he,hall,hne⟩
    · exact .ofResult (fun a h => by rw [hu] at h; cases h; exact ⟨rfl,hf⟩)
        (fun e h => by rw [hu] at h; cases h)
    · exact .ofResult (fun a h => by rw [he] at h; cases h)
        (fun e' h => by rw [he] at h; cases h; exact ⟨hall,hne⟩)
  | .call f es _ _ =>
    obtain ⟨s,es',hs,hes,rfl,rfl⟩ := Expr.check_call.mp h
    have hs := Context.lookupFunction_of_chain hΓ hs
    refine .ofTyped fun ⟨_,ht⟩ => ?_
    obtain ⟨_,_,_,hlen⟩ := ht.lookupFunction hs
    refine .bind (Expr.traceAll_arguments hcall hΓ es hes hlen) ?_
    intro vs _ hpost
    obtain ⟨rfl,hvs⟩ := hpost
    rw [← hlen,hvs.length_eq] at hs
    exact hcall _ _ _ _ _ hs hvs
  | .list es _ =>
    obtain ⟨es',u,hes,rfl,rfl⟩ := Expr.check_list.mp h
    refine .bind (Expr.traceAll_elements hcall hΓ es hes) ?_
    intro vs _ hpost
    obtain ⟨rfl,hvs⟩ := hpost
    exact .pure ⟨rfl,.inr ⟨vs,rfl,hvs⟩⟩

/-- Arguments fit the types of their parameters. -/
theorem Expr.traceAll_arguments (hcall : call.Sound blank names)
    (hΓ : decls.chain scope = Γ.frames) (es : List Expr) {es' : List Expr} {ts : List Ty}
    (h : Expr.checkArguments Γ es ts = .ok es') (hlen : ts.length = es.length) :
    Ensures blank names decls (Expr.traceAll call scope es')
      (fun vs decls' => decls = decls' ∧ List.Forall₂ (Ty.Fits blank) ts vs) := by
  match es with
  | [] =>
    obtain rfl := List.length_eq_zero_iff.mp hlen
    cases h
    exact .pure ⟨rfl,.nil⟩
  | e :: es =>
    obtain _ | ⟨t,ts⟩ := ts
    · cases hlen
    obtain ⟨i,u,is,hi,ha,his,rfl⟩ := Expr.checkArguments_cons.mp h
    refine .bind (Expr.trace_sound hcall hΓ e hi) ?_
    intro v _ hpost
    obtain ⟨rfl,hv⟩ := hpost
    refine .bind (Expr.traceAll_arguments hcall hΓ es his (Nat.succ.inj hlen)) ?_
    intro vs _ hpost
    obtain ⟨rfl,hvs⟩ := hpost
    exact .pure ⟨rfl,.cons (hv.of_accepts ha) hvs⟩

/-- Elements fit the type of the elements. -/
theorem Expr.traceAll_elements (hcall : call.Sound blank names)
    (hΓ : decls.chain scope = Γ.frames) (es : List Expr) {es' : List Expr} {expected : Option Ty}
    {t : Ty} (h : Expr.checkElements Γ expected es = .ok (es',t)) :
    Ensures blank names decls (Expr.traceAll call scope es')
      (fun vs decls' => decls = decls' ∧ ∀ v ∈ vs, t.Fits blank v) := by
  match es with
  | [] =>
    obtain ⟨_,rfl⟩ := Expr.checkElements_nil.mp h
    exact .pure ⟨rfl,nofun⟩
  | e :: es =>
    obtain ⟨i,u,is,hi,hd,his,rfl⟩ := Expr.checkElements_cons.mp h
    refine .bind (Expr.trace_sound hcall hΓ e hi) ?_
    intro v _ hpost
    obtain ⟨rfl,hv⟩ := hpost
    refine .bind (Expr.traceAll_elements hcall hΓ es his) ?_
    intro vs _ hpost
    obtain ⟨rfl,hvs⟩ := hpost
    refine .pure ⟨rfl,fun w hw => ?_⟩
    rcases List.mem_cons.mp hw with rfl | hw
    · rw [Expr.checkElements_some his]
      cases expected with
      | none => exact hv
      | some d => exact hv.of_accepts (hd d rfl)
    · exact hvs w hw
end

lemma Expr.traceBoolean_sound (hcall : call.Sound blank names) (hΓ : decls.chain scope = Γ.frames)
    {e e' : Expr} (h : e.check Γ = .ok (e',.boolean)) :
    Ensures blank names decls (e'.traceBoolean call scope) (fun _ decls' => decls = decls') := by
  refine .bind (Expr.trace_sound hcall hΓ e h) ?_
  intro v _ hpost
  obtain ⟨rfl,hv⟩ := hpost
  rcases Value.toBoolean_sound hv with ⟨b,hb⟩ | ⟨e,he,hall,hne⟩
  · exact .ofResult (fun a h => rfl) (fun e h => by rw [hb] at h; cases h)
  · exact .ofResult (fun a h => rfl) (fun e' h => by rw [he] at h; cases h; exact ⟨hall,hne⟩)

/-- The initial value of a variable fits its type; a variable has none only where blanks are
allowed. -/
lemma Expr.traceInitial_sound (hcall : call.Sound blank names) (hΓ : decls.chain scope = Γ.frames)
    {x : String} {typeName : Option String} {value value' : Option Expr} {t : Ty}
    (h : Expr.checkInitial Γ x typeName value = .ok (value',t))
    (hi : blank = false → value'.isSome = true) :
    Ensures blank names decls (Expr.traceInitial call scope value')
      (fun v decls' => decls = decls' ∧ t.Fits blank v) := by
  rcases Expr.checkInitial_eq_ok.mp h with ⟨_,rfl,_⟩ | ⟨e,i,u,_,rfl,he,ht⟩
  · cases blank with
    | false => cases hi rfl
    | true => exact .pure ⟨rfl,.inl ⟨rfl,rfl⟩⟩
  · refine .imp (Expr.trace_sound hcall hΓ e he) ?_
    intro v _ hpost
    obtain ⟨rfl,hv⟩ := hpost
    rcases ht with ⟨_,rfl⟩ | ⟨_,_,_,ha⟩
    · exact ⟨rfl,hv⟩
    · exact ⟨rfl,hv.of_accepts ha⟩

end
end BlockScript
