import BlockScript.Proofs.Scopes.Frames
import BlockScript.Proofs.Scopes.Order
/-! Which lookups a change of the names reaches: those from the scopes that see the changed one past
no nearer meaning of the name. -/
namespace BlockScript.Environment
variable {α β γ : Type}

/-- What a scope has of its own. -/
def own (env : Environment α β) (found : Frame α β → Option γ) (scope : Nat) : Option γ :=
  env.scopes[scope]?.bind fun s => found s.frame

/-- The second scope is the first or around it, and from the first up to it, itself apart, nothing is
found. -/
inductive Sees (env : Environment α β) (found : Frame α β → Option γ) : Nat → Nat → Prop
  | here {i} (ho : env.isOpen i = true) : Sees env found i i
  | outward {i s p j} (hs : env.scopes[i]? = some s) (hn : found s.frame = none)
    (hp : s.parent = some p) (h : Sees env found p j) : Sees env found i j

/-- The scope whose meaning is the innermost one. -/
def holder (env : Environment α β) (found : Frame α β → Option γ) (scope : Nat) : Option Nat :=
  (env.search found scope).map (·.1)

variable {env : Environment α β} {found : Frame α β → Option γ} {i j scope : Nat}

lemma own_eq {s : Scope α β} (hs : env.scopes[scope]? = some s) :
    env.own found scope = found s.frame := by
  rw [own,hs,Option.bind_some]

lemma Ordered.search_eq (h : env.Ordered) {s : Scope α β} (hs : env.scopes[scope]? = some s) :
    env.search found scope = match found s.frame with
      | some x => some (scope,x)
      | none => s.parent.bind fun p => env.search found p := by
  rw [search]
  simp only [hs]
  cases found s.frame with
  | some x => rfl
  | none =>
    cases hp : s.parent with
    | none => rfl
    | some p => simp only [h.parent_lt hs hp,↓reduceIte,Option.bind_some]

lemma Sees.le (h : env.Ordered) (hs : env.Sees found i j) : j ≤ i := by
  induction hs with
  | here => exact Nat.le_refl _
  | outward hs _ hp _ ih => exact Nat.le_trans ih (Nat.le_of_lt (h.parent_lt hs hp))

/-- A search comes to a scope that is seen and has what is looked for. -/
theorem search_eq_some_iff (h : env.Ordered) {x : γ} :
    env.search found scope = some (j,x) ↔ env.Sees found scope j ∧ env.own found j = some x := by
  constructor
  · intro hx
    obtain ⟨t,ht,hf⟩ := search_eq_some hx
    refine ⟨?_,(own_eq ht).trans hf⟩
    induction scope using Nat.strongRecOn with
    | ind scope ih =>
      cases hs : env.scopes[scope]? with
      | none =>
        rw [search,hs] at hx
        cases hx
      | some s =>
        rw [h.search_eq hs] at hx
        cases hn : found s.frame with
        | some y =>
          rw [hn] at hx
          cases hx
          exact .here (isOpen_iff.mpr (List.getElem?_eq_some_iff.mp hs).1)
        | none =>
          rw [hn] at hx
          obtain ⟨p,hp,hx⟩ := Option.bind_eq_some_iff.mp hx
          exact .outward hs hn hp (ih p (h.parent_lt hs hp) hx)
  · rintro ⟨hs,hx⟩
    induction hs with
    | here ho =>
      obtain ⟨s,hs⟩ := exists_scope ho
      rw [own_eq hs] at hx
      rw [h.search_eq hs,hx]
    | outward hs hn hp _ ih =>
      rw [h.search_eq hs,hn,hp]
      exact ih hx

/-! ### A scope with other names -/

section
variable {s : Scope α β} {f : Frame α β}

lemma getElem?_setFrame (env : Environment α β) (scope i : Nat) (f : Frame α β) :
    (env.setFrame scope f).scopes[i]? =
      env.scopes[i]?.map fun s => if scope = i then { s with frame := f } else s := by
  rw [setFrame,List.getElem?_modify]
  split <;> cases env.scopes[i]? <;> rfl

lemma isOpen_setFrame (env : Environment α β) (scope i : Nat) (f : Frame α β) :
    (env.setFrame scope f).isOpen i = env.isOpen i := by
  rw [Bool.eq_iff_iff,isOpen_iff,isOpen_iff,setFrame,List.length_modify]

lemma Ordered.setFrame (h : env.Ordered) (scope : Nat) (f : Frame α β) :
    (env.setFrame scope f).Ordered := h.modify scope fun _ => f

lemma own_setFrame (hs : env.scopes[scope]? = some s) (i : Nat) :
    (env.setFrame scope f).own found i = if i = scope then found f else env.own found i := by
  rw [own,own,getElem?_setFrame]
  by_cases hi : i = scope
  · subst hi
    simp [hs]
  · rw [if_neg hi]
    cases env.scopes[i]? with
    | none => rfl
    | some t => simp [Ne.symm hi]

/-- What a scope gets is found from the scopes that see it. -/
lemma search_setFrame_of_sees (h : env.Ordered) {x : γ} (hf : found f = some x)
    (hs : env.Sees found i scope) : (env.setFrame scope f).search found i = some (scope,x) := by
  induction hs with
  | @here i ho =>
    obtain ⟨s,hs⟩ := exists_scope ho
    have hs' : (env.setFrame i f).scopes[i]? = some { s with frame := f } := by
      simp [getElem?_setFrame,hs]
    rw [(h.setFrame i f).search_eq hs']
    simp only [hf]
  | @outward i s p j hs hn hp hsees ih =>
    have hne : j ≠ i := Nat.ne_of_lt (Nat.lt_of_le_of_lt (hsees.le h) (h.parent_lt hs hp))
    have hs' : (env.setFrame j f).scopes[i]? = some s := by
      simp [getElem?_setFrame,hs,hne]
    rw [(h.setFrame j f).search_eq hs',hn,hp]
    exact ih

/-- From the others everything is found as before. -/
lemma search_setFrame_of_not_sees (h : env.Ordered) (ho : env.isOpen i = true)
    (hs : ¬ env.Sees found i scope) :
    (env.setFrame scope f).search found i = env.search found i := by
  induction i using Nat.strongRecOn with
  | ind i ih =>
    have hne : scope ≠ i := by
      rintro rfl
      exact hs (.here ho)
    obtain ⟨s,hi⟩ := exists_scope ho
    have hi' : (env.setFrame scope f).scopes[i]? = some s := by
      simp [getElem?_setFrame,hi,hne]
    rw [h.search_eq hi,(h.setFrame scope f).search_eq hi']
    cases hn : found s.frame with
    | some x => rfl
    | none =>
      cases hp : s.parent with
      | none => rfl
      | some p =>
        have hlt := h.parent_lt hi hp
        have hop : env.isOpen p = true := isOpen_iff.mpr (Nat.lt_trans hlt (isOpen_iff.mp ho))
        exact ih p hlt hop fun hsees => hs (.outward hi hn hp hsees)

/-- A key for which the new names say what the old ones said. -/
lemma search_setFrame_of_eq (hs : env.scopes[scope]? = some s) (hf : found f = found s.frame) (i : Nat) :
    (env.setFrame scope f).search found i = env.search found i := by
  have hrel : (env.setFrame scope f).Related (fun g g' => found g = found g') env := by
    refine Related.setFrame_left (fun j => ?_) hs hf
    cases env.scopes[j]? with
    | none => exact .none
    | some t => exact .some ⟨rfl,rfl⟩
  have hsame (g g' : Frame α β) (hg : found g = found g') : Option.Rel Eq (found g) (found g') := by
    rw [hg]
    cases found g' with
    | none => exact .none
    | some x => exact .some rfl
  have hr := hrel.search hsame i
  generalize (env.setFrame scope f).search found i = a at hr
  generalize env.search found i = b at hr
  cases hr with
  | none => rfl
  | some hr => exact congrArg some (Prod.ext hr.1 hr.2)

end

/-! ### The laws -/

/-- What a scope has got under a key is what a lookup gives from the scopes that see it, and from
those alone; from all others the lookup gives what it gave. -/
structure Gains (env env' : Environment α β) (found : Frame α β → Option γ)
    (look : Environment α β → Nat → Except NameError γ) (scope : Nat) (x : γ) : Prop where
  held : ∀ i, env.isOpen i = true → (env'.search found i = some (scope,x) ↔ env.Sees found i scope)
  seen : ∀ i, env.isOpen i = true → env.Sees found i scope → look env' i = .ok x
  unseen : ∀ i, env.isOpen i = true → ¬ env.Sees found i scope → look env' i = look env i

/-- Lookups of these variables and functions give what they gave. -/
structure Spares (env env' : Environment α β) (names : String → Prop)
    (functions : String → Nat → Prop) : Prop where
  lookupVariable : ∀ i, env.isOpen i = true → ∀ x, names x →
    env'.lookupVariable i x = env.lookupVariable i x
  lookupFunction : ∀ i, env.isOpen i = true → ∀ f arity, functions f arity →
    env'.lookupFunction i f arity = env.lookupFunction i f arity

/-- A definition is refused where the scope itself has the key, and then changes nothing; otherwise
the scope gains the key and lookups under other keys are spared. -/
structure Defines (env : Environment α β) (c : Change α β) (found : Frame α β → Option γ)
    (look : Environment α β → Nat → Except NameError γ) (x : γ) (taken : NameError)
    (names : String → Prop) (functions : String → Nat → Prop) : Prop where
  refused : (env.own found c.scope).isSome = true → c.perform env = .error taken ∧ c.after env = env
  defined : env.own found c.scope = none → ∃ env', c.perform env = .ok env' ∧ c.after env = env' ∧
    env.Gains env' found look c.scope x ∧ env.Spares env' names functions

/-- A value is written where the name is found: the variable has it from every scope that finds the
name there, and keeps its name and its mutability; from all others the name means what it meant. -/
structure Writes (env env' : Environment α β) (scope : Nat) (x : String) (v : α) : Prop where
  same : ∀ i, env.isOpen i = true →
    env.holder (·.findVariable x) i = env.holder (·.findVariable x) scope →
      ∃ b, env.lookupVariable i x = .ok b ∧ env'.lookupVariable i x = .ok { b with value := v }
  other : ∀ i, env.isOpen i = true →
    env.holder (·.findVariable x) i ≠ env.holder (·.findVariable x) scope →
      env'.lookupVariable i x = env.lookupVariable i x
  held : ∀ i, env.isOpen i = true →
    env'.holder (·.findVariable x) i = env.holder (·.findVariable x) i

section
variable {env' : Environment α β} {s : Scope α β} {f : Frame α β}

lemma lookup_congr {missing : NameError} (ho : env'.isOpen i = env.isOpen i)
    (hs : env'.search found i = env.search found i) :
    env'.lookup i found missing = env.lookup i found missing := by
  rw [lookup,lookup,ho,hs]

lemma lookupVariable_congr {x : String} (ho : env'.isOpen i = env.isOpen i)
    (hs : env'.search (·.findVariable x) i = env.search (·.findVariable x) i) :
    env'.lookupVariable i x = env.lookupVariable i x := congrArg (Except.map _) (lookup_congr ho hs)

lemma lookupFunction_congr {g : String} {arity : Nat} (ho : env'.isOpen i = env.isOpen i)
    (hs : env'.search (·.findFunction g arity) i = env.search (·.findFunction g arity) i) :
    env'.lookupFunction i g arity = env.lookupFunction i g arity :=
  congrArg (Except.map _) (lookup_congr ho hs)

lemma gains_setFrame (h : env.Ordered) {x : γ} {look : Environment α β → Nat → Except NameError γ}
    {missing : NameError} (hl : ∀ env i, look env i = (env.lookup i found missing).map (·.2))
    (hf : found f = some x) : env.Gains (env.setFrame scope f) found look scope x := by
  have hsees (i : Nat) (hs : env.Sees found i scope) := search_setFrame_of_sees h hf hs
  refine ⟨fun i ho => ⟨fun hx => ?_,hsees i⟩,fun i ho hs => ?_,fun i ho hs => ?_⟩
  · by_contra hs
    rw [search_setFrame_of_not_sees h ho hs] at hx
    exact hs ((search_eq_some_iff h).mp hx).1
  · rw [hl,lookup_eq_ok.mpr (hsees i hs)]
    rfl
  · rw [hl,hl,lookup_congr (isOpen_setFrame env scope i f) (search_setFrame_of_not_sees h ho hs)]

lemma spares_setFrame (hs : env.scopes[scope]? = some s) {names : String → Prop}
    {functions : String → Nat → Prop} (hx : ∀ x, names x → f.findVariable x = s.frame.findVariable x)
    (hf : ∀ g arity, functions g arity → f.findFunction g arity = s.frame.findFunction g arity) :
    env.Spares (env.setFrame scope f) names functions :=
  ⟨fun i _ x h => lookupVariable_congr (isOpen_setFrame env scope i f)
      (search_setFrame_of_eq hs (hx x h) i),
    fun i _ g arity h => lookupFunction_congr (isOpen_setFrame env scope i f)
      (search_setFrame_of_eq hs (hf g arity h) i)⟩

end

theorem defines_variable (h : env.Ordered) (ho : env.isOpen scope = true) (b : Binding α) :
    env.Defines (.defineVariable scope b) (·.findVariable b.name)
      (fun env i => env.lookupVariable i b.name) b (.variableRedefinition b.name) (· ≠ b.name)
      fun _ _ => True := by
  obtain ⟨s,hs⟩ := exists_scope ho
  constructor
  · intro hown
    rw [Change.scope,own_eq hs] at hown
    obtain ⟨c,hc⟩ := Option.isSome_iff_exists.mp hown
    have hp : (Change.defineVariable scope b).perform env = .error (.variableRedefinition b.name) := by
      simp only [Change.perform,defineVariable,updateFrame,hs,Frame.defineVariable,hc]
      rfl
    exact ⟨hp,by rw [Change.after,hp]⟩
  · intro hown
    rw [Change.scope,own_eq hs] at hown
    have hp : (Change.defineVariable scope b).perform env = .ok _ :=
      defineVariable_eq_ok.mpr ⟨s,hs,hown,rfl⟩
    refine ⟨_,hp,by rw [Change.after,hp],gains_setFrame h (fun _ _ => rfl) ?_,
      spares_setFrame hs (fun x hx => ?_) fun _ _ _ => rfl⟩
    · rw [Frame.findVariable_cons,if_pos rfl]
    · rw [Frame.findVariable_cons,if_neg (Ne.symm hx)]

theorem defines_function (h : env.Ordered) (ho : env.isOpen scope = true) (f : String) (arity : Nat)
    (c : β) :
    env.Defines (.defineFunction scope f arity c) (·.findFunction f arity)
      (fun env i => env.lookupFunction i f arity) c (.functionRedefinition f arity) (fun _ => True)
      fun g n => ¬ (g = f ∧ n = arity) := by
  obtain ⟨s,hs⟩ := exists_scope ho
  constructor
  · intro hown
    rw [Change.scope,own_eq hs] at hown
    obtain ⟨d,hd⟩ := Option.isSome_iff_exists.mp hown
    have hp : (Change.defineFunction scope f arity c).perform env =
        .error (.functionRedefinition f arity) := by
      simp only [Change.perform,defineFunction,updateFrame,hs,Frame.defineFunction,hd]
      rfl
    exact ⟨hp,by rw [Change.after,hp]⟩
  · intro hown
    rw [Change.scope,own_eq hs] at hown
    have hp : (Change.defineFunction scope f arity c).perform env = .ok _ :=
      defineFunction_eq_ok.mpr ⟨s,hs,hown,rfl⟩
    refine ⟨_,hp,by rw [Change.after,hp],gains_setFrame h (fun _ _ => rfl) ?_,
      spares_setFrame hs (fun _ _ => rfl) fun g n hg => ?_⟩
    · rw [Frame.findFunction_cons,if_pos ⟨rfl,rfl⟩]
    · rw [Frame.findFunction_cons,if_neg fun he => hg ⟨he.1.symm,he.2.symm⟩]

lemma defineNative_eq {s : Scope α β} (hs : env.scopes[root]? = some s) (f : String) (arity : Nat)
    (c : β) : env.defineNative f arity c = env.setFrame root (s.frame.replaceFunction f arity c) := by
  simp only [defineNative,setFrame]
  congr 1
  apply List.ext_getElem?
  intro i
  simp only [List.getElem?_modify]
  by_cases hi : root = i
  · subst hi
    simp [hs]
  · simp [hi]

/-- A built-in function is gained by the root, whether or not it had one. -/
theorem defineNative_gains (h : env.Ordered) (f : String) (arity : Nat) (c : β) :
    env.Gains (env.defineNative f arity c) (·.findFunction f arity)
        (fun env i => env.lookupFunction i f arity) root c ∧
      env.Spares (env.defineNative f arity c) (fun _ => True) fun g n => ¬ (g = f ∧ n = arity) := by
  obtain ⟨s,hs,_⟩ := h.root
  rw [defineNative_eq hs]
  refine ⟨gains_setFrame h (fun _ _ => rfl) ?_,spares_setFrame hs (fun _ _ => rfl) fun g n hg => ?_⟩
  · rw [Frame.findFunction_replaceFunction,if_pos ⟨rfl,rfl⟩]
  · rw [Frame.findFunction_replaceFunction,if_neg fun he => hg ⟨he.1.symm,he.2.symm⟩]

lemma writeVariable_eq_error {i : Nat} (ho : env.isOpen i = true) (x : String)
    (hn : env.holder (·.findVariable x) i = none) (v : α) :
    env.writeVariable i x v = .error (.undefinedVariable x) := by
  have hs : env.search (·.findVariable x) i = none := Option.map_eq_none_iff.mp hn
  rw [writeVariable,lookup,if_pos ho,hs]
  rfl

theorem writeVariable_writes (h : env.Ordered) (x : String) (v : α) {owner : Nat}
    (hown : env.holder (·.findVariable x) scope = some owner) :
    ∃ env', env.writeVariable scope x v = .ok env' ∧ env.Writes env' scope x v ∧
      env.Spares env' (· ≠ x) fun _ _ => True := by
  obtain ⟨⟨o,b⟩,hsearch,ho⟩ := Option.map_eq_some_iff.mp hown
  obtain rfl : owner = o := ho.symm
  obtain ⟨s,hs,hb⟩ := search_eq_some hsearch
  have hnew : (s.frame.writeVariable x v).findVariable x = some { b with value := v } := by
    rw [Frame.findVariable_writeVariable,if_pos rfl,hb,Option.map_some]
  have hfound (i : Nat) (hi : env.holder (·.findVariable x) i = some owner) :
      env.search (·.findVariable x) i = some (owner,b) ∧ env.Sees (·.findVariable x) i owner := by
    obtain ⟨⟨o',b'⟩,hi,ho'⟩ := Option.map_eq_some_iff.mp hi
    obtain rfl : owner = o' := ho'.symm
    obtain ⟨hsees,hb'⟩ := (search_eq_some_iff h).mp hi
    obtain rfl : b = b' := Option.some.inj (hb.symm.trans ((own_eq hs).symm.trans hb'))
    exact ⟨hi,hsees⟩
  -- where the name is found in another scope, the written one is not seen
  have hother (i : Nat) (hi : env.holder (·.findVariable x) i ≠ some owner) :
      ¬ env.Sees (·.findVariable x) i owner := fun hsees =>
    hi (by rw [holder,(search_eq_some_iff h).mpr ⟨hsees,(own_eq hs).trans hb⟩,Option.map_some])
  refine ⟨_,writeVariable_eq_ok.mpr ⟨owner,b,s,hsearch,hs,rfl⟩,⟨fun i hi he => ?_,fun i hi hne => ?_,
    fun i hi => ?_⟩,spares_setFrame hs (fun y hy => ?_) fun _ _ _ => rfl⟩
  · obtain ⟨hi,hsees⟩ := hfound i (he.trans hown)
    refine ⟨b,?_,?_⟩
    · rw [lookupVariable,lookup_eq_ok.mpr hi]
      rfl
    · rw [lookupVariable,lookup_eq_ok.mpr (search_setFrame_of_sees h hnew hsees)]
      rfl
  · rw [hown] at hne
    exact lookupVariable_congr (isOpen_setFrame env owner i _)
      (search_setFrame_of_not_sees h hi (hother i hne))
  · by_cases he : env.holder (·.findVariable x) i = some owner
    · rw [he,holder,search_setFrame_of_sees h hnew (hfound i he).2,Option.map_some]
    · rw [holder,search_setFrame_of_not_sees h hi (hother i he),holder]
  · rw [Frame.findVariable_writeVariable,if_neg hy]

/-- What each change of the names does to every lookup. A definition is refused exactly where the scope
has the key itself; a write is refused where the name is nowhere in sight, and nothing changes then. -/
theorem reachable_changes_seen {env : Environment α β} (h : env.Reachable) {scope : Nat}
    (ho : env.isOpen scope = true) :
    (∀ b : Binding α, env.Defines (.defineVariable scope b) (·.findVariable b.name)
      (fun env i => env.lookupVariable i b.name) b (.variableRedefinition b.name) (· ≠ b.name)
      fun _ _ => True) ∧
    (∀ x v, (env.holder (·.findVariable x) scope = none →
        (Change.writeVariable scope x v).perform env = .error (.undefinedVariable x) ∧
        (Change.writeVariable scope x v).after env = env) ∧
      ((env.holder (·.findVariable x) scope).isSome = true →
        ∃ env', (Change.writeVariable scope x v).perform env = .ok env' ∧
          (Change.writeVariable scope x v).after env = env' ∧
          env.Writes env' scope x v ∧ env.Spares env' (· ≠ x) fun _ _ => True)) ∧
    (∀ f arity c, env.Defines (.defineFunction scope f arity c) (·.findFunction f arity)
      (fun env i => env.lookupFunction i f arity) c (.functionRedefinition f arity) (fun _ => True)
      fun g n => ¬ (g = f ∧ n = arity)) ∧
    ∀ f arity c, env.Gains ((Change.defineNative f arity c).after env) (·.findFunction f arity)
        (fun env i => env.lookupFunction i f arity) root c ∧
      env.Spares ((Change.defineNative f arity c).after env) (fun _ => True)
        fun g n => ¬ (g = f ∧ n = arity) := by
  have hord := h.ordered
  refine ⟨defines_variable hord ho,fun x v => ⟨fun hn => ?_,fun hsome => ?_⟩,
    defines_function hord ho,defineNative_gains hord⟩
  · have hp : (Change.writeVariable scope x v).perform env = .error (.undefinedVariable x) :=
      writeVariable_eq_error ho x hn v
    exact ⟨hp,by rw [Change.after,hp]⟩
  · obtain ⟨owner,hown⟩ := Option.isSome_iff_exists.mp hsome
    obtain ⟨env',hp,hw,hs⟩ := writeVariable_writes hord x v hown
    have hp : (Change.writeVariable scope x v).perform env = .ok env' := hp
    exact ⟨env',hp,by rw [Change.after,hp],hw,hs⟩

/-- A scope between a name's use and its meaning gets the name; a scope beside it still means the old
one, and a write from there does not reach the new one. -/
theorem reachable_changes_seen_beside :
    let env : Environment Nat Nat := Change.after (Change.after (Change.after (Change.after .empty
      (.defineVariable root ⟨"x",1,true⟩)) (.push root)) (.push 1)) (.push root)
    let env' := Change.after env (.defineVariable 1 ⟨"x",2,true⟩)
    env.Reachable ∧ env'.Reachable ∧ env.own (·.findVariable "x") 1 = none ∧
      env'.lookupVariable 2 "x" = .ok ⟨"x",2,true⟩ ∧ env'.lookupVariable 3 "x" = .ok ⟨"x",1,true⟩ ∧
      ((Change.writeVariable 3 "x" 7).after env').lookupVariable 2 "x" = .ok ⟨"x",2,true⟩ := by
  intro env env'
  have h : env.Reachable := (((Reachable.empty.change _ rfl).change _ rfl).change _ rfl).change _ rfl
  have h' : env'.Reachable := h.change _ rfl
  have hown : env.own (·.findVariable "x") 1 = none := rfl
  obtain ⟨_,_,rfl,hgains,_⟩ :=
    ((reachable_changes_seen h (show env.isOpen 1 = true from rfl)).1 ⟨"x",2,true⟩).defined hown
  have hsees : env.Sees (·.findVariable "x") 2 1 := .outward (p := 1) rfl rfl rfl (.here rfl)
  have hbeside : ¬ env.Sees (·.findVariable "x") 3 1 := by
    intro hs
    cases hs with
    | outward hi _ hp hs =>
      cases hi
      cases hp
      exact absurd (hs.le h.ordered) (by decide)
  obtain ⟨_,_,rfl,hw,_⟩ :=
    ((reachable_changes_seen h' (show env'.isOpen 3 = true from rfl)).2.1 "x" 7).2 (by decide +kernel)
  refine ⟨h,h',hown,hgains.seen 2 rfl hsees,?_,?_⟩
  · exact (hgains.unseen 3 rfl hbeside).trans (by decide +kernel)
  · exact (hw.other 2 rfl (by decide +kernel)).trans (hgains.seen 2 rfl hsees)

end BlockScript.Environment
