import BlockScript.Proofs.Isolation.Discipline
import BlockScript.Proofs.Scopes.Sight
/-! Assignment. What is stored goes to one place, a variable that is mutable and in sight or one element
of its list, or nothing changes. -/
namespace BlockScript

/-- Whether a value has the place that is named: all of it, or the element at an index. -/
inductive Value.HasPlace : Option Value → Value → Prop
  | whole (old : Value) : HasPlace none old
  | element (vs : List Value) (i : Int) (h0 : 0 ≤ i) (hi : i < vs.length) :
    HasPlace (some (.integer i)) (.list vs)

/-- A value with the place filled. A list keeps its length and its other elements. -/
inductive Value.Filled (new : Value) : Option Value → Value → Value → Prop
  | whole (old : Value) : Filled new none old new
  | element (vs ws : List Value) (i : Nat) (hi : i < vs.length) (hl : ws.length = vs.length)
    (hat : ws[i]? = some new) (hother : ∀ j : Nat, j ≠ i → ws[j]? = vs[j]?) :
    Filled new (some (.integer i)) (.list vs) (.list ws)

/-- One scope has this variable now; all other names are as they were. -/
structure Environment.Rebinds {α β : Type} (env : Environment α β) (owner : Nat) (b : Binding α)
    (env' : Environment α β) : Prop where
  parents : ∀ i : Nat, env'.scopes[i]?.map Scope.parent = env.scopes[i]?.map Scope.parent
  functions : ∀ i f arity, env'.own (·.findFunction f arity) i = env.own (·.findFunction f arity) i
  bindings : ∀ i y, env'.own (·.findVariable y) i =
    if i = owner ∧ y = b.name then some b else env.own (·.findVariable y) i

namespace Value
variable {old new v i : Value}

lemma setElement_filled (h : old.setElement i new = .ok v) :
    HasPlace (some i) old ∧ Filled new (some i) old v := by
  cases old with
  | list vs =>
    cases i with
    | integer k =>
      by_cases hk : 0 ≤ k ∧ k < vs.length
      · have hv : v = .list (vs.set k.toNat new) := by
          simp only [setElement,position,if_pos hk] at h
          cases h
          rfl
        obtain ⟨n,rfl⟩ := Int.eq_ofNat_of_zero_le hk.1
        have hn : n < vs.length := Int.ofNat_lt.mp hk.2
        rw [Int.toNat_natCast] at hv
        subst hv
        refine ⟨.element vs n hk.1 hk.2,.element vs _ n hn List.length_set ?_ fun j hj => ?_⟩
        · exact List.getElem?_set_self hn
        · exact List.getElem?_set_ne (Ne.symm hj)
      · simp only [setElement,position,if_neg hk] at h
        cases h
    | _ => cases h
  | _ => cases h

lemma exists_setElement (h : HasPlace (some i) old) (new : Value) :
    ∃ v, old.setElement i new = .ok v := by
  cases h with
  | element vs k h0 hk =>
    refine ⟨.list (vs.set k.toNat new),?_⟩
    simp only [setElement,position,if_pos (And.intro h0 hk)]
    rfl

end Value

namespace Environment
variable {α β : Type} {env : Environment α β} {scope : Nat}

lemma Rebinds.write {x : String} {owner : Nat} {b : Binding α} {s : Scope α β}
    (hs : env.scopes[owner]? = some s) (hb : s.frame.findVariable x = some b) (v : α) :
    env.Rebinds owner { b with value := v } (env.setFrame owner (s.frame.writeVariable x v)) := by
  have hname := Frame.name_of_findVariable hb
  refine ⟨fun i => ?_,fun i f arity => ?_,fun i y => ?_⟩
  · rw [getElem?_setFrame]
    cases env.scopes[i]? with
    | none => rfl
    | some t =>
      rw [Option.map_some,Option.map_some]
      split <;> rfl
  · rw [own_setFrame hs]
    split
    · next hi =>
      rw [hi,own_eq hs]
      rfl
    · rfl
  · rw [own_setFrame hs,Frame.findVariable_writeVariable,hname]
    by_cases hi : i = owner
    · subst hi
      by_cases hy : y = x
      · subst hy
        simp [hb,hname]
      · simp [hy,own_eq hs]
    · simp [hi]

lemma Nested.ordered {env : Environment Value Callable} (h : env.Nested) : env.Ordered := by
  constructor
  · obtain ⟨s,hs⟩ := exists_scope h.isOpen_root
    refine ⟨s,hs,Option.eq_none_iff_forall_not_mem.mpr fun p hp => ?_⟩
    exact Nat.not_lt_zero p ((h.placed root s hs).parent p hp)
  · intro i s hs hi
    cases hp : s.parent with
    | none => exact absurd ((h.placed i s hs).orphan hp) hi
    | some p => exact ⟨p,rfl,(h.placed i s hs).parent p hp⟩

end Environment

namespace Run
variable {m m' : Machine} {scope : Nat} {x : String} {index : Option Value} {new : Value}

/-- What it comes to that a value is stored. -/
structure Stores (m : Machine) (scope : Nat) (x : String) (index : Option Value) (new : Value)
    (r : EStateM.Result Halt Machine Completion) : Prop where
  succeeds : (∃ c m', r = .ok c m') ↔ ∃ owner b, m.environment.Sees (·.findVariable x) scope owner ∧
    m.environment.own (·.findVariable x) owner = some b ∧ b.mutable = true ∧ b.value.HasPlace index
  stored : ∀ c m', r = .ok c m' → c = .normal ∧ ∃ owner b v env,
    m.environment.Sees (·.findVariable x) scope owner ∧
    m.environment.own (·.findVariable x) owner = some b ∧ Value.Filled new index b.value v ∧
    m' = { m with environment := env } ∧ m.environment.Rebinds owner { b with value := v } env
  failed : ∀ e m', r = .error e m' → m' = m

lemma update_write {owner : Nat} {b : Binding Value}
    (hb : m.environment.search (·.findVariable x) scope = some (owner,b)) (v : Value) : ∃ env,
    m.environment.Rebinds owner { b with value := v } env ∧
    updateEnvironment (·.writeVariable scope x v) m = .ok () { m with environment := env } := by
  obtain ⟨s,hs,hf⟩ := Environment.search_eq_some hb
  exact ⟨_,.write hs hf v,updateEnvironment_ok (Environment.writeVariable_eq_ok.mpr ⟨owner,b,s,hb,hs,rfl⟩)⟩

/-- A value is stored as a whole, or a store fails before anything is changed. -/
lemma assign_cases (m : Machine) (scope : Nat) (x : String) (index : Option Value) (new : Value) :
    (∃ owner b v env, m.environment.search (·.findVariable x) scope = some (owner,b) ∧
      b.mutable = true ∧ b.value.HasPlace index ∧ Value.Filled new index b.value v ∧
      m.environment.Rebinds owner { b with value := v } env ∧
      Run.assign scope x index new m = .ok () { m with environment := env }) ∨
    (¬ ∃ owner b, m.environment.search (·.findVariable x) scope = some (owner,b) ∧
      b.mutable = true ∧ b.value.HasPlace index) ∧ ∃ e, Run.assign scope x index new m = .error e m := by
  unfold Run.assign
  cases hb : m.environment.lookup scope (·.findVariable x) (.undefinedVariable x) with
  | error e =>
    have hl : m.environment.lookupVariable scope x = .error e := by
      rw [Environment.lookupVariable,hb]
      rfl
    rw [bind_error (lookupVariable_error hl)]
    refine .inr ⟨?_,.failed (.scope e),rfl⟩
    rintro ⟨owner,b,hs,_⟩
    rw [Environment.lookup_eq_ok.mpr hs] at hb
    cases hb
  | ok hit =>
    obtain ⟨owner,b⟩ := hit
    have hl : m.environment.lookupVariable scope x = .ok b := by
      rw [Environment.lookupVariable,hb]
      rfl
    have hs := Environment.lookup_eq_ok.mp hb
    have hthis {owner' : Nat} {b' : Binding Value} (hs' : m.environment.search (·.findVariable x) scope =
        some (owner',b')) : b' = b := (Prod.mk.inj (Option.some.inj (hs'.symm.trans hs))).2
    rw [bind_ok (lookupVariable_ok hl)]
    by_cases hmut : b.mutable = true
    · rw [if_pos hmut]
      cases index with
      | none =>
        obtain ⟨env,hr,hu⟩ := update_write hs new
        exact .inl ⟨owner,b,new,env,hs,hmut,.whole _,.whole _,hr,hu⟩
      | some i =>
        cases hv : b.value.setElement i new with
        | ok v =>
          obtain ⟨hp,hf⟩ := Value.setElement_filled hv
          obtain ⟨env,hr,hu⟩ := update_write hs v
          refine .inl ⟨owner,b,v,env,hs,hmut,hp,hf,hr,?_⟩
          dsimp only
          rw [hv]
          exact hu
        | error e =>
          refine .inr ⟨?_,.failed e,?_⟩
          · rintro ⟨owner',b',hs',_,hp⟩
            obtain ⟨v,hok⟩ := Value.exists_setElement hp new
            rw [hthis hs',hv] at hok
            cases hok
          · dsimp only
            rw [hv]
            rfl
    · rw [if_neg hmut]
      refine .inr ⟨?_,_,rfl⟩
      rintro ⟨owner',b',hs',hm',_⟩
      rw [hthis hs'] at hm'
      exact hmut hm'

lemma Stores.assign (h : m.environment.Ordered) (scope : Nat) (x : String) (index : Option Value)
    (new : Value) : Stores m scope x index new
      ((do Run.assign scope x index new; return Completion.normal : Run Completion) m) := by
  have hiff (owner : Nat) (b : Binding Value) :
      m.environment.search (·.findVariable x) scope = some (owner,b) ↔
        m.environment.Sees (·.findVariable x) scope owner ∧
          m.environment.own (·.findVariable x) owner = some b := Environment.search_eq_some_iff h
  obtain ⟨owner,b,v,env,hs,hmut,hp,hf,hr,ha⟩ | ⟨hn,e,ha⟩ := assign_cases m scope x index new
  · obtain ⟨hsees,hown⟩ := (hiff owner b).mp hs
    rw [bind_ok ha]
    constructor
    case succeeds => exact ⟨fun _ => ⟨owner,b,hsees,hown,hmut,hp⟩,fun _ => ⟨_,_,rfl⟩⟩
    case stored =>
      intro c m' hok
      cases hok
      exact ⟨rfl,owner,b,v,env,hsees,hown,hf,rfl,hr⟩
    case failed =>
      intro e m' herr
      cases herr
  · rw [bind_error ha]
    constructor
    case succeeds =>
      constructor
      · rintro ⟨c,m',hok⟩
        cases hok
      · rintro ⟨owner,b,hsees,hown,hrest⟩
        exact absurd ⟨owner,b,(hiff owner b).mpr ⟨hsees,hown⟩,hrest⟩ hn
    case stored =>
      intro c m' hok
      cases hok
    case failed =>
      intro e m' herr
      cases herr
      rfl

/-- An assignment changes one place or nothing. After its index and its value were evaluated, it
succeeds exactly if the variable is in sight and mutable and, with an index, holds a list that has an
element there; then that variable has the value, in a list in the place of that element alone, and
every other name of every scope is as it was. If it fails nothing is changed. -/
theorem assignment_stores (m : Machine) (scope fuel rounds : Nat) (x : String) (e : Expr)
    (slot : Option (Binding Ty)) (ty : Option Ty) (hm : m.Reachable)
    (ho : m.environment.isOpen scope = true) :
    (∀ v m', e.evaluate (Run.call fuel) scope m = .ok v m' → Stores m' scope x none v
      (Stmt.execute (Run.call fuel) rounds scope (.assignment (.ref x slot ty) e) m)) ∧
    ∀ i index m₁ v m₂, i.evaluate (Run.call fuel) scope m = .ok index m₁ →
      e.evaluate (Run.call fuel) scope m₁ = .ok v m₂ → Stores m₂ scope x (some index) v
        (Stmt.execute (Run.call fuel) rounds scope (.assignment (.element x i slot ty) e) m) := by
  have hc := keeps_rules.calls fuel
  constructor
  · intro v m' he
    obtain ⟨hm',_⟩ := (keeps_rules.evaluate hc e m scope hm ho).next ho he
    simp only [Stmt.execute]
    rw [bind_ok he]
    exact .assign hm'.nested.ordered scope x none v
  · intro i index m₁ v m₂ hi he
    obtain ⟨hm₁,ho₁⟩ := (keeps_rules.evaluate hc i m scope hm ho).next ho hi
    obtain ⟨hm₂,_⟩ := (keeps_rules.evaluate hc e m₁ scope hm₁ ho₁).next ho₁ he
    simp only [Stmt.execute]
    rw [bind_ok hi,bind_ok he]
    exact .assign hm₂.nested.ordered scope x (some index) v

/-- A list in a variable and a copy of it in a constant. -/
def copiedList : Machine :=
  ⟨.empty,⟨[⟨none,⟨[⟨"copy",.list [.integer 1,.integer 2],false⟩,
    ⟨"list",.list [.integer 1,.integer 2],true⟩],[]⟩⟩]⟩,.new none true⟩

/-- An element of the list is replaced; one after its end is not. -/
theorem assignment_stores_copied :
    let element (i : Int) : Stmt :=
      .assignment (.element "list" (.literal (.integer i) none) none none) (.literal (.integer 7) none)
    let run (i : Int) := (element i).execute (Run.call 1) 1 Environment.root copiedList
    copiedList.Reachable ∧
    (∀ i, Stores copiedList Environment.root "list" (some (.integer i)) (.integer 7) (run i)) ∧
    (∃ c m, run 1 = .ok c m ∧ m.environment.own (·.findVariable "copy") Environment.root =
      some ⟨"copy",.list [.integer 1,.integer 2],false⟩) ∧ ¬ ∃ c m, run 2 = .ok c m := by
  intro element run
  have hm : copiedList.Reachable := by
    have hstart : (Machine.new .empty (.new none true)).Reachable := .start ⟨List.nodup_nil,nofun⟩
    have hlist := hstart.defined
      (show Environment.defineVariable _ Environment.root ⟨"list",.list [.integer 1,.integer 2],true⟩ = .ok _
        from rfl)
    exact hlist.defined
      (show Environment.defineVariable _ Environment.root ⟨"copy",.list [.integer 1,.integer 2],false⟩ = .ok _
        from rfl)
  have hs (i : Int) : Stores copiedList Environment.root "list" (some (.integer i)) (.integer 7) (run i) :=
    (assignment_stores copiedList Environment.root 1 1 "list" (.literal (.integer 7) none) none none hm
      rfl).2 (.literal (.integer i) none) _ _ _ _ rfl rfl
  refine ⟨hm,hs,?_,fun hok => ?_⟩
  · obtain ⟨c,m,hok⟩ := (hs 1).succeeds.mpr
      ⟨Environment.root,_,.here rfl,rfl,rfl,.element _ _ (by decide) (by decide)⟩
    obtain ⟨_,owner,b,_,env,_,hown,_,rfl,hr⟩ := (hs 1).stored c m hok
    have hname : b.name = "list" := by
      obtain ⟨s,_,hb⟩ := Option.bind_eq_some_iff.mp hown
      exact Frame.name_of_findVariable hb
    have hother : ¬ (Environment.root = owner ∧ "copy" = b.name) := by
      simp [hname]
    have hcopy : copiedList.environment.own (·.findVariable "copy") Environment.root =
        some ⟨"copy",.list [.integer 1,.integer 2],false⟩ := by
      simp [Environment.own,copiedList,Environment.root,Frame.findVariable]
    refine ⟨c,_,hok,?_⟩
    rw [hr.bindings,if_neg hother]
    exact hcopy
  · obtain ⟨owner,b,hsees,hown,_,hp⟩ := (hs 2).succeeds.mp hok
    obtain rfl : owner = Environment.root := Nat.le_zero.mp (hsees.le hm.nested.ordered)
    cases hown
    cases hp with
    | element _ _ _ hi => exact absurd hi (by decide)

end Run
end BlockScript
