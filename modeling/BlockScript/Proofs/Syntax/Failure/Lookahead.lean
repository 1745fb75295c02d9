import BlockScript.Proofs.Syntax.Complete.Expression
/-! Rules look one token ahead: what a rule gives is settled by the tokens it takes and the next one.
The bounds of rules that repeat depend on all tokens that are left, so two rules with different bounds
are compared, on as many tokens as both bounds last for. -/
namespace BlockScript

lemma Stmt.Spells.length_pos {s : Stmt} {ts : List Token} (h : s.Spells ts) : 0 < ts.length := by
  cases h <;> simp only [List.length_cons,List.length_append] <;> omega

lemma Global.Spells.length_pos {g : Global} {ts : List Token} (h : g.Spells ts) : 0 < ts.length := by
  cases h <;> exact Nat.succ_pos _

lemma Function.Spells.length_pos {f : Function} {ts : List Token} (h : f.Spells ts) :
    0 < ts.length := by
  cases h
  exact Nat.succ_pos _

namespace Reader
variable {α β : Type} {k : ℕ}

/-- What a rule leaves when it stops before these tokens. -/
def stopAt (r : Except ReadError.Cause α) (rest : List Token) :
    EStateM.Result ReadError.Cause (List Token) α :=
  match r with
  | .ok a => .ok a rest
  | .error cause => .error cause rest

lemma stopAt_inj {r r' : Except ReadError.Cause α} {rest rest' : List Token}
    (h : stopAt r rest = stopAt r' rest') : r = r' ∧ rest = rest' := by
  cases r <;> cases r' <;> cases h <;> exact ⟨rfl,rfl⟩

lemma bind_error {rule : Reader α} {f : α → Reader β} {ts rest : List Token}
    {cause : ReadError.Cause} (h : rule ts = .error cause rest) :
    (rule >>= f) ts = .error cause rest := by
  change EStateM.bind rule f ts = _
  unfold EStateM.bind
  rw [h]

/-- A rule stops somewhere in the tokens it is applied to. -/
def Shrinks (rule : Reader α) : Prop := ∀ ts r rest, rule ts = stopAt r rest → rest <:+ ts

/-- A rule takes at least so many tokens for its result, if it is applied to any. -/
def Costs (rule : Reader α) (d : α → ℕ) : Prop :=
  ∀ ts a rest, ts ≠ [] → rule ts = .ok a rest → rest.length + d a ≤ ts.length

lemma Takes.costs {rule : Reader α} {P : α → List Token → Prop} {d : α → ℕ} (h : Takes rule P)
    (hd : ∀ a us, P a us → d a ≤ us.length) : Costs rule d := by
  intro ts a rest _ hr
  obtain ⟨us,rfl,ha⟩ := h ts a rest hr
  have := hd a us ha
  rw [List.length_append]
  omega

/-- Where the first rule stops before fewer than so many tokens are taken, the second one gives the
same on all tokens that agree up to the one that the first stops before. -/
structure Agrees (k : ℕ) (rule rule' : Reader α) : Prop where
  shrinks : Shrinks rule
  same : ∀ us t more more' r, us.length < k → rule (us ++ t :: more) = stopAt r (t :: more) →
    rule' (us ++ t :: more') = stopAt r (t :: more')

/-- What a rule gives is settled by the tokens that it takes and the next one. -/
def Local (rule : Reader α) : Prop := ∀ k, Agrees k rule rule

lemma Local.shrinks {rule : Reader α} (h : Local rule) : Shrinks rule := (h 0).shrinks

/-- A rule that looks at the first token alone, and takes it or leaves it. -/
lemma Local.of_first {rule : Reader α} (r : Token → Except ReadError.Cause α) (takes : Token → Bool)
    (hnil : ∃ r, rule [] = stopAt r [])
    (h : ∀ t ts, rule (t :: ts) = stopAt (r t) (if takes t then ts else t :: ts)) : Local rule := by
  refine fun k => ⟨fun ts r rest hr => ?_,fun us t more more' r _ hr => ?_⟩
  · cases ts with
    | nil =>
      obtain ⟨r,hn⟩ := hnil
      obtain ⟨_,rfl⟩ := stopAt_inj (hr.symm.trans hn)
      exact List.suffix_rfl
    | cons t ts =>
      obtain ⟨_,rfl⟩ := stopAt_inj (hr.symm.trans (h t ts))
      split
      · exact List.suffix_cons t ts
      · exact List.suffix_rfl
  -- It stops before `t`: either `t` is first and is left, or one token is before it and is taken.
  · obtain _ | ⟨u,us⟩ := us
    · obtain ⟨rfl,hrest⟩ := stopAt_inj (hr.symm.trans (h t more))
      cases ht : takes t <;> simp only [ht,Bool.false_eq_true,↓reduceIte] at hrest
      · rw [List.nil_append,h,ht]
        rfl
      · exact absurd hrest (List.cons_ne_self t more)
    · obtain ⟨rfl,hrest⟩ := stopAt_inj (hr.symm.trans (h u (us ++ t :: more)))
      have hlen := congrArg List.length hrest
      cases hu : takes u <;> simp only [hu,Bool.false_eq_true,↓reduceIte,List.length_cons,
        List.length_append] at hlen
      · omega
      · obtain rfl := List.length_eq_zero_iff.mp (show us.length = 0 by omega)
        rw [List.singleton_append,h,hu]
        rfl

namespace Local

lemma peek : Local peek := of_first (.ok ∘ some) (fun _ => false) ⟨.ok none,rfl⟩ fun _ _ => rfl

lemma skip : Local skip := of_first (fun _ => .ok ()) (fun _ => true) ⟨.ok (),rfl⟩ fun _ _ => rfl

lemma at? (text : String) : Local (at? text) :=
  of_first (fun t => .ok (t.is text)) (fun _ => false) ⟨.ok false,rfl⟩ fun _ _ => rfl

lemma atGlobal : Local atGlobal :=
  of_first (fun t => .ok (t.is "LIST" || t.is "VAR" || t.is "VAL")) (fun _ => false)
    ⟨.ok false,rfl⟩ fun _ _ => rfl

lemma accept (text : String) : Local (accept text) := by
  refine of_first (fun t => .ok (t.is text)) (·.is text) ⟨.ok false,rfl⟩ fun t ts => ?_
  rw [accept_eq]
  cases t.is text <;> rfl

lemma expect (text : String) (cause : ReadError.Cause) : Local (expect text cause) := by
  refine of_first (fun t => if t.is text then .ok () else .error cause) (·.is text)
    ⟨.error cause,rfl⟩ fun t ts => ?_
  cases ht : t.is text
  · unfold Reader.expect
    rw [bind_ok (accept_false (by simpa [Avoids] using ht))]
    rfl
  · exact expect_ok ht

lemma acceptOperator (level : Operator.Level) : Local (acceptOperator level) := by
  refine of_first (fun t => .ok (t.operator?.filter (·.level = level)))
    (fun t => t.operator?.any (·.level = level)) ⟨.ok none,rfl⟩ fun t ts => ?_
  rw [acceptOperator_eq]
  cases t.operator? with
  | none => rfl
  | some op => by_cases h : op.level = level <;> simp [Option.filter,h,stopAt]

lemma expectName (cause : ReadError.Cause) : Local (expectName cause) := by
  refine of_first (fun t => if t.isName then .ok t.text else .error cause) Token.isName
    ⟨.error cause,rfl⟩ fun t ts => ?_
  change (if t.isName = true then (do Reader.skip; return t.text : Reader String)
    else throw cause) (t :: ts) = _
  cases t.isName <;> rfl

lemma literal (value : Option Literal) (cause : ReadError.Cause) : Local (literal value cause) := by
  cases value with
  | none => exact of_first (fun _ => .error cause) (fun _ => false) ⟨.error cause,rfl⟩ fun _ _ => rfl
  | some v =>
    exact of_first (fun _ => .ok (.literal v none)) (fun _ => true) ⟨.ok _,rfl⟩ fun _ _ => rfl

end Local

namespace Agrees
variable {rule rule' : Reader α} {f f' : α → Reader β} {d : α → ℕ}

lemma mono {j : ℕ} (h : Agrees k rule rule') (hj : j ≤ k) : Agrees j rule rule' :=
  ⟨h.shrinks,fun us t more more' r hlen => h.same us t more more' r (by omega)⟩

/-- A rule that takes nothing and does not look. -/
lemma of_stays (r : Except ReadError.Cause α) (h : ∀ ts, rule ts = stopAt r ts) :
    Agrees k rule rule := by
  refine ⟨fun ts r' rest hr => ?_,fun us t more more' r' _ hr => ?_⟩
  · obtain ⟨_,rfl⟩ := stopAt_inj (hr.symm.trans (h ts))
    exact List.suffix_rfl
  · obtain ⟨rfl,hrest⟩ := stopAt_inj (hr.symm.trans (h (us ++ t :: more)))
    obtain rfl : us = [] := by simpa using hrest
    exact h _

lemma pure (a : α) : Agrees k (Pure.pure a) (Pure.pure a) := of_stays (.ok a) fun _ => rfl

lemma throw (cause : ReadError.Cause) :
    Agrees k (MonadExcept.throw cause : Reader α) (MonadExcept.throw cause) :=
  of_stays (.error cause) fun _ => rfl

/-- The second of two rules has to agree on what the first one leaves only. -/
lemma bind_costs (h : Agrees k rule rule') (hd : Costs rule d)
    (hf : ∀ a, Agrees (k - d a) (f a) (f' a)) : Agrees k (rule >>= f) (rule' >>= f') := by
  refine ⟨fun ts r rest hr => ?_,fun us t more more' r hlen hr => ?_⟩
  · cases hx : rule ts with
    | error cause mid =>
      rw [bind_error hx] at hr
      obtain ⟨rfl,rfl⟩ := stopAt_inj (r := .error cause) hr
      exact h.shrinks ts (.error cause) _ hx
    | ok a mid =>
      rw [bind_ok hx] at hr
      exact ((hf a).shrinks mid r rest hr).trans (h.shrinks ts (.ok a) mid hx)
  · cases hx : rule (us ++ t :: more) with
    | error cause mid =>
      rw [bind_error hx] at hr
      obtain ⟨rfl,rfl⟩ := stopAt_inj (r := .error cause) hr
      exact bind_error (h.same us t more more' (.error cause) hlen hx)
    | ok a mid =>
      rw [bind_ok hx] at hr
      -- The first rule stops inside of the tokens before the one that both stop before.
      obtain ⟨vs,rfl⟩ := (hf a).shrinks mid r _ hr
      obtain ⟨ws,hws⟩ := h.shrinks _ (.ok a) _ hx
      rw [← List.append_assoc] at hws
      obtain rfl : us = ws ++ vs := (List.append_cancel_right hws).symm
      rw [List.append_assoc] at hx ⊢
      have hcost := hd _ a _ (by simp) hx
      simp only [List.length_append] at hlen hcost
      have hfirst : rule' (ws ++ (vs ++ t :: more')) = .ok a (vs ++ t :: more') := by
        cases vs with
        | nil => exact h.same ws t more more' (.ok a) (by omega) hx
        | cons v vs => exact h.same ws v (vs ++ t :: more) (vs ++ t :: more') (.ok a) (by omega) hx
      rw [bind_ok hfirst]
      exact (hf a).same vs t more more' r (by omega) hr

lemma bind (h : Agrees k rule rule') (hf : ∀ a, Agrees k (f a) (f' a)) :
    Agrees k (rule >>= f) (rule' >>= f') := by
  refine h.bind_costs (d := fun _ => 0) (fun ts a rest _ hr => ?_) hf
  exact (h.shrinks ts (.ok a) rest hr).length_le

/-- After a token was taken the rest has to agree on one token less. -/
lemma bind_takes (h : Agrees k rule rule') (hd : Costs rule fun _ => 1)
    (hf : ∀ a, Agrees (k - 1) (f a) (f' a)) : Agrees k (rule >>= f) (rule' >>= f') :=
  h.bind_costs hd hf

lemma skip_bind {f f' : Unit → Reader β} (hf : Agrees (k - 1) (f ()) (f' ())) :
    Agrees k (Reader.skip >>= f) (Reader.skip >>= f') := by
  refine bind_takes (Local.skip k) (fun ts _ rest hts hr => ?_) fun _ => hf
  obtain _ | ⟨t,ts⟩ := ts
  · exact absurd rfl hts
  · cases hr
    exact Nat.le_refl _

lemma expect_bind {text : String} {cause : ReadError.Cause} {f f' : Unit → Reader β}
    (hf : Agrees (k - 1) (f ()) (f' ())) :
    Agrees k (Reader.expect text cause >>= f) (Reader.expect text cause >>= f') := by
  refine bind_takes (Local.expect text cause k) ((Takes.expect text cause).costs ?_) fun _ => hf
  rintro _ _ ⟨t,rfl,_⟩
  exact Nat.le_refl 1

lemma accept_bind {text : String} {f f' : Bool → Reader β}
    (htrue : Agrees (k - 1) (f true) (f' true)) (hfalse : Agrees k (f false) (f' false)) :
    Agrees k (Reader.accept text >>= f) (Reader.accept text >>= f') := by
  refine bind_costs (d := Bool.toNat) (Local.accept text k) ((Takes.accept text).costs ?_) fun b => ?_
  · rintro _ _ (⟨rfl,rfl⟩ | ⟨t,rfl,rfl,_⟩) <;> exact Nat.le_refl _
  · cases b
    · exact hfalse
    · exact htrue

lemma ite {c : Prop} [Decidable c] {other other' : Reader α} (h : c → Agrees k rule rule')
    (h' : ¬c → Agrees k other other') :
    Agrees k (if c then rule else other) (if c then rule' else other') := by
  split
  · next hc => exact h hc
  · next hc => exact h' hc

end Agrees

/-- A rule that has its bound for each index agrees as far as both bounds last, if it does so with
bounds that are one shorter. -/
lemma agrees_of_step {ι : Type} (rule rule' : ι → List Token → Reader α)
    (hnil : ∀ i, Agrees 0 (rule i []) (rule i []))
    (hcons : ∀ j ahead ahead', j ≤ k → (∀ i, Agrees (j - 1) (rule i ahead) (rule' i ahead')) →
      ∀ i x x', Agrees j (rule i (x :: ahead)) (rule' i (x' :: ahead')))
    {j : ℕ} (hj : j ≤ k) (fuel fuel' : List Token) (hf : j ≤ fuel.length) (hf' : j ≤ fuel'.length)
    (i : ι) : Agrees j (rule i fuel) (rule' i fuel') := by
  -- A bound that is used up leaves nothing to compare, only where the first rule stops.
  have hzero : ∀ {x x' : Reader α}, Shrinks x → Agrees 0 x x' := fun h => ⟨h,by simp⟩
  induction fuel generalizing i j fuel' with
  | nil =>
    obtain rfl := Nat.le_zero.mp hf
    exact hzero (hnil i).shrinks
  | cons x ahead ih =>
    obtain _ | ⟨x',ahead'⟩ := fuel'
    · obtain rfl := Nat.le_zero.mp hf'
      have hahead : ∀ i, Agrees (0 - 1) (rule i ahead) (rule' i ahead) := fun i =>
        ih hj ahead (Nat.zero_le _) (Nat.zero_le _) i
      exact hzero (hcons 0 ahead ahead hj hahead i x x).shrinks
    · rw [List.length_cons] at hf hf'
      have hahead : ∀ i, Agrees (j - 1) (rule i ahead) (rule' i ahead') := fun i =>
        ih (by omega) ahead' (by omega) (by omega) i
      exact hcons j ahead ahead' hj hahead i x x'

namespace Agrees

lemma bounded {rule rule' : List Token → Reader α}
    (h : ∀ j fuel fuel', j ≤ k → j ≤ fuel.length → j ≤ fuel'.length →
      Agrees j (rule fuel) (rule' fuel')) : Agrees k (bounded rule) (bounded rule') := by
  refine ⟨fun ts => ?_,fun us t more more' r hlen => ?_⟩
  · exact (h 0 ts ts (Nat.zero_le k) (Nat.zero_le _) (Nat.zero_le _)).shrinks ts
  · refine (h (us.length + 1) (us ++ t :: more) (us ++ t :: more') hlen ?_ ?_).same us t more more' r
      (Nat.lt_succ_self _) <;> simp

/-- A rule that repeats, with the tokens that are left as its bound. -/
lemma bounded_of_step {rule rule' : List Token → Reader α} (hnil : Agrees 0 (rule []) (rule []))
    (hcons : ∀ j ahead ahead', j ≤ k → Agrees (j - 1) (rule ahead) (rule' ahead') →
      ∀ x x', Agrees j (rule (x :: ahead)) (rule' (x' :: ahead'))) :
    Agrees k (Reader.bounded rule) (Reader.bounded rule') :=
  bounded fun _ fuel fuel' hj hf hf' =>
    agrees_of_step (fun _ : Unit => rule) (fun _ => rule') (fun _ => hnil)
      (fun j ahead ahead' hj h _ => hcons j ahead ahead' hj (h ())) hj fuel fuel' hf hf' ()

end Agrees

section
variable {expression expression' : Reader Expr}

lemma operators_agrees (level : Operator.Level) (h : Agrees k expression expression') (left : Expr) :
    Agrees k (bounded (operators level expression left))
      (bounded (operators level expression' left)) := by
  refine .bounded fun j fuel fuel' hj hf hf' =>
    agrees_of_step (operators level expression) (operators level expression')
      (fun left => .pure left) ?_ hj fuel fuel' hf hf' left
  intro j ahead ahead' hj hahead left x x'
  refine .bind_costs (d := fun o => o.isSome.toNat) (Local.acceptOperator level j)
    ((Takes.acceptOperator level).costs ?_) fun o => ?_
  · rintro _ _ (⟨rfl,rfl⟩ | ⟨op,t,rfl,rfl,_⟩) <;> exact Nat.le_refl _
  · cases o with
    | none => exact .pure left
    | some op => exact .bind (h.mono (by omega)) fun right => hahead _

lemma joined_agrees (level : Operator.Level) (h : Agrees k expression expression') :
    Agrees k (joined level expression) (joined level expression') :=
  h.bind fun left => operators_agrees level h left

lemma arguments_agrees (h : Agrees k expression expression') (closing : String)
    (cause : ReadError.Cause) :
    Agrees k (arguments expression closing cause) (arguments expression' closing cause) := by
  refine (Local.accept closing k).bind fun b => .ite (fun _ => .pure []) fun _ => ?_
  refine .bounded_of_step (.throw _) fun j ahead ahead' hj hahead x x' => ?_
  refine (h.mono hj).bind fun first => (Local.accept closing j).bind fun b =>
    .ite (fun _ => .pure [first]) fun _ => .expect_bind ?_
  exact hahead.bind fun es => .pure (first :: es)

lemma named_agrees (h : Agrees k expression expression') (x : String) :
    Agrees k (named expression x) (named expression' x) := by
  refine (Local.accept "(" k).bind fun b => .ite (fun _ => ?_) fun _ => ?_
  · exact (arguments_agrees h ")" .expectedCloseParenthesis).bind fun es => .pure _
  · refine (Local.accept "[" k).bind fun b => .ite (fun _ => ?_) fun _ => .pure _
    exact h.bind fun index => (Local.expect "]" .expectedCloseBracket k).bind fun _ => .pure _

/-- Operands take a token before they read expressions. -/
lemma operand_agrees (h : Agrees (k - 1) expression expression') :
    Agrees k (operand expression) (operand expression') := by
  refine (Local.peek k).bind fun next => ?_
  cases next with
  | none => exact .throw .expectedExpression
  | some t =>
    dsimp only
    cases t.kind with
    | integer | decimal | character | string => exact Local.literal _ _ k
    | identifier =>
      refine .ite (fun _ => Local.literal _ _ k) fun _ => .ite (fun _ => Local.literal _ _ k) fun _ =>
        .ite (fun _ => Local.literal _ _ k) fun _ => .ite (fun _ => .throw _) fun _ => ?_
      exact .skip_bind (named_agrees h t.text)
    | operator =>
      refine .ite (fun _ => .skip_bind ?_) fun _ => .throw _
      exact h.bind fun inner => (Local.expect ")" .expectedCloseParenthesis _).bind fun _ => .pure _

lemma expressionRule_agrees (h : Agrees (k - 1) expression expression') :
    Agrees k (expressionRule expression) (expressionRule expression') :=
  joined_agrees _ (joined_agrees _ (joined_agrees _ (joined_agrees _ (operand_agrees h))))

end

/-- A rule that refers to itself after it took a token. -/
lemma recursive_agrees {rule : Reader α → Reader α}
    (h : ∀ j ahead ahead', j ≤ k → Agrees (j - 1) (recursive rule ahead) (recursive rule ahead') →
      Agrees j (rule (recursive rule ahead)) (rule (recursive rule ahead'))) :
    Agrees k (bounded (recursive rule)) (bounded (recursive rule)) :=
  .bounded_of_step (.throw _) fun j ahead ahead' hj hahead _ _ =>
    h j ahead ahead' hj hahead

theorem expression_local : Local expression := fun _ =>
  recursive_agrees fun _ _ _ _ => expressionRule_agrees

lemma typeName?_local : Local typeName? := fun k => by
  refine (Local.accept ":" k).bind fun b => .ite (fun _ => ?_) fun _ => .pure none
  exact (Local.expectName .expectedTypeName k).bind fun x => .pure (some x)

lemma initial?_local : Local initial? := fun k => by
  refine (Local.accept "=" k).bind fun b => .ite (fun _ => ?_) fun _ => .pure none
  exact (expression_local k).bind fun e => .pure (some e)

/-- The end of a statement or a global. -/
lemma expect_local {text : String} {cause : ReadError.Cause} (a : α) :
    Local (do expect text cause; return a) := fun k =>
  (Local.expect text cause k).bind fun _ => .pure a

lemma declaration_local : Local declaration := fun k =>
  (Local.expectName .expectedVariableName k).bind fun _ => (typeName?_local k).bind fun _ =>
    (initial?_local k).bind fun _ => expect_local _ k

lemma expressionOrAssignment_local : Local expressionOrAssignment := fun k => by
  refine (Local.peek k).bind fun _ => (expression_local k).bind fun first =>
    (Local.at? "=" k).bind fun b => .ite (fun _ => ?_) fun _ => expect_local _ k
  have hvalue : Local (do
      skip
      let value ← expression
      expect ";" .expectedSemicolon
      return Stmt.assignment first value) := fun k =>
    (Local.skip k).bind fun _ => (expression_local k).bind fun _ => expect_local _ k
  exact .ite (fun _ => .bind (.throw _) fun _ => hvalue k) fun _ => hvalue k

section
variable {statement statement' : Reader Stmt} {block block' : Reader (List Stmt)}

lemma blockOf_agrees (hs : Takes statement Stmt.Spells) (h : Agrees k statement statement') :
    Agrees k (blockOf statement) (blockOf statement') := by
  refine .bounded_of_step (.pure _) fun j ahead ahead' hj hahead x x' => ?_
  refine (Local.peek j).bind fun next => ?_
  cases next with
  | none => exact .pure []
  | some t =>
    refine .ite (fun _ => .pure []) fun _ => ?_
    refine .bind_takes (h.mono hj) (hs.costs fun _ _ => Stmt.Spells.length_pos) fun first => ?_
    exact hahead.bind fun ss => .pure (first :: ss)

lemma ifElse_agrees (h : Agrees k block block') : Agrees k (ifElse block) (ifElse block') := by
  refine (expression_local k).bind fun c => (Local.expect "DO" .expectedIfDo k).bind fun _ =>
    h.bind fun a => (Local.accept "ELSE" k).bind fun b => .ite (fun _ => ?_) fun _ => expect_local _ k
  exact h.bind fun b => expect_local _ k

lemma switch_agrees (h : Agrees k block block') : Agrees k (switch block) (switch block') := by
  refine (expression_local k).bind fun c => .bind ?_ fun arms => expect_local _ k
  refine .bounded_of_step (.throw _) fun j ahead ahead' hj hahead x x' => .accept_bind ?_ ?_
  · refine (expression_local _).bind fun e => (Local.expect ":" .expectedCaseColon _).bind fun _ =>
      (h.mono (by omega)).bind fun a => hahead.bind fun cs => .pure _
  · exact (Local.expect "DEFAULT" .expectedDefault j).bind fun _ => (h.mono hj).bind fun a => .pure _

lemma loop_agrees (h : Agrees k block block') : Agrees k (loop block) (loop block') :=
  (expression_local k).bind fun _ => (Local.expect "DO" .expectedWhileDo k).bind fun _ =>
    h.bind fun _ => expect_local _ k

lemma statementRule_agrees (hs : Takes statement Stmt.Spells)
    (h : Agrees (k - 1) statement statement') :
    Agrees k (statementRule statement) (statementRule statement') := by
  have hb : Agrees (k - 1) (blockOf statement) (blockOf statement') := blockOf_agrees hs h
  refine .accept_bind (declaration_local _) (.accept_bind (ifElse_agrees hb)
    (.accept_bind (switch_agrees hb) (.accept_bind (loop_agrees hb) (.accept_bind ?_
      (expressionOrAssignment_local k)))))
  exact (expression_local _).bind fun _ => expect_local _ _

end

theorem statement_local : Local statement := fun _ =>
  recursive_agrees fun _ ahead _ _ =>
    statementRule_agrees (recursive_takes (fun _ => statementRule_takes) ahead)

theorem block_local : Local block := fun k => blockOf_agrees statement_takes (statement_local k)

lemma listGlobal_local : Local listGlobal := fun k =>
  (Local.expectName .expectedListName k).bind fun _ => (typeName?_local k).bind fun _ =>
    (Local.expect "=" .expectedListEquals k).bind fun _ =>
      (Local.expect "[" .expectedOpenBracket k).bind fun _ =>
        (arguments_agrees (expression_local k) "]" .expectedCloseBracket).bind fun _ =>
          expect_local _ k

lemma mutableGlobal_local : Local mutableGlobal := fun k =>
  (Local.expectName .expectedVariableName k).bind fun _ => (typeName?_local k).bind fun _ =>
    (initial?_local k).bind fun _ => expect_local _ k

lemma immutableGlobal_local : Local immutableGlobal := fun k =>
  (Local.expectName .expectedValueName k).bind fun _ => (typeName?_local k).bind fun _ =>
    (Local.expect "=" .expectedInitialValue k).bind fun _ =>
      (expression_local k).bind fun _ => expect_local _ k

theorem global_local : Local global := fun k =>
  (Local.accept "LIST" k).bind fun _ => .ite (fun _ => listGlobal_local k) fun _ =>
    (Local.accept "VAR" k).bind fun _ => .ite (fun _ => mutableGlobal_local k) fun _ =>
      (Local.accept "VAL" k).bind fun _ => .ite (fun _ => immutableGlobal_local k) fun _ => .throw _

lemma parameters_local : Local parameters := fun k => by
  refine (Local.accept ")" k).bind fun _ => .ite (fun _ => .pure []) fun _ => ?_
  refine .bounded_of_step (.throw _) fun j ahead ahead' _ hahead x x' => ?_
  refine (Local.expectName .expectedParameterName j).bind fun _ =>
    (Local.expect ":" .expectedParameterColon j).bind fun _ =>
      (Local.expectName .expectedParameterType j).bind fun _ =>
        (Local.accept ")" j).bind fun _ => .ite (fun _ => .pure _) fun _ => .expect_bind ?_
  exact hahead.bind fun ps => .pure _

theorem function_local : Local function := fun k =>
  (Local.expect "FUN" .expectedFun k).bind fun _ =>
    (Local.expectName .expectedFunctionName k).bind fun _ =>
      (Local.expect "(" .expectedOpenParenthesis k).bind fun _ =>
        (parameters_local k).bind fun _ => (typeName?_local k).bind fun _ =>
          (Local.expect "DO" .expectedFunctionDo k).bind fun _ =>
            (block_local k).bind fun _ => expect_local _ k

lemma globals_local : Local (bounded globals) := fun k => by
  refine .bounded_of_step (.pure _) fun j ahead ahead' _ hahead x x' => ?_
  refine (Local.atGlobal j).bind fun _ => .ite (fun _ => ?_) fun _ => .pure []
  exact .bind_takes (global_local j) (global_takes.costs fun _ _ => Global.Spells.length_pos) fun g =>
    hahead.bind fun gs => .pure (g :: gs)

lemma functions_local : Local (bounded functions) := fun k => by
  refine .bounded_of_step (.pure _) fun j ahead ahead' _ hahead x x' => ?_
  refine (Local.peek j).bind fun _ => .ite (fun _ => .pure []) fun _ => ?_
  refine (Local.at? "FUN" j).bind fun _ => .ite (fun _ => ?_) fun _ => ?_
  · exact .bind_takes (function_local j) (function_takes.costs fun _ _ => Function.Spells.length_pos)
      fun f => hahead.bind fun fs => .pure (f :: fs)
  · exact (Local.atGlobal j).bind fun _ => .ite (fun _ => .throw _) fun _ => .throw _

/-- What a program is read as, or why it is not read, is settled by the tokens up to the one where it
stops. -/
theorem program_local : Local program := fun k =>
  (globals_local k).bind fun _ => (functions_local k).bind fun _ => .pure _

/-- The rules that tokens are read with from outside. -/
inductive Public : {α : Type} → Reader α → Prop
  | program : Public program
  | global : Public global
  | function : Public function
  | block : Public block
  | statement : Public statement
  | expression : Public expression

lemma Public.isLocal {rule : Reader α} (h : Public rule) : Local rule := by
  cases h with
  | program => exact program_local
  | global => exact global_local
  | function => exact function_local
  | block => exact block_local
  | statement => exact statement_local
  | expression => exact expression_local

lemma Public.shrinks {rule : Reader α} (h : Public rule) : Shrinks rule := h.isLocal.shrinks

end Reader
end BlockScript
