import BlockScript.Proofs.Syntax.Grammar
import BlockScript.Script
import Mathlib.Data.List.Basic
/-! What the rules take off the front of a token list spells the tree they give. -/
namespace BlockScript.Reader
variable {α β : Type}

lemma bind_ok {rule : Reader α} {f : α → Reader β} {ts mid : List Token} {a : α}
    (h : rule ts = .ok a mid) : (rule >>= f) ts = f a mid := by
  change EStateM.bind rule f ts = _
  unfold EStateM.bind
  rw [h]

lemma run_eq_ok {rule : Reader α} {ts rest : List Token} {a : α} :
    rule.run ts = .ok (a,rest) ↔ rule ts = .ok a rest := by
  unfold run runFrom
  cases rule ts <;> simp

lemma at?_eq (text : String) (t : Token) (ts : List Token) :
    at? text (t :: ts) = .ok (t.is text) (t :: ts) := rfl

lemma accept_eq (text : String) (t : Token) (ts : List Token) :
    accept text (t :: ts) = if t.is text then .ok true ts else .ok false (t :: ts) := by
  unfold accept
  rw [bind_ok (at?_eq text t ts)]
  cases t.is text <;> rfl

/-- A rule that succeeds takes tokens off the front that spell its result. -/
def Takes (rule : Reader α) (P : α → List Token → Prop) : Prop :=
  ∀ ts a rest, rule ts = .ok a rest → ∃ us, ts = us ++ rest ∧ P a us

namespace Takes
variable {P : α → List Token → Prop} {Q : β → List Token → Prop} {rule : Reader α}

lemma pure {a : α} (h : P a []) : Takes (Pure.pure a) P := by
  intro ts _ _ hr
  cases hr
  exact ⟨[],rfl,h⟩

lemma throw {cause : ReadError.Cause} : Takes (MonadExcept.throw cause : Reader α) P := by
  intro ts _ _ hr
  cases hr

lemma bind {f : α → Reader β} (h : Takes rule P)
    (hf : ∀ a us, P a us → Takes (f a) (fun b vs => Q b (us ++ vs))) : Takes (rule >>= f) Q := by
  intro ts b rest hr
  change EStateM.bind rule f ts = _ at hr
  unfold EStateM.bind at hr
  cases hx : rule ts with
  | error e s => rw [hx] at hr; cases hr
  | ok a mid =>
    rw [hx] at hr
    obtain ⟨us,rfl,ha⟩ := h ts a mid hx
    obtain ⟨vs,rfl,hb⟩ := hf a us ha mid b rest hr
    exact ⟨us ++ vs,(List.append_assoc ..).symm,hb⟩

lemma imp {P' : α → List Token → Prop} (h : Takes rule P) (hp : ∀ a us, P a us → P' a us) :
    Takes rule P' := by
  intro ts a rest hr
  obtain ⟨us,hts,ha⟩ := h ts a rest hr
  exact ⟨us,hts,hp a us ha⟩

lemma ite {c : Prop} [Decidable c] {other : Reader α} (h : c → Takes rule P)
    (h' : ¬c → Takes other P) : Takes (if c then rule else other) P := by
  split
  · next hc => exact h hc
  · next hc => exact h' hc

lemma bounded {rule : List Token → Reader α} (h : ∀ fuel, Takes (rule fuel) P) :
    Takes (bounded rule) P := fun ts => h ts ts

/-- A look at the next token takes nothing. -/
lemma peek : Takes peek (fun _ us => us = []) := by
  intro ts _ _ hr
  cases hr
  exact ⟨[],rfl,rfl⟩

lemma at? (text : String) : Takes (at? text) (fun _ us => us = []) := by
  intro ts _ _ hr
  cases hr
  exact ⟨[],rfl,rfl⟩

lemma accept (text : String) : Takes (accept text) (fun b us =>
    (b = false ∧ us = []) ∨ ∃ t, b = true ∧ us = [t] ∧ t.is text = true) := by
  intro ts b rest hr
  cases ts with
  | nil => cases hr; exact ⟨[],rfl,.inl ⟨rfl,rfl⟩⟩
  | cons t ts =>
    rw [accept_eq] at hr
    split at hr
    · next h => cases hr; exact ⟨[t],rfl,.inr ⟨t,rfl,rfl,h⟩⟩
    · cases hr; exact ⟨[],rfl,.inl ⟨rfl,rfl⟩⟩

lemma expect (text : String) (cause : ReadError.Cause) :
    Takes (expect text cause) (fun _ us => ∃ t, us = [t] ∧ t.is text = true) := by
  apply bind (accept text)
  intro b us hpost
  obtain ⟨rfl,rfl⟩ | ⟨t,rfl,rfl,ht⟩ := hpost
  · exact throw
  · exact pure ⟨t,rfl,ht⟩

/-- The next token as a rule decides by it what to do with it. -/
lemma peek_bind {f : Option Token → Reader α} (hnone : Takes (f none) P)
    (hsome : ∀ t ts a rest, f (some t) (t :: ts) = .ok a rest →
      ∃ us, t :: ts = us ++ rest ∧ P a us) : Takes (Reader.peek >>= f) P := by
  intro ts a rest hr
  cases ts with
  | nil => exact hnone [] a rest hr
  | cons t ts => exact hsome t ts a rest hr

lemma at?_bind {text : String} {f : Bool → Reader α} (hfalse : Takes (f false) P)
    (htrue : ∀ t ts a rest, t.is text = true → f true (t :: ts) = .ok a rest →
      ∃ us, t :: ts = us ++ rest ∧ P a us) : Takes (Reader.at? text >>= f) P := by
  intro ts a rest hr
  cases ts with
  | nil => exact hfalse [] a rest hr
  | cons t ts =>
    change f (t.is text) (t :: ts) = _ at hr
    cases ht : t.is text with
    | false => rw [ht] at hr; exact hfalse _ a rest hr
    | true => rw [ht] at hr; exact htrue t ts a rest ht hr

lemma expectName (cause : ReadError.Cause) :
    Takes (expectName cause) (fun x us => ∃ t, us = [t] ∧ t.isName = true ∧ x = t.text) := by
  refine peek_bind throw fun t ts x rest hr => ?_
  dsimp only at hr
  split at hr
  · next h => cases hr; exact ⟨[t],rfl,t,rfl,h,rfl⟩
  · cases hr

lemma acceptOperator (level : Operator.Level) : Takes (acceptOperator level) (fun o us =>
    (o = none ∧ us = []) ∨ ∃ op t, o = some op ∧ us = [t] ∧ t.operator? = some op ∧
      op.level = level) := by
  refine peek_bind (pure (.inl ⟨rfl,rfl⟩)) fun t ts o rest hr => ?_
  have hnone : (Pure.pure none : Reader (Option Operator)) (t :: ts) = .ok o rest →
      ∃ us, t :: ts = us ++ rest ∧ ((o = none ∧ us = []) ∨ ∃ op u, o = some op ∧ us = [u] ∧
        u.operator? = some op ∧ op.level = level) := by
    rintro ⟨⟩
    exact ⟨[],rfl,.inl ⟨rfl,rfl⟩⟩
  dsimp only at hr
  split at hr
  · next hk =>
    cases hop : Operator.ofSymbol? t.text with
    | none => rw [hop] at hr; exact hnone hr
    | some op =>
      rw [hop] at hr
      dsimp only at hr
      split at hr
      · next hl =>
        cases hr
        exact ⟨[t],rfl,.inr ⟨op,t,rfl,rfl,by rw [Token.operator?,if_pos hk,hop],by simpa using hl⟩⟩
      · exact hnone hr
  · exact hnone hr

end Takes

/-- The operators of one level after an operand of the next. -/
lemma operators_takes {level : Operator.Level} {k : Nat} (hk : level.height = k + 1)
    {operand : Reader Expr} (ho : Takes operand (Expr.Spells k)) (l : Expr) (fuel : List Token) :
    Takes (operators level operand l fuel) (Expr.Tail k l) := by
  induction fuel generalizing l with
  | nil => exact .pure .nil
  | cons t fuel ih =>
    refine .bind (.acceptOperator level) ?_
    intro o us hpost
    obtain ⟨rfl,rfl⟩ | ⟨op,t,rfl,rfl,ht,rfl⟩ := hpost
    · exact .pure .nil
    · refine .bind ho fun r vs hr => ?_
      exact (ih _).imp fun e ws he => by
        simpa using Expr.Tail.cons ht hk hr he

lemma joined_takes (level : Operator.Level) {k : Nat} (hk : level.height = k + 1)
    {operand : Reader Expr} (ho : Takes operand (Expr.Spells k)) :
    Takes (joined level operand) (Expr.Spells (k + 1)) := by
  refine .bind ho fun l ts hl => .bounded fun fuel => ?_
  exact (operators_takes hk ho l fuel).imp fun e us he => .chain hl he

section
variable {expression : Reader Expr}

lemma items_takes (he : Takes expression (Expr.Spells 4)) (closing : String)
    (cause : ReadError.Cause) (fuel : List Token) :
    Takes (items expression closing cause fuel) (fun es us =>
      ∃ ts c, us = ts ++ [c] ∧ Expr.Items es ts ∧ c.is closing = true) := by
  induction fuel with
  | nil => exact .throw
  | cons t fuel ih =>
    refine .bind he fun e ts hts => .bind (.accept closing) ?_
    intro b us hpost
    obtain ⟨rfl,rfl⟩ | ⟨c,rfl,rfl,hc⟩ := hpost
    · refine .bind (.expect "," cause) ?_
      intro _ _ hpost
      obtain ⟨c,rfl,hc⟩ := hpost
      refine .bind ih ?_
      intro es _ hpost
      obtain ⟨vs,d,rfl,hes,hd⟩ := hpost
      exact .pure ⟨ts ++ c :: vs,d,by simp,.cons hts hc hes,hd⟩
    · exact .pure ⟨ts,c,by simp,.one hts,hc⟩

lemma arguments_takes (he : Takes expression (Expr.Spells 4)) (closing : String)
    (cause : ReadError.Cause) :
    Takes (arguments expression closing cause) (fun es us =>
      ∃ ts c, us = ts ++ [c] ∧ Expr.Arguments es ts ∧ c.is closing = true) := by
  refine .bind (.accept closing) ?_
  intro b us hpost
  obtain ⟨rfl,rfl⟩ | ⟨c,rfl,rfl,hc⟩ := hpost
  · refine .bounded fun fuel => (items_takes he closing cause fuel).imp ?_
    intro es _ hpost
    obtain ⟨ts,c,rfl,hes,hc⟩ := hpost
    exact ⟨ts,c,rfl,.items hes,hc⟩
  · exact .pure ⟨[],c,rfl,.nil,hc⟩

lemma named_takes (he : Takes expression (Expr.Spells 4)) {x : Token} (hx : x.isName = true) :
    Takes (named expression x.text) (fun e us => Expr.Primary e (x :: us)) := by
  refine .bind (.accept "(") ?_
  intro b us hpost
  obtain ⟨rfl,rfl⟩ | ⟨o,rfl,rfl,ho⟩ := hpost
  · refine .bind (.accept "[") ?_
    intro b us hpost
    obtain ⟨rfl,rfl⟩ | ⟨o,rfl,rfl,ho⟩ := hpost
    · exact .pure (.ref hx)
    · refine .bind he fun i ts hi => .bind (.expect "]" .expectedCloseBracket) ?_
      intro _ _ hpost
      obtain ⟨c,rfl,hc⟩ := hpost
      exact .pure (by simpa using Expr.Primary.element hx ho hi hc)
  · refine .bind (arguments_takes he ")" .expectedCloseParenthesis) ?_
    intro es _ hpost
    obtain ⟨ts,c,rfl,hes,hc⟩ := hpost
    exact .pure (by simpa using Expr.Primary.call hx ho hes hc)

lemma literal_ok {v : Option Literal} {cause : ReadError.Cause} {t : Token} {ts rest : List Token}
    {e : Expr} (h : literal v cause (t :: ts) = .ok e rest) :
    ∃ l, v = some l ∧ e = .literal l none ∧ rest = ts := by
  cases v with
  | none => cases h
  | some l => cases h; exact ⟨l,rfl,rfl,rfl⟩

lemma operand_takes (he : Takes expression (Expr.Spells 4)) :
    Takes (operand expression) Expr.Primary := by
  refine .peek_bind .throw fun t ts e rest hr => ?_
  have hlit : ∀ {v cause}, literal v cause (t :: ts) = .ok e rest → t.literal? = v →
      ∃ us, t :: ts = us ++ rest ∧ Expr.Primary e us := by
    intro v cause h hv
    obtain ⟨l,rfl,rfl,rfl⟩ := literal_ok h
    exact ⟨[t],rfl,.literal hv⟩
  dsimp only at hr
  unfold Token.literal? at hlit
  cases hk : t.kind <;> simp only [hk] at hr hlit
  case identifier =>
    split at hr
    · next h => exact hlit hr (if_pos h)
    · next hn =>
      split at hr
      · next h => exact hlit hr (by rw [if_neg hn,if_pos h])
      · next ht =>
        split at hr
        · next h => exact hlit hr (by rw [if_neg hn,if_neg ht,if_pos h])
        · split at hr
          · cases hr
          · next hkey =>
            have hx : t.isName = true := by
              simpa [Token.isName,Token.isKeyword,hk] using hkey
            obtain ⟨us,rfl,h⟩ := named_takes he hx ts e rest hr
            exact ⟨t :: us,rfl,h⟩
  case operator =>
    split at hr
    · next ho =>
      have htail : Takes (do
          let inner ← expression
          expect ")" .expectedCloseParenthesis
          return .group inner none) (fun e us => Expr.Primary e (t :: us)) := by
        refine .bind he fun i us hi => .bind (.expect ")" .expectedCloseParenthesis) ?_
        intro _ _ hpost
        obtain ⟨c,rfl,hc⟩ := hpost
        exact .pure (by simpa using Expr.Primary.group ho hi hc)
      obtain ⟨us,rfl,h⟩ := htail ts e rest hr
      exact ⟨t :: us,rfl,h⟩
    · cases hr
  all_goals exact hlit hr rfl

lemma expressionRule_takes (he : Takes expression (Expr.Spells 4)) :
    Takes (expressionRule expression) (Expr.Spells 4) := by
  have h₀ : Takes (operand expression) (Expr.Spells 0) := (operand_takes he).imp fun _ _ => .primary
  have h₁ := joined_takes .multiplicative rfl h₀
  have h₂ := joined_takes .additive rfl h₁
  have h₃ := joined_takes .comparison rfl h₂
  exact joined_takes .logical rfl h₃

lemma recursive_takes {rule : Reader α → Reader α} {P : α → List Token → Prop}
    (h : ∀ inner, Takes inner P → Takes (rule inner) P) (fuel : List Token) :
    Takes (recursive rule fuel) P := by
  induction fuel with
  | nil => exact .throw
  | cons _ fuel ih => exact h _ ih

end

/-- An expression is read from tokens that spell it. -/
theorem expression_takes : Takes expression (Expr.Spells 4) :=
  .bounded (recursive_takes fun _ => expressionRule_takes)

lemma typeName?_takes : Takes typeName? TypeLabel := by
  refine .bind (.accept ":") ?_
  intro b us hpost
  obtain ⟨rfl,rfl⟩ | ⟨c,rfl,rfl,hc⟩ := hpost
  · exact .pure .none
  · refine .bind (.expectName .expectedTypeName) ?_
    intro _ _ hpost
    obtain ⟨x,rfl,hx,rfl⟩ := hpost
    exact .pure (.some hc hx)

lemma initial?_takes : Takes initial? Initial := by
  refine .bind (.accept "=") ?_
  intro b us hpost
  obtain ⟨rfl,rfl⟩ | ⟨o,rfl,rfl,ho⟩ := hpost
  · exact .pure .none
  · exact .bind expression_takes fun e ts he => .pure (by simpa using Initial.some ho he)

section
variable {block : Reader (List Stmt)}

lemma declaration_takes {l : Token} (hl : l.is "LET" = true) :
    Takes declaration (fun s us => Stmt.Spells s (l :: us)) := by
  refine .bind (.expectName .expectedVariableName) ?_
  intro _ _ hpost
  obtain ⟨x,rfl,hx,rfl⟩ := hpost
  refine .bind typeName?_takes fun a ts ha => .bind initial?_takes fun v us hv =>
    .bind (.expect ";" .expectedSemicolon) ?_
  intro _ _ hpost
  obtain ⟨s,rfl,hs⟩ := hpost
  exact .pure (by simpa using Stmt.Spells.declaration hl hx ha hv hs)

lemma ifElse_takes (hb : Takes block Stmt.Block) {i : Token} (hi : i.is "IF" = true) :
    Takes (ifElse block) (fun s us => Stmt.Spells s (i :: us)) := by
  refine .bind expression_takes fun c ts hc => .bind (.expect "DO" .expectedIfDo) ?_
  intro _ _ hpost
  obtain ⟨d,rfl,hd⟩ := hpost
  refine .bind hb fun a us ha => .bind (.accept "ELSE") ?_
  intro b _ hpost
  obtain ⟨rfl,rfl⟩ | ⟨l,rfl,rfl,hl⟩ := hpost
  · refine .bind (.expect "END" .expectedIfEnd) ?_
    intro _ _ hpost
    obtain ⟨n,rfl,hn⟩ := hpost
    exact .pure (by simpa using Stmt.Spells.ifOnly hi hc hd ha hn)
  · refine .bind hb fun b vs hb => .bind (.expect "END" .expectedElseEnd) ?_
    intro _ _ hpost
    obtain ⟨n,rfl,hn⟩ := hpost
    exact .pure (by simpa using Stmt.Spells.ifElse hi hc hd ha hl hb hn)

lemma cases_takes (hb : Takes block Stmt.Block) (fuel : List Token) :
    Takes (cases block fuel) Case.Arms := by
  induction fuel with
  | nil => exact .throw
  | cons _ fuel ih =>
    refine .bind (.accept "CASE") ?_
    intro b _ hpost
    obtain ⟨rfl,rfl⟩ | ⟨c,rfl,rfl,hc⟩ := hpost
    · refine .bind (.expect "DEFAULT" .expectedDefault) ?_
      intro _ _ hpost
      obtain ⟨d,rfl,hd⟩ := hpost
      exact .bind hb fun a ts ha => .pure (by simpa using Case.Arms.default hd ha)
    · refine .bind expression_takes fun e ts he => .bind (.expect ":" .expectedCaseColon) ?_
      intro _ _ hpost
      obtain ⟨o,rfl,ho⟩ := hpost
      exact .bind hb fun a us ha => .bind ih fun cs vs hcs =>
        .pure (by simpa using Case.Arms.value hc he ho ha hcs)

lemma switch_takes (hb : Takes block Stmt.Block) {s : Token} (hs : s.is "SWITCH" = true) :
    Takes (switch block) (fun st us => Stmt.Spells st (s :: us)) := by
  refine .bind expression_takes fun c ts hc => .bind (.bounded (cases_takes hb)) fun cs us hcs =>
    .bind (.expect "END" .expectedSwitchEnd) ?_
  intro _ _ hpost
  obtain ⟨n,rfl,hn⟩ := hpost
  exact .pure (by simpa using Stmt.Spells.switch hs hc hcs hn)

lemma loop_takes (hb : Takes block Stmt.Block) {w : Token} (hw : w.is "WHILE" = true) :
    Takes (loop block) (fun s us => Stmt.Spells s (w :: us)) := by
  refine .bind expression_takes fun c ts hc => .bind (.expect "DO" .expectedWhileDo) ?_
  intro _ _ hpost
  obtain ⟨d,rfl,hd⟩ := hpost
  refine .bind hb fun a us ha => .bind (.expect "END" .expectedWhileEnd) ?_
  intro _ _ hpost
  obtain ⟨n,rfl,hn⟩ := hpost
  exact .pure (by simpa using Stmt.Spells.loop hw hc hd ha hn)

lemma expressionOrAssignment_takes : Takes expressionOrAssignment Stmt.Spells := by
  refine .bind .peek ?_
  intro next _ hpost
  obtain rfl := hpost
  refine .bind expression_takes fun r ts hr => .at?_bind ?_ fun o us s rest ho hs => ?_
  · refine .bind (.expect ";" .expectedSemicolon) ?_
    intro _ _ hpost
    obtain ⟨s,rfl,hs⟩ := hpost
    exact .pure (by simpa using Stmt.Spells.expression hr hs)
  · have htail : Takes (do
        let value ← expression
        expect ";" .expectedSemicolon
        return .assignment r value)
        (fun s us => r.receiver?.isNone = false → Stmt.Spells s (ts ++ o :: us)) := by
      refine .bind expression_takes fun e us he => .bind (.expect ";" .expectedSemicolon) ?_
      intro _ _ hpost
      obtain ⟨s,rfl,hs⟩ := hpost
      exact .pure fun hx => by
        simpa using Stmt.Spells.assignment hr (by simpa using hx) ho he hs
    cases hx : r.receiver?.isNone with
    | true => simp only [hx] at hs; cases hs
    | false =>
      simp only [hx] at hs
      obtain ⟨vs,rfl,h⟩ := htail us s rest hs
      exact ⟨o :: vs,rfl,by simpa using h hx⟩

lemma statements_takes {statement : Reader Stmt} (hs : Takes statement Stmt.Spells)
    (fuel : List Token) : Takes (statements statement fuel) Stmt.Block := by
  induction fuel with
  | nil => exact .pure .nil
  | cons _ fuel ih =>
    refine .bind .peek ?_
    intro next _ hpost
    obtain rfl := hpost
    cases next with
    | none => exact .pure .nil
    | some t =>
      refine .ite (fun _ => .pure .nil) fun _ => ?_
      exact .bind hs fun s us hs => .bind ih fun ss vs hss => .pure (by simpa using hss.cons hs)

lemma statementRule_takes {statement : Reader Stmt} (hs : Takes statement Stmt.Spells) :
    Takes (statementRule statement) Stmt.Spells := by
  have hb : Takes (blockOf statement) Stmt.Block := .bounded (statements_takes hs)
  refine .bind (.accept "LET") ?_
  intro b _ hpost
  obtain ⟨rfl,rfl⟩ | ⟨l,rfl,rfl,hl⟩ := hpost
  case inr => exact declaration_takes hl
  refine .bind (.accept "IF") ?_
  intro b _ hpost
  obtain ⟨rfl,rfl⟩ | ⟨i,rfl,rfl,hi⟩ := hpost
  case inr => exact ifElse_takes hb hi
  refine .bind (.accept "SWITCH") ?_
  intro b _ hpost
  obtain ⟨rfl,rfl⟩ | ⟨s,rfl,rfl,hs⟩ := hpost
  case inr => exact switch_takes hb hs
  refine .bind (.accept "WHILE") ?_
  intro b _ hpost
  obtain ⟨rfl,rfl⟩ | ⟨w,rfl,rfl,hw⟩ := hpost
  case inr => exact loop_takes hb hw
  refine .bind (.accept "RETURN") ?_
  intro b _ hpost
  obtain ⟨rfl,rfl⟩ | ⟨r,rfl,rfl,hr⟩ := hpost
  case inr =>
    refine .bind expression_takes fun e ts he => .bind (.expect ";" .expectedSemicolon) ?_
    intro _ _ hpost
    obtain ⟨s,rfl,hs⟩ := hpost
    exact .pure (by simpa using Stmt.Spells.ret hr he hs)
  exact expressionOrAssignment_takes

end

theorem statement_takes : Takes statement Stmt.Spells :=
  .bounded (recursive_takes fun _ => statementRule_takes)

theorem block_takes : Takes block Stmt.Block := .bounded (statements_takes statement_takes)

theorem global_takes : Takes global Global.Spells := by
  refine .bind (.accept "LIST") ?_
  intro b _ hpost
  obtain ⟨rfl,rfl⟩ | ⟨l,rfl,rfl,hl⟩ := hpost
  case inr =>
    refine .bind (.expectName .expectedListName) ?_
    intro _ _ hpost
    obtain ⟨x,rfl,hx,rfl⟩ := hpost
    refine .bind typeName?_takes fun a ts ha => .bind (.expect "=" .expectedListEquals) ?_
    intro _ _ hpost
    obtain ⟨o,rfl,ho⟩ := hpost
    refine .bind (.expect "[" .expectedOpenBracket) ?_
    intro _ _ hpost
    obtain ⟨b,rfl,hb⟩ := hpost
    refine .bind (arguments_takes expression_takes "]" .expectedCloseBracket) ?_
    intro es _ hpost
    obtain ⟨us,c,rfl,hes,hc⟩ := hpost
    refine .bind (.expect ";" .expectedSemicolon) ?_
    intro _ _ hpost
    obtain ⟨s,rfl,hs⟩ := hpost
    exact .pure (by simpa using Global.Spells.list hl hx ha ho hb hes hc hs)
  refine .bind (.accept "VAR") ?_
  intro b _ hpost
  obtain ⟨rfl,rfl⟩ | ⟨l,rfl,rfl,hl⟩ := hpost
  case inr =>
    refine .bind (.expectName .expectedVariableName) ?_
    intro _ _ hpost
    obtain ⟨x,rfl,hx,rfl⟩ := hpost
    refine .bind typeName?_takes fun a ts ha => .bind initial?_takes fun v us hv =>
      .bind (.expect ";" .expectedSemicolon) ?_
    intro _ _ hpost
    obtain ⟨s,rfl,hs⟩ := hpost
    exact .pure (by simpa using Global.Spells.mutable hl hx ha hv hs)
  refine .bind (.accept "VAL") ?_
  intro b _ hpost
  obtain ⟨rfl,rfl⟩ | ⟨l,rfl,rfl,hl⟩ := hpost
  case inr =>
    refine .bind (.expectName .expectedValueName) ?_
    intro _ _ hpost
    obtain ⟨x,rfl,hx,rfl⟩ := hpost
    refine .bind typeName?_takes fun a ts ha => .bind (.expect "=" .expectedInitialValue) ?_
    intro _ _ hpost
    obtain ⟨o,rfl,ho⟩ := hpost
    refine .bind expression_takes fun e us he => .bind (.expect ";" .expectedSemicolon) ?_
    intro _ _ hpost
    obtain ⟨s,rfl,hs⟩ := hpost
    exact .pure (by simpa using Global.Spells.immutable hl hx ha ho he hs)
  exact .throw

lemma parameterList_takes (fuel : List Token) :
    Takes (parameterList fuel) (fun ps us =>
      ∃ ts c, us = ts ++ [c] ∧ Function.Parameters ps ts ∧ c.is ")" = true) := by
  induction fuel with
  | nil => exact .throw
  | cons _ fuel ih =>
    refine .bind (.expectName .expectedParameterName) ?_
    intro _ _ hpost
    obtain ⟨x,rfl,hx,rfl⟩ := hpost
    refine .bind (.expect ":" .expectedParameterColon) ?_
    intro _ _ hpost
    obtain ⟨c,rfl,hc⟩ := hpost
    refine .bind (.expectName .expectedParameterType) ?_
    intro _ _ hpost
    obtain ⟨t,rfl,ht,rfl⟩ := hpost
    refine .bind (.accept ")") ?_
    intro b _ hpost
    obtain ⟨rfl,rfl⟩ | ⟨d,rfl,rfl,hd⟩ := hpost
    · refine .bind (.expect "," .expectedParameterEnd) ?_
      intro _ _ hpost
      obtain ⟨o,rfl,ho⟩ := hpost
      refine .bind ih ?_
      intro ps _ hpost
      obtain ⟨ts,d,rfl,hps,hd⟩ := hpost
      exact .pure ⟨x :: c :: t :: o :: ts,d,by simp,.cons hx hc ht ho hps,hd⟩
    · exact .pure ⟨[x,c,t],d,rfl,.one hx hc ht,hd⟩

theorem function_takes : Takes function Function.Spells := by
  refine .bind (.expect "FUN" .expectedFun) ?_
  intro _ _ hpost
  obtain ⟨f,rfl,hf⟩ := hpost
  refine .bind (.expectName .expectedFunctionName) ?_
  intro _ _ hpost
  obtain ⟨x,rfl,hx,rfl⟩ := hpost
  refine .bind (.expect "(" .expectedOpenParenthesis) ?_
  intro _ _ hpost
  obtain ⟨o,rfl,ho⟩ := hpost
  have hp : Takes parameters (fun ps us => ∃ ts c, us = ts ++ [c] ∧
      ((ps = [] ∧ ts = []) ∨ Function.Parameters ps ts) ∧ c.is ")" = true) := by
    refine .bind (.accept ")") ?_
    intro b _ hpost
    obtain ⟨rfl,rfl⟩ | ⟨c,rfl,rfl,hc⟩ := hpost
    · refine .bounded fun fuel => (parameterList_takes fuel).imp ?_
      intro ps _ hpost
      obtain ⟨ts,c,rfl,hps,hc⟩ := hpost
      exact ⟨ts,c,rfl,.inr hps,hc⟩
    · exact .pure ⟨[],c,rfl,.inl ⟨rfl,rfl⟩,hc⟩
  refine .bind hp ?_
  intro ps _ hpost
  obtain ⟨ts,c,rfl,hps,hc⟩ := hpost
  refine .bind typeName?_takes fun a us ha => .bind (.expect "DO" .expectedFunctionDo) ?_
  intro _ _ hpost
  obtain ⟨d,rfl,hd⟩ := hpost
  refine .bind block_takes fun b vs hb => .bind (.expect "END" .expectedFunctionEnd) ?_
  intro _ _ hpost
  obtain ⟨n,rfl,hn⟩ := hpost
  exact .pure (by simpa using Function.Spells.mk hf hx ho hps hc ha hd hb hn)

lemma atGlobal_takes : Takes atGlobal (fun _ us => us = []) := by
  intro ts _ _ hr
  cases hr
  exact ⟨[],rfl,rfl⟩

lemma globals_takes (fuel : List Token) : Takes (globals fuel) (Sequence Global.Spells) := by
  induction fuel with
  | nil => exact .pure .nil
  | cons _ fuel ih =>
    refine .bind atGlobal_takes ?_
    intro b _ hpost
    obtain rfl := hpost
    refine .ite (fun _ => ?_) fun _ => .pure .nil
    exact .bind global_takes fun g us hg => .bind ih fun gs vs hgs =>
      .pure (by simpa using hgs.cons hg)

lemma bind_eq_ok {rule : Reader α} {f : α → Reader β} {ts rest : List Token} {b : β}
    (h : (rule >>= f) ts = .ok b rest) : ∃ a mid, rule ts = .ok a mid ∧ f a mid = .ok b rest := by
  change EStateM.bind rule f ts = _ at h
  unfold EStateM.bind at h
  cases hx : rule ts with
  | error e s => rw [hx] at h; cases h
  | ok a mid => rw [hx] at h; exact ⟨a,mid,rfl,h⟩

/-- Functions are read to the end of the input. -/
lemma functions_ok (fuel : List Token) {ts rest : List Token} {fs : List Function}
    (hfuel : ts.length ≤ fuel.length) (h : functions fuel ts = .ok fs rest) :
    rest = [] ∧ Sequence Function.Spells fs ts := by
  induction fuel generalizing ts fs with
  | nil =>
    obtain rfl := List.length_eq_zero_iff.mp (Nat.le_zero.mp hfuel)
    cases h
    exact ⟨rfl,.nil⟩
  | cons _ fuel ih =>
    cases ts with
    | nil => cases h; exact ⟨rfl,.nil⟩
    | cons t ts =>
      change (if t.is "FUN" = true then (do
          let first ← function
          return first :: (← functions fuel) : Reader (List Function))
        else do if ← atGlobal then throw .globalAfterFunction else throw .expectedDeclaration)
          (t :: ts) = _ at h
      split at h
      · obtain ⟨f,mid,hf,h⟩ := bind_eq_ok h
        obtain ⟨gs,rest',hgs,⟨⟩⟩ := bind_eq_ok h
        obtain ⟨us,hus,hfs⟩ := function_takes _ _ _ hf
        have hlen : mid.length ≤ fuel.length := by
          have hpos : 0 < us.length := by cases hfs; simp
          have := congrArg List.length hus
          simp only [List.length_append,List.length_cons] at this hfuel
          omega
        obtain ⟨rfl,hs⟩ := ih hlen hgs
        exact ⟨rfl,hus ▸ .cons hfs hs⟩
      · obtain ⟨b,mid,_,h⟩ := bind_eq_ok h
        cases b <;> cases h

/-- A program is read from all tokens, which spell it. -/
theorem program_ok {ts rest : List Token} {p : Program} (h : program ts = .ok p rest) :
    rest = [] ∧ p.Spells ts := by
  obtain ⟨gs,mid,hg,h⟩ := bind_eq_ok h
  obtain ⟨fs,rest',hf,⟨⟩⟩ := bind_eq_ok h
  obtain ⟨us,rfl,hgs⟩ := globals_takes _ _ _ _ hg
  obtain ⟨rfl,hfs⟩ := functions_ok mid (Nat.le_refl _) hf
  exact ⟨rfl,us,mid,rfl,hgs,hfs⟩

end BlockScript.Reader

namespace BlockScript

lemma Sequence.exists_of_mem {α : Type} {P : α → List Token → Prop} {as : List α} {ts : List Token}
    (h : Sequence P as ts) : ∀ a ∈ as, ∃ us, (∀ t ∈ us, t ∈ ts) ∧ P a us := by
  induction h with
  | nil => exact nofun
  | @cons a ts as us ha _ ih =>
    intro b hb
    rcases List.mem_cons.mp hb with rfl | hb
    · exact ⟨ts,fun t ht => List.mem_append_left _ ht,ha⟩
    · obtain ⟨vs,hvs,hb⟩ := ih b hb
      exact ⟨vs,fun t ht => List.mem_append_right _ (hvs t ht),hb⟩

lemma Function.Spells.arity {f : Function} {ts : List Token} (h : f.Spells ts) :
    f.parameters.length = f.parameterTypeNames.length := by
  cases h
  simp

lemma Script.read_eq_ok_iff {source : String} {p : Program} :
    Script.read source = .ok p ↔
      ∃ ts, Token.scan source = .ok ts ∧ Reader.program ts = .ok p [] := by
  unfold Script.read
  cases hs : Token.scan source with
  | error e => simp [Except.mapError,Bind.bind,Except.bind]
  | ok ts =>
    cases hr : Reader.program ts with
    | error e rest => simp [Except.mapError,Bind.bind,Except.bind,Reader.run,Reader.runFrom,hr]
    | ok q rest =>
      obtain ⟨rfl,_⟩ := Reader.program_ok hr
      simp [Except.mapError,Bind.bind,Except.bind,Reader.run,Reader.runFrom,hr,Pure.pure,Except.pure]

end BlockScript
