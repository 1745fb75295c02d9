import BlockScript.Proofs.Syntax.Derivation.Tokens
import BlockScript.Proofs.Syntax.Failure.Lookahead
import BlockScript.Proofs.Syntax.Render
/-! Where a rule fails, what it has taken by then can be completed to something that it reads. -/
namespace BlockScript
variable {α β : Type}

/-- The byte where a receiver starts that cannot be assigned to. -/
def ReadError.Cause.receiver? : ReadError.Cause → Option ℕ
  | invalidReceiver start => some start
  | _ => none

namespace Token

lemma exists_word {text : String} (hw : text ∈ grammarWords) :
    ∃ t : Token, t.Readable ∧ t.is text = true := by
  have hsymbol : ∀ w ∈ grammarWords, w ∉ keywords → w.toList.length = 1 ∧
      w.toList.all Lexer.isSymbol = true := by decide
  by_cases hk : text ∈ keywords
  · have hl : Lexical ⟨.identifier,text,0⟩ := .of_keyword hk
    exact ⟨_,.inl hl.scannable,by simp [is]⟩
  · obtain ⟨hone,hs⟩ := hsymbol text hw hk
    obtain ⟨c,hc⟩ := List.length_eq_one_iff.mp hone
    rw [hc,List.all_cons,List.all_nil,Bool.and_true] at hs
    have hl : Lexical ⟨.operator,text,0⟩ := by
      unfold Lexical
      rw [hc]
      exact .single hs
    exact ⟨_,.inl hl.scannable,by simp [is]⟩

lemma exists_name : ∃ t : Token, t.Readable ∧ t.isName = true := by
  have hl : Lexical ⟨.identifier,"x",0⟩ := .identifier rfl (by simp)
  exact ⟨_,.inl hl.scannable,by decide⟩

lemma exists_literal : ∃ t : Token, t.Readable ∧ t.literal? = some .nil := by
  have hl : Lexical ⟨.identifier,"NIL",0⟩ := .of_keyword (by decide)
  exact ⟨_,.inl hl.scannable,rfl⟩

end Token

namespace Reader

/-- Some readable tokens complete these ones. -/
def Viable (P : α → List Token → Prop) (us : List Token) : Prop :=
  ∃ vs a, (∀ v ∈ vs, v.Readable) ∧ P a (us ++ vs)

lemma Viable.bind {P : α → List Token → Prop} {Q : β → List Token → Prop} {us : List Token}
    (h : Viable P us) (hq : ∀ a us, P a us → Viable (fun b vs => Q b (us ++ vs)) []) :
    Viable Q us := by
  obtain ⟨vs,a,hvs,ha⟩ := h
  obtain ⟨ws,b,hws,hb⟩ := hq a _ ha
  refine ⟨vs ++ ws,b,List.forall_mem_append.mpr ⟨hvs,hws⟩,?_⟩
  rwa [List.nil_append,List.append_assoc] at hb

/-- Before an equals sign stands an expression that cannot be assigned to. It starts at the given byte,
where any statement can stand. -/
inductive Misplaced (V : List Token → Prop) (start : ℕ) : List Token → List Token → Prop
  | mk {before receiver more : List Token} {e : Expr} {o : Token} (h : Expr.Spells 4 e receiver)
    (he : e.receiver? = none) (hstart : receiver.head?.map Token.offset = some start)
    (ho : o.is "=" = true)
    (hv : ∀ s ws, Stmt.Spells s ws → (∀ w ∈ ws, w.Readable) → V (before ++ ws)) :
    Misplaced V start (before ++ receiver) (o :: more)

/-- A rule stops after tokens that can be completed. -/
structure Stopped (V : List Token → Prop) (cause : ReadError.Cause) (us rest : List Token) :
    Prop where
  viable : V us
  misplaced : ∀ start ∈ cause.receiver?, Misplaced V start us rest

lemma Stopped.after {V W : List Token → Prop} {cause : ReadError.Cause} {us rest : List Token}
    (h : Stopped V cause us rest) (before : List Token) (hv : ∀ ws, V ws → W (before ++ ws)) :
    Stopped W cause (before ++ us) rest := by
  refine ⟨hv us h.viable,fun start hstart => ?_⟩
  obtain ⟨hr,he,hs,ho,hall⟩ := h.misplaced start hstart
  rw [← List.append_assoc]
  refine .mk hr he hs ho fun s ws hsp hw => ?_
  rw [List.append_assoc]
  exact hv _ (hall s ws hsp hw)

lemma Stopped.plain {V : List Token → Prop} {cause : ReadError.Cause} {us rest : List Token}
    (hv : V us) (hc : cause.receiver? = none) : Stopped V cause us rest :=
  ⟨hv,by simp [hc]⟩

lemma Stopped.spelled {Q : β → List Token → Prop} {cause : ReadError.Cause}
    {before us rest : List Token} (h : Stopped (Viable fun b vs => Q b (before ++ vs)) cause us rest) :
    Stopped (Viable Q) cause (before ++ us) rest := by
  refine h.after before fun ws hw => ?_
  obtain ⟨vs,b,hvs,hb⟩ := hw
  exact ⟨vs,b,hvs,by rwa [List.append_assoc]⟩

/-- What a rule reads can be started with nothing, and where it fails what it took can be completed. -/
structure Completes (rule : Reader α) (P : α → List Token → Prop) : Prop where
  empty : Viable P []
  stopped : ∀ ts cause rest, rule ts = .error cause rest →
    ∃ us, ts = us ++ rest ∧ Stopped (Viable P) cause us rest

namespace Completes
variable {P : α → List Token → Prop} {Q : β → List Token → Prop} {rule : Reader α}
  {cause : ReadError.Cause} {text : String}

lemma pure {a : α} (h : P a []) : Completes (Pure.pure a) P :=
  ⟨⟨[],a,by simp,h⟩,nofun⟩

/-- A rule that fails before it takes a token. -/
lemma throw (hv : Viable P []) (hc : cause.receiver? = none) :
    Completes (MonadExcept.throw cause) P := by
  refine ⟨hv,fun ts _ _ hr => ?_⟩
  cases hr
  exact ⟨[],rfl,.plain hv hc⟩

lemma bind {f : α → Reader β} (ht : Takes rule P) (h : Completes rule P)
    (hf : ∀ a us, P a us → Completes (f a) fun b vs => Q b (us ++ vs)) :
    Completes (rule >>= f) Q := by
  have hlift : ∀ us, Viable P us → Viable Q us := fun us hus =>
    hus.bind fun a vs ha => (hf a vs ha).empty
  refine ⟨hlift [] h.empty,fun ts cause rest hr => ?_⟩
  cases hx : rule ts with
  | error _ _ =>
    rw [bind_error hx] at hr
    cases hr
    obtain ⟨us,rfl,hs⟩ := h.stopped ts cause rest hx
    exact ⟨us,rfl,hs.after [] hlift⟩
  | ok a mid =>
    rw [bind_ok hx] at hr
    obtain ⟨us,rfl,ha⟩ := ht ts a mid hx
    obtain ⟨vs,rfl,hs⟩ := (hf a us ha).stopped mid cause rest hr
    exact ⟨us ++ vs,(List.append_assoc ..).symm,hs.spelled⟩

lemma imp {Q : α → List Token → Prop} (h : Completes rule P) (hq : ∀ a us, P a us → Q a us) :
    Completes rule Q := by
  have hlift : ∀ us, Viable P us → Viable Q us := fun us ⟨vs,a,hvs,ha⟩ => ⟨vs,a,hvs,hq a _ ha⟩
  refine ⟨hlift [] h.empty,fun ts cause rest hr => ?_⟩
  obtain ⟨us,rfl,hs⟩ := h.stopped ts cause rest hr
  exact ⟨us,rfl,hs.after [] hlift⟩

lemma ite {c : Prop} [Decidable c] {other : Reader α} (h : c → Completes rule P)
    (h' : ¬c → Completes other P) : Completes (if c then rule else other) P := by
  split
  · next hc => exact h hc
  · next hc => exact h' hc

lemma bounded {rule : List Token → Reader α} (h : ∀ fuel, Completes (rule fuel) P) :
    Completes (bounded rule) P :=
  ⟨(h []).empty,fun ts => (h ts).stopped ts⟩

/-- The next token as a rule decides by it what to do with it. -/
lemma next_bind {f : Option Token → Reader α} (hnone : Completes (f none) P)
    (hsome : ∀ t ts cause rest, f (some t) (t :: ts) = .error cause rest →
      ∃ us, t :: ts = us ++ rest ∧ Stopped (Viable P) cause us rest) :
    Completes (Reader.peek >>= f) P := by
  refine ⟨hnone.empty,fun ts cause rest hr => ?_⟩
  cases ts with
  | nil => exact hnone.stopped [] cause rest hr
  | cons t ts => exact hsome t ts cause rest hr

/-- A look at the next token, whatever it is. -/
lemma look_bind {look : Reader β} {f : β → Reader α} (hlook : ∀ ts, ∃ b, look ts = .ok b ts)
    (h : ∀ b, Completes (f b) P) : Completes (look >>= f) P := by
  obtain ⟨b,_⟩ := hlook []
  refine ⟨(h b).empty,fun ts cause rest hr => ?_⟩
  obtain ⟨b,hb⟩ := hlook ts
  rw [bind_ok hb] at hr
  exact (h b).stopped ts cause rest hr

lemma accept_bind {f : Bool → Reader α}
    (htrue : ∀ t : Token, t.is text = true → Completes (f true) fun a us => P a (t :: us))
    (hfalse : Completes (f false) P) : Completes (Reader.accept text >>= f) P := by
  refine ⟨hfalse.empty,fun ts cause rest hr => ?_⟩
  have hother : Avoids text ts → ∃ us, ts = us ++ rest ∧ Stopped (Viable P) cause us rest := by
    intro h
    rw [bind_ok (accept_false h)] at hr
    exact hfalse.stopped ts cause rest hr
  cases ts with
  | nil => exact hother nofun
  | cons t ts =>
    cases ht : t.is text with
    | false => exact hother (by simpa [Avoids] using ht)
    | true =>
      rw [bind_ok (accept_true ht)] at hr
      obtain ⟨us,rfl,hs⟩ := (htrue t ht).stopped ts cause rest hr
      exact ⟨t :: us,rfl,hs.after [t] fun _ => id⟩

lemma expect_bind {f : Unit → Reader α} (hw : text ∈ Token.grammarWords)
    (hc : cause.receiver? = none)
    (hf : ∀ t : Token, t.is text = true → Completes (f ()) fun a us => P a (t :: us)) :
    Completes (Reader.expect text cause >>= f) P := by
  have hexpect : Completes (Reader.expect text cause) fun _ us =>
      ∃ t, us = [t] ∧ t.is text = true := by
    obtain ⟨t,ht,his⟩ := Token.exists_word hw
    exact accept_bind (fun u hu => .pure ⟨u,rfl,hu⟩)
      (.throw ⟨[t],(),by simpa using ht,t,rfl,his⟩ hc)
  refine .bind (.expect text cause) hexpect ?_
  rintro _ _ ⟨t,rfl,ht⟩
  exact hf t ht

lemma expectName_bind {f : String → Reader α} (hc : cause.receiver? = none)
    (hf : ∀ t : Token, t.isName = true → Completes (f t.text) fun a us => P a (t :: us)) :
    Completes (Reader.expectName cause >>= f) P := by
  have hname : Completes (Reader.expectName cause) fun x us =>
      ∃ t, us = [t] ∧ t.isName = true ∧ x = t.text := by
    obtain ⟨t,ht,hn⟩ := Token.exists_name
    have hv : Viable (fun x us => ∃ t, us = [t] ∧ t.isName = true ∧ x = t.text) [] :=
      ⟨[t],t.text,by simpa using ht,t,rfl,hn,rfl⟩
    refine next_bind (.throw hv hc) fun t ts cause rest hr => ?_
    dsimp only at hr
    split at hr
    · cases hr
    · cases hr
      exact ⟨[],rfl,.plain hv hc⟩
  refine .bind (.expectName cause) hname ?_
  rintro _ _ ⟨t,rfl,ht,rfl⟩
  exact hf t ht

lemma acceptOperator (level : Operator.Level) : Completes (acceptOperator level) (fun o us =>
    (o = none ∧ us = []) ∨ ∃ op t, o = some op ∧ us = [t] ∧ t.operator? = some op ∧
      op.level = level) := by
  refine ⟨⟨[],none,by simp,.inl ⟨rfl,rfl⟩⟩,fun ts cause rest hr => ?_⟩
  cases ts with
  | nil => cases hr
  | cons t ts =>
    rw [acceptOperator_eq] at hr
    split at hr
    · split at hr <;> cases hr
    · cases hr

end Completes

lemma viable_expression : Viable (Expr.Spells 4) [] := by
  obtain ⟨t,ht,hl⟩ := Token.exists_literal
  exact ⟨[t],_,by simpa using ht,.lift (.primary (.literal hl)) (by decide)⟩

/-- The operators of one level after an operand of the next. -/
lemma operators_completes {level : Operator.Level} {k : ℕ} (hk : level.height = k + 1)
    {operand : Reader Expr} (ht : Takes operand (Expr.Spells k))
    (h : Completes operand (Expr.Spells k)) (l : Expr) (fuel : List Token) :
    Completes (operators level operand l fuel) (Expr.Tail k l) := by
  induction fuel generalizing l with
  | nil => exact .pure .nil
  | cons t fuel ih =>
    refine .bind (.acceptOperator level) (.acceptOperator level) ?_
    rintro o us (⟨rfl,rfl⟩ | ⟨op,t,rfl,rfl,hop,rfl⟩)
    · exact .pure .nil
    · refine .bind ht h fun r vs hr => ?_
      refine (ih (.binary op l r none)).imp fun e ws he => ?_
      simpa using Expr.Tail.cons hop hk hr he

lemma joined_completes (level : Operator.Level) {k : ℕ} (hk : level.height = k + 1)
    {operand : Reader Expr} (ht : Takes operand (Expr.Spells k))
    (h : Completes operand (Expr.Spells k)) :
    Completes (joined level operand) (Expr.Spells (k + 1)) := by
  refine .bind ht h fun l ts hl => .bounded fun fuel => ?_
  exact (operators_completes hk ht h l fuel).imp fun e us he => .chain hl he

section
variable {expression : Reader Expr} {closing : String} {cause : ReadError.Cause}

lemma items_completes (ht : Takes expression (Expr.Spells 4))
    (h : Completes expression (Expr.Spells 4)) (hw : closing ∈ Token.grammarWords)
    (hc : cause.receiver? = none) (fuel : List Token) :
    Completes (items expression closing cause fuel) (fun es us =>
      ∃ ts c, us = ts ++ [c] ∧ Expr.Items es ts ∧ c.is closing = true) := by
  have hclose : ∀ {e ts}, Expr.Spells 4 e ts → ∀ t : Token, t.is closing = true →
      ∃ vs c, ts ++ [t] = vs ++ [c] ∧ Expr.Items [e] vs ∧ c.is closing = true :=
    fun he t ht => ⟨_,t,rfl,.one he,ht⟩
  induction fuel with
  | nil =>
    obtain ⟨vs,e,hvs,he⟩ := viable_expression
    obtain ⟨t,ht,hs⟩ := Token.exists_word hw
    refine .throw ⟨vs ++ [t],[e],?_,?_⟩ rfl
    · exact List.forall_mem_append.mpr ⟨hvs,by simpa using ht⟩
    · exact hclose he t hs
  | cons t fuel ih =>
    refine .bind ht h fun e ts he => .accept_bind (fun c hc => .pure (hclose he c hc)) ?_
    refine .expect_bind (by decide) hc fun o ho => .bind (items_takes ht closing cause fuel) ih ?_
    rintro es _ ⟨vs,d,rfl,hes,hd⟩
    exact .pure ⟨ts ++ o :: vs,d,by simp,.cons he ho hes,hd⟩

lemma arguments_completes (ht : Takes expression (Expr.Spells 4))
    (h : Completes expression (Expr.Spells 4)) (hw : closing ∈ Token.grammarWords)
    (hc : cause.receiver? = none) :
    Completes (arguments expression closing cause) (fun es us =>
      ∃ ts c, us = ts ++ [c] ∧ Expr.Arguments es ts ∧ c.is closing = true) := by
  refine .accept_bind (fun c hc => .pure ⟨[],c,rfl,.nil,hc⟩) (.bounded fun fuel => ?_)
  refine (items_completes ht h hw hc fuel).imp ?_
  rintro es _ ⟨ts,c,rfl,hes,hc⟩
  exact ⟨ts,c,rfl,.items hes,hc⟩

lemma named_completes (ht : Takes expression (Expr.Spells 4))
    (h : Completes expression (Expr.Spells 4)) {x : Token} (hx : x.isName = true) :
    Completes (named expression x.text) (fun e us => Expr.Primary e (x :: us)) := by
  refine .accept_bind (fun o ho => ?_) (.accept_bind (fun o ho => ?_) (.pure (.ref hx)))
  · refine .bind (arguments_takes ht ")" .expectedCloseParenthesis)
      (arguments_completes ht h (by decide) rfl) ?_
    rintro es _ ⟨ts,c,rfl,hes,hc⟩
    exact .pure (by simpa using Expr.Primary.call hx ho hes hc)
  · refine .bind ht h fun i ts hi => .expect_bind (by decide) rfl fun c hc => .pure ?_
    exact Expr.Primary.element hx ho hi hc

lemma operand_completes (ht : Takes expression (Expr.Spells 4))
    (h : Completes expression (Expr.Spells 4)) : Completes (operand expression) Expr.Primary := by
  have hv : Viable Expr.Primary [] := by
    obtain ⟨t,ht,hl⟩ := Token.exists_literal
    exact ⟨[t],_,by simpa using ht,.literal hl⟩
  refine .next_bind (.throw hv rfl) fun t ts cause rest hr => ?_
  have hlit : ∀ {v found}, found.receiver? = none → literal v found (t :: ts) = .error cause rest →
      ∃ us, t :: ts = us ++ rest ∧ Stopped (Viable Expr.Primary) cause us rest := by
    intro v found hc hr
    cases v with
    | none => cases hr; exact ⟨[],rfl,.plain hv hc⟩
    | some v => cases hr
  have htaken : ∀ {rule : Reader Expr}, Completes rule (fun e us => Expr.Primary e (t :: us)) →
      rule ts = .error cause rest →
      ∃ us, t :: ts = us ++ rest ∧ Stopped (Viable Expr.Primary) cause us rest := by
    intro rule hrule hr
    obtain ⟨us,rfl,hs⟩ := hrule.stopped ts cause rest hr
    exact ⟨t :: us,rfl,hs.after [t] fun _ => id⟩
  dsimp only at hr
  cases hk : t.kind <;> simp only [hk] at hr
  case identifier =>
    split_ifs at hr with hn ht' hf hkey
    · exact hlit rfl hr
    · exact hlit rfl hr
    · exact hlit rfl hr
    · cases hr
      exact ⟨[],rfl,.plain hv rfl⟩
    · have hx : t.isName = true := by simpa [Token.isName,Token.isKeyword,hk] using hkey
      exact htaken (named_completes ht h hx) hr
  case operator =>
    split_ifs at hr with ho
    · have hgroup : Completes (do
          let inner ← expression
          expect ")" .expectedCloseParenthesis
          return .group inner none) (fun e us => Expr.Primary e (t :: us)) :=
        .bind ht h fun i ts hi => .expect_bind (by decide) rfl fun c hc =>
          .pure (.group ho hi hc)
      exact htaken hgroup hr
    · cases hr
      exact ⟨[],rfl,.plain hv rfl⟩
  all_goals exact hlit rfl hr

lemma expressionRule_completes (ht : Takes expression (Expr.Spells 4))
    (h : Completes expression (Expr.Spells 4)) :
    Completes (expressionRule expression) (Expr.Spells 4) := by
  have ht₀ : Takes (operand expression) (Expr.Spells 0) :=
    (operand_takes ht).imp fun _ _ => .primary
  have h₀ : Completes (operand expression) (Expr.Spells 0) :=
    (operand_completes ht h).imp fun _ _ => .primary
  have ht₁ := joined_takes .multiplicative rfl ht₀
  have h₁ := joined_completes .multiplicative rfl ht₀ h₀
  have ht₂ := joined_takes .additive rfl ht₁
  have h₂ := joined_completes .additive rfl ht₁ h₁
  have ht₃ := joined_takes .comparison rfl ht₂
  exact joined_completes .logical rfl ht₃ (joined_completes .comparison rfl ht₂ h₂)

end

lemma recursive_completes {rule : Reader α → Reader α} {P : α → List Token → Prop}
    (hv : Viable P []) (ht : ∀ inner, Takes inner P → Takes (rule inner) P)
    (h : ∀ inner, Takes inner P → Completes inner P → Completes (rule inner) P)
    (fuel : List Token) : Completes (recursive rule fuel) P := by
  induction fuel with
  | nil => exact .throw hv rfl
  | cons _ fuel ih => exact h _ (recursive_takes ht fuel) ih

theorem expression_completes : Completes expression (Expr.Spells 4) :=
  .bounded (recursive_completes viable_expression (fun _ => expressionRule_takes)
    fun _ => expressionRule_completes)

lemma typeName?_completes : Completes typeName? TypeLabel :=
  .accept_bind (fun _ hc => .expectName_bind rfl fun _ hx => .pure (.some hc hx)) (.pure .none)

lemma initial?_completes : Completes initial? Initial :=
  .accept_bind (fun _ ho => .bind expression_takes expression_completes fun _ _ he =>
    .pure (by simpa using Initial.some ho he)) (.pure .none)

section
variable {block : Reader (List Stmt)}

lemma declaration_completes {l : Token} (hl : l.is "LET" = true) :
    Completes declaration (fun s us => Stmt.Spells s (l :: us)) := by
  refine .expectName_bind rfl fun x hx => .bind typeName?_takes typeName?_completes fun a ts ha =>
    .bind initial?_takes initial?_completes fun v us hv =>
      .expect_bind (by decide) rfl fun s hs => .pure ?_
  exact Stmt.Spells.declaration hl hx ha hv hs

lemma ifElse_completes (ht : Takes block Stmt.Block) (h : Completes block Stmt.Block) {i : Token}
    (hi : i.is "IF" = true) : Completes (ifElse block) (fun s us => Stmt.Spells s (i :: us)) := by
  refine .bind expression_takes expression_completes fun c ts hc =>
    .expect_bind (by decide) rfl fun d hd => .bind ht h fun a us ha =>
      .accept_bind (fun l hl => ?_) ?_
  · refine .bind ht h fun b vs hb => .expect_bind (by decide) rfl fun n hn => .pure ?_
    simpa using Stmt.Spells.ifElse hi hc hd ha hl hb hn
  · refine .expect_bind (by decide) rfl fun n hn => .pure ?_
    simpa using Stmt.Spells.ifOnly hi hc hd ha hn

lemma viable_arms : Viable Case.Arms [] := by
  obtain ⟨t,ht,hs⟩ : ∃ t : Token, t.Readable ∧ t.is "DEFAULT" = true :=
    Token.exists_word (by decide)
  exact ⟨[t],_,by simpa using ht,.default hs .nil⟩

lemma cases_completes (ht : Takes block Stmt.Block) (h : Completes block Stmt.Block)
    (fuel : List Token) : Completes (cases block fuel) Case.Arms := by
  induction fuel with
  | nil => exact .throw viable_arms rfl
  | cons _ fuel ih =>
    refine .accept_bind (fun c hc => ?_) (.expect_bind (by decide) rfl fun d hd => ?_)
    · refine .bind expression_takes expression_completes fun e ts he =>
        .expect_bind (by decide) rfl fun o ho => .bind ht h fun a us ha =>
          .bind (cases_takes ht fuel) ih fun cs vs hcs => .pure ?_
      simpa using Case.Arms.value hc he ho ha hcs
    · exact .bind ht h fun a ts ha => .pure (by simpa using Case.Arms.default hd ha)

lemma switch_completes (ht : Takes block Stmt.Block) (h : Completes block Stmt.Block) {s : Token}
    (hs : s.is "SWITCH" = true) : Completes (switch block) (fun st us => Stmt.Spells st (s :: us)) := by
  refine .bind expression_takes expression_completes fun c ts hc =>
    .bind (.bounded (cases_takes ht)) (.bounded (cases_completes ht h)) fun cs us hcs =>
      .expect_bind (by decide) rfl fun n hn => .pure ?_
  exact Stmt.Spells.switch hs hc hcs hn

lemma loop_completes (ht : Takes block Stmt.Block) (h : Completes block Stmt.Block) {w : Token}
    (hw : w.is "WHILE" = true) : Completes (loop block) (fun s us => Stmt.Spells s (w :: us)) := by
  refine .bind expression_takes expression_completes fun c ts hc =>
    .expect_bind (by decide) rfl fun d hd => .bind ht h fun a us ha =>
      .expect_bind (by decide) rfl fun n hn => .pure ?_
  exact Stmt.Spells.loop hw hc hd ha hn

/-- What follows the expression of a statement of its own. -/
lemma expressionEnd_completes {e : Expr} {es : List Token} (he : Expr.Spells 4 e es) :
    Completes (do
      expect ";" .expectedSemicolon
      return .expression e) (fun s us => Stmt.Spells s (es ++ us)) :=
  .expect_bind (by decide) rfl fun _ hs => .pure (.expression he hs)

/-- What follows the equals sign of an assignment. -/
lemma assignedValue_completes {r : Expr} {es : List Token} {o : Token} (hr : Expr.Spells 4 r es)
    (hx : r.receiver?.isSome = true) (ho : o.is "=" = true) :
    Completes (do
      let value ← expression
      expect ";" .expectedSemicolon
      return .assignment r value) (fun s us => Stmt.Spells s ((es ++ [o]) ++ us)) := by
  refine .bind expression_takes expression_completes fun e us he =>
    .expect_bind (by decide) rfl fun s hs => .pure ?_
  simpa using Stmt.Spells.assignment hr hx ho he hs

lemma Viable.statement {us : List Token} (h : Viable (Expr.Spells 4) us) : Viable Stmt.Spells us :=
  h.bind fun _ _ he => (expressionEnd_completes he).empty

/-- An equals sign cannot come after an expression that cannot be assigned to. -/
lemma receiver_stopped {r : Expr} {es more : List Token} {o : Token} (hr : Expr.Spells 4 r es)
    (hx : r.receiver? = none) (ho : o.is "=" = true) :
    Stopped (Viable Stmt.Spells)
      (.invalidReceiver (((es ++ o :: more).head?.map Token.offset).getD 0)) es (o :: more) := by
  obtain ⟨t,us,rfl⟩ := List.exists_cons_of_length_pos hr.length_pos
  refine ⟨Viable.statement ⟨[],r,nofun,by rwa [List.append_nil]⟩,?_⟩
  rintro _ ⟨⟩
  have hmisplaced : Misplaced (Viable Stmt.Spells) t.offset ([] ++ t :: us) (o :: more) :=
    .mk hr hx rfl ho fun s ws hs _ => ⟨[],s,nofun,by rwa [List.append_nil]⟩
  exact hmisplaced

lemma expressionOrAssignment_completes : Completes expressionOrAssignment Stmt.Spells := by
  refine ⟨viable_expression.statement,fun ts cause rest hr => ?_⟩
  have hpeek : peek ts = .ok ts.head? ts := rfl
  unfold expressionOrAssignment at hr
  rw [bind_ok hpeek] at hr
  cases hx : expression ts with
  | error _ _ =>
    rw [bind_error hx] at hr
    cases hr
    obtain ⟨us,rfl,hs⟩ := expression_completes.stopped ts cause rest hx
    exact ⟨us,rfl,hs.after [] fun _ => Viable.statement⟩
  | ok r mid =>
    rw [bind_ok hx] at hr
    obtain ⟨es,rfl,hes⟩ := expression_takes ts r mid hx
    have hafter : ∀ {rule : Reader Stmt} {before ts},
        Completes rule (fun s us => Stmt.Spells s (before ++ us)) → rule ts = .error cause rest →
        ∃ us, before ++ ts = us ++ rest ∧ Stopped (Viable Stmt.Spells) cause us rest := by
      intro rule before ts hrule hr
      obtain ⟨us,rfl,hs⟩ := hrule.stopped ts cause rest hr
      exact ⟨before ++ us,(List.append_assoc ..).symm,hs.spelled⟩
    cases mid with
    | nil => exact hafter (expressionEnd_completes hes) hr
    | cons o more =>
      rw [bind_ok (at?_eq "=" o more)] at hr
      cases ho : o.is "=" with
      | false =>
        rw [ho] at hr
        exact hafter (expressionEnd_completes hes) hr
      | true =>
        cases hrec : r.receiver? with
        | none =>
          simp only [ho,hrec] at hr
          cases hr
          exact ⟨es,rfl,receiver_stopped hes hrec ho⟩
        | some _ =>
          simp only [ho,hrec] at hr
          have hvalue := assignedValue_completes hes (by rw [hrec]; rfl) ho
          obtain ⟨us,hus,hs⟩ := hafter hvalue hr
          exact ⟨us,by rw [← hus,List.append_assoc]; rfl,hs⟩

lemma statements_completes {statement : Reader Stmt} (ht : Takes statement Stmt.Spells)
    (h : Completes statement Stmt.Spells) (fuel : List Token) :
    Completes (statements statement fuel) Stmt.Block := by
  induction fuel with
  | nil => exact .pure .nil
  | cons _ fuel ih =>
    refine .look_bind (fun ts => ⟨_,rfl⟩) fun next => ?_
    cases next with
    | none => exact .pure .nil
    | some t =>
      refine .ite (fun _ => .pure .nil) fun _ => ?_
      exact .bind ht h fun s us hs => .bind (statements_takes ht fuel) ih fun ss vs hss =>
        .pure (by simpa using hss.cons hs)

lemma statementRule_completes {statement : Reader Stmt} (ht : Takes statement Stmt.Spells)
    (h : Completes statement Stmt.Spells) : Completes (statementRule statement) Stmt.Spells := by
  have htb : Takes (blockOf statement) Stmt.Block := .bounded (statements_takes ht)
  have hb : Completes (blockOf statement) Stmt.Block := .bounded (statements_completes ht h)
  refine .accept_bind (fun _ hl => declaration_completes hl)
    (.accept_bind (fun _ hi => ifElse_completes htb hb hi)
    (.accept_bind (fun _ hs => switch_completes htb hb hs)
    (.accept_bind (fun _ hw => loop_completes htb hb hw)
    (.accept_bind (fun r hr => ?_) expressionOrAssignment_completes))))
  exact .bind expression_takes expression_completes fun e ts he =>
    .expect_bind (by decide) rfl fun s hs => .pure (.ret hr he hs)

end

theorem statement_completes : Completes statement Stmt.Spells :=
  .bounded (recursive_completes viable_expression.statement (fun _ => statementRule_takes)
    fun _ => statementRule_completes)

theorem block_completes : Completes block Stmt.Block :=
  .bounded (statements_completes statement_takes statement_completes)

lemma listGlobal_completes {l : Token} (hl : l.is "LIST" = true) :
    Completes listGlobal (fun g us => Global.Spells g (l :: us)) := by
  refine .expectName_bind rfl fun x hx => .bind typeName?_takes typeName?_completes fun a ts ha =>
    .expect_bind (by decide) rfl fun o ho => .expect_bind (by decide) rfl fun b hb =>
      .bind (arguments_takes expression_takes "]" .expectedCloseBracket)
        (arguments_completes expression_takes expression_completes (by decide) rfl) ?_
  rintro es _ ⟨us,c,rfl,hes,hc⟩
  refine .expect_bind (by decide) rfl fun s hs => .pure ?_
  simpa using Global.Spells.list hl hx ha ho hb hes hc hs

lemma mutableGlobal_completes {l : Token} (hl : l.is "VAR" = true) :
    Completes mutableGlobal (fun g us => Global.Spells g (l :: us)) := by
  refine .expectName_bind rfl fun x hx => .bind typeName?_takes typeName?_completes fun a ts ha =>
    .bind initial?_takes initial?_completes fun v us hv =>
      .expect_bind (by decide) rfl fun s hs => .pure ?_
  exact .mutable hl hx ha hv hs

lemma immutableGlobal_completes {l : Token} (hl : l.is "VAL" = true) :
    Completes immutableGlobal (fun g us => Global.Spells g (l :: us)) := by
  refine .expectName_bind rfl fun x hx => .bind typeName?_takes typeName?_completes fun a ts ha =>
    .expect_bind (by decide) rfl fun o ho => .bind expression_takes expression_completes
      fun e us he => .expect_bind (by decide) rfl fun s hs => .pure ?_
  exact .immutable hl hx ha ho he hs

lemma viable_global : Viable Global.Spells [] := by
  obtain ⟨l,hl,hvar⟩ : ∃ t : Token, t.Readable ∧ t.is "VAR" = true := Token.exists_word (by decide)
  obtain ⟨x,hx,hname⟩ := Token.exists_name
  obtain ⟨s,hs,hsemi⟩ : ∃ t : Token, t.Readable ∧ t.is ";" = true := Token.exists_word (by decide)
  exact ⟨[l,x,s],_,by simp [hl,hx,hs],.mutable hvar hname .none .none hsemi⟩

theorem global_completes : Completes global Global.Spells :=
  .accept_bind (fun _ hl => listGlobal_completes hl)
    (.accept_bind (fun _ hl => mutableGlobal_completes hl)
    (.accept_bind (fun _ hl => immutableGlobal_completes hl) (.throw viable_global rfl)))

lemma parameterList_completes (fuel : List Token) :
    Completes (parameterList fuel) (fun ps us =>
      ∃ ts c, us = ts ++ [c] ∧ Function.Parameters ps ts ∧ c.is ")" = true) := by
  induction fuel with
  | nil =>
    obtain ⟨x,hx,hname⟩ := Token.exists_name
    obtain ⟨o,ho,hcolon⟩ : ∃ t : Token, t.Readable ∧ t.is ":" = true :=
      Token.exists_word (by decide)
    obtain ⟨c,hc,hclose⟩ : ∃ t : Token, t.Readable ∧ t.is ")" = true :=
      Token.exists_word (by decide)
    exact .throw ⟨[x,o,x,c],_,by simp [hx,ho,hc],[x,o,x],c,rfl,.one hname hcolon hname,hclose⟩ rfl
  | cons _ fuel ih =>
    refine .expectName_bind rfl fun x hx => .expect_bind (by decide) rfl fun o ho =>
      .expectName_bind rfl fun t ht => .accept_bind (fun c hc => .pure ?_) ?_
    · exact ⟨[x,o,t],c,rfl,.one hx ho ht,hc⟩
    · refine .expect_bind (by decide) rfl fun k hk => .bind (parameterList_takes fuel) ih ?_
      rintro ps _ ⟨ts,c,rfl,hps,hc⟩
      exact .pure ⟨x :: o :: t :: k :: ts,c,by simp,.cons hx ho ht hk hps,hc⟩

/-- The parameters of a function, up to the parenthesis that closes them. -/
abbrev ParametersEnd (ps : List (String × String)) (us : List Token) : Prop :=
  ∃ ts c, us = ts ++ [c] ∧ ((ps = [] ∧ ts = []) ∨ Function.Parameters ps ts) ∧ c.is ")" = true

lemma parameters_takes : Takes parameters ParametersEnd := by
  refine .bind (.accept ")") ?_
  rintro b _ (⟨rfl,rfl⟩ | ⟨c,rfl,rfl,hc⟩)
  · refine .bounded fun fuel => (parameterList_takes fuel).imp ?_
    rintro ps _ ⟨ts,c,rfl,hps,hc⟩
    exact ⟨ts,c,rfl,.inr hps,hc⟩
  · exact .pure ⟨[],c,rfl,.inl ⟨rfl,rfl⟩,hc⟩

lemma parameters_completes : Completes parameters ParametersEnd := by
  refine .accept_bind (fun c hc => .pure ⟨[],c,rfl,.inl ⟨rfl,rfl⟩,hc⟩) (.bounded fun fuel => ?_)
  refine (parameterList_completes fuel).imp ?_
  rintro ps _ ⟨ts,c,rfl,hps,hc⟩
  exact ⟨ts,c,rfl,.inr hps,hc⟩

theorem function_completes : Completes function Function.Spells := by
  refine .expect_bind (by decide) rfl fun f hf => .expectName_bind rfl fun x hx =>
    .expect_bind (by decide) rfl fun o ho => ?_
  refine .bind parameters_takes parameters_completes ?_
  rintro ps _ ⟨ts,c,rfl,hps,hc⟩
  refine .bind typeName?_takes typeName?_completes fun a us ha =>
    .expect_bind (by decide) rfl fun d hd => .bind block_takes block_completes fun b vs hb =>
      .expect_bind (by decide) rfl fun n hn => .pure ?_
  simpa using Function.Spells.mk hf hx ho hps hc ha hd hb hn

lemma globals_completes (fuel : List Token) : Completes (globals fuel) (Sequence Global.Spells) := by
  induction fuel with
  | nil => exact .pure .nil
  | cons _ fuel ih =>
    refine .look_bind (fun ts => ⟨_,rfl⟩) fun _ => .ite (fun _ => ?_) fun _ => .pure .nil
    exact .bind global_takes global_completes fun g us hg => .bind (globals_takes fuel) ih
      fun gs vs hgs => .pure (by simpa using hgs.cons hg)

lemma functions_takes (fuel : List Token) : Takes (functions fuel) (Sequence Function.Spells) := by
  induction fuel with
  | nil => exact .pure .nil
  | cons _ fuel ih =>
    refine .bind .peek ?_
    rintro _ _ rfl
    refine .ite (fun _ => .pure .nil) fun _ => .bind (.at? "FUN") ?_
    rintro _ _ rfl
    refine .ite (fun _ => ?_) fun _ => .bind atGlobal_takes fun _ _ _ =>
      .ite (fun _ => .throw) fun _ => .throw
    exact .bind function_takes fun f us hf => .bind ih fun fs vs hfs =>
      .pure (by simpa using hfs.cons hf)

lemma functions_completes (fuel : List Token) :
    Completes (functions fuel) (Sequence Function.Spells) := by
  have hv : Viable (Sequence Function.Spells) [] := ⟨[],[],nofun,.nil⟩
  induction fuel with
  | nil => exact .pure .nil
  | cons _ fuel ih =>
    refine .look_bind (fun ts => ⟨_,rfl⟩) fun _ => .ite (fun _ => .pure .nil) fun _ =>
      .look_bind (fun ts => ⟨_,rfl⟩) fun _ => .ite (fun _ => ?_) fun _ =>
        .look_bind (fun ts => ⟨_,rfl⟩) fun _ => .ite (fun _ => .throw hv rfl) fun _ => .throw hv rfl
    exact .bind function_takes function_completes fun f us hf => .bind (functions_takes fuel) ih
      fun fs vs hfs => .pure (by simpa using hfs.cons hf)

/-- Where no program is read, the tokens before the one that is at fault can be completed. -/
theorem program_completes : Completes program Program.Spells :=
  .bind (.bounded globals_takes) (.bounded globals_completes) fun _ us hg =>
    .bind (.bounded functions_takes) (.bounded functions_completes) fun _ vs hf =>
      .pure ⟨us,vs,by simp,hg,hf⟩

end Reader
end BlockScript
