import BlockScript.Proofs.Lexing.Written
import BlockScript.Proofs.Syntax.Failure.Lookahead
/-! A rule fails for the text of a literal only where that text has no value, and the texts that are cut off
as literals all have one. -/
namespace BlockScript
variable {α β : Type}

/-- What is wrong is the text of a literal. -/
def ReadError.Cause.isLiteral : ReadError.Cause → Bool
  | invalidNumber | invalidCharacter => true
  | _ => false

lemma ReadError.Cause.message_ne {cause : ReadError.Cause} (h : cause.isLiteral = false) :
    cause.message ≠ "Invalid number literal." ∧ cause.message ≠ "Invalid character literal." := by
  cases cause with
  | invalidNumber | invalidCharacter => cases h
  | invalidReceiver => exact ⟨by simp [message],by simp [message]⟩
  | _ => decide

namespace Token

/-- The token of a number or of something between quotes. -/
def isLiteral (t : Token) : Bool :=
  match t.kind with
  | .integer | .decimal | .character | .string => true
  | .identifier | .operator => false

lemma Lexical.written {t : Token} (h : t.Lexical) (hk : t.isLiteral = true) :
    ∃ v, Literal.Written t.kind t.text.toList v := by
  refine Literal.written_of_lexeme h ?_ ?_
  · intro hi
    simp [isLiteral,hi] at hk
  · intro ho
    simp [isLiteral,ho] at hk

lemma literal?_of_written {t : Token} {v : Literal} (h : Literal.Written t.kind t.text.toList v) :
    t.literal? = some v := by
  have hv := h.literal?_eq t.offset
  rwa [String.ofList_toList] at hv

end Token

namespace Reader

/-- If a rule fails for a literal, it stops before a token of one that has no value. -/
def Blames (rule : Reader α) : Prop :=
  ∀ ts cause rest, rule ts = .error cause rest → cause.isLiteral = true →
    ∃ t ∈ rest.head?, t.isLiteral = true ∧ t.literal? = none

namespace Blames
variable {rule other : Reader α} {f : α → Reader β} {cause : ReadError.Cause} {text : String}

/-- A rule that always succeeds. -/
lemma of_total (h : ∀ ts, ∃ a rest, rule ts = .ok a rest) : Blames rule := by
  intro ts cause rest hr
  obtain ⟨a,rest',hok⟩ := h ts
  rw [hok] at hr
  cases hr

lemma pure (a : α) : Blames (Pure.pure a) := of_total fun _ => ⟨a,_,rfl⟩

lemma throw (hc : cause.isLiteral = false) : Blames (MonadExcept.throw cause : Reader α) := by
  intro ts _ _ hr hl
  cases hr
  rw [hc] at hl
  cases hl

lemma bind (h : Blames rule) (hf : ∀ a, Blames (f a)) : Blames (rule >>= f) := by
  intro ts cause rest hr
  cases hx : rule ts with
  | error _ _ =>
    rw [bind_error hx] at hr
    cases hr
    exact h ts cause rest hx
  | ok a mid =>
    rw [bind_ok hx] at hr
    exact hf a mid cause rest hr

lemma ite {c : Prop} [Decidable c] (h : Blames rule) (h' : Blames other) :
    Blames (if c then rule else other) := by
  split
  · exact h
  · exact h'

lemma bounded {rule : List Token → Reader α} (h : ∀ fuel, Blames (rule fuel)) :
    Blames (bounded rule) := fun ts => h ts ts

lemma recursive {rule : Reader α → Reader α} (h : ∀ r, Blames r → Blames (rule r))
    (fuel : List Token) : Blames (recursive rule fuel) := by
  induction fuel with
  | nil => exact .throw rfl
  | cons _ fuel ih => exact h _ ih

lemma skip : Blames skip := of_total fun _ => ⟨(),_,rfl⟩

lemma peek : Blames peek := of_total fun _ => ⟨_,_,rfl⟩

lemma at? (text : String) : Blames (at? text) := of_total fun _ => ⟨_,_,rfl⟩

lemma accept (text : String) : Blames (accept text) :=
  (at? text).bind fun _ => .ite (skip.bind fun _ => .pure true) (.pure false)

lemma expect (text : String) (hc : cause.isLiteral = false) : Blames (expect text cause) :=
  (accept text).bind fun b => by cases b; exact .throw hc; exact .pure ()

lemma expectName (hc : cause.isLiteral = false) : Blames (expectName cause) := by
  refine peek.bind fun next => ?_
  cases next with
  | none => exact .throw hc
  | some t => exact .ite (skip.bind fun _ => .pure t.text) (.throw hc)

lemma acceptOperator (level : Operator.Level) : Blames (acceptOperator level) := by
  refine peek.bind fun next => ?_
  cases next with
  | none => exact .pure none
  | some t =>
    refine .ite ?_ (.pure none)
    cases Operator.ofSymbol? t.text with
    | none => exact .pure none
    | some op => exact .ite (skip.bind fun _ => .pure (some op)) (.pure none)

/-- A token that has to have this text, and what is made of what was read before it. -/
lemma expect_pure (text : String) (hc : cause.isLiteral = false) (a : α) :
    Blames (do Reader.expect text cause; return a) := (expect text hc).bind fun _ => .pure a

end Blames

section
variable {expression : Reader Expr} {cause : ReadError.Cause}

lemma operators_blames (level : Operator.Level) (h : Blames expression) (left : Expr)
    (fuel : List Token) : Blames (operators level expression left fuel) := by
  induction fuel generalizing left with
  | nil => exact .pure left
  | cons _ fuel ih =>
    refine (Blames.acceptOperator level).bind fun o => ?_
    cases o with
    | none => exact .pure left
    | some op => exact h.bind fun right => ih _

lemma joined_blames (level : Operator.Level) (h : Blames expression) :
    Blames (joined level expression) :=
  h.bind fun left => .bounded (operators_blames level h left)

lemma items_blames (h : Blames expression) (closing : String) (hc : cause.isLiteral = false)
    (fuel : List Token) : Blames (items expression closing cause fuel) := by
  induction fuel with
  | nil => exact .throw rfl
  | cons _ fuel ih =>
    exact h.bind fun first => (Blames.accept closing).bind fun _ => .ite (.pure [first])
      ((Blames.expect "," hc).bind fun _ => ih.bind fun es => .pure (first :: es))

lemma arguments_blames (h : Blames expression) (closing : String) (hc : cause.isLiteral = false) :
    Blames (arguments expression closing cause) :=
  (Blames.accept closing).bind fun _ => .ite (.pure []) (.bounded (items_blames h closing hc))

lemma named_blames (h : Blames expression) (x : String) : Blames (named expression x) :=
  (Blames.accept "(").bind fun _ => .ite ((arguments_blames h ")" rfl).bind fun _ => .pure _)
    ((Blames.accept "[").bind fun _ => .ite (h.bind fun _ => .expect_pure "]" rfl _) (.pure _))

/-- A literal is left in place if its text has no value. -/
lemma literal_blames {t : Token} {ts rest : List Token} {v : Option Literal} {found : ReadError.Cause}
    (hk : t.isLiteral = true) (hv : t.literal? = v) (hr : literal v found (t :: ts) = .error cause rest) :
    ∃ t ∈ rest.head?, t.isLiteral = true ∧ t.literal? = none := by
  cases v with
  | none => cases hr; exact ⟨t,rfl,hk,hv⟩
  | some v => cases hr

lemma operand_blames (h : Blames expression) : Blames (operand expression) := by
  intro ts cause rest hr hl
  cases ts with
  | nil => cases hr; cases hl
  | cons t ts =>
    have hpeek : peek (t :: ts) = .ok (some t) (t :: ts) := rfl
    unfold operand at hr
    rw [bind_ok hpeek] at hr
    cases hk : t.kind <;> simp only [hk] at hr
    case identifier =>
      have hword : ∀ v, Blames (literal (some v) .invalidExpression) := fun v =>
        Blames.skip.bind fun _ => .pure _
      exact Blames.ite (hword .nil) (.ite (hword (.boolean true)) (.ite (hword (.boolean false))
        (.ite (.throw rfl) (Blames.skip.bind fun _ => named_blames h t.text)))) _ _ _ hr hl
    case operator =>
      exact Blames.ite (Blames.skip.bind fun _ => h.bind fun _ => .expect_pure ")" rfl _) (.throw rfl)
        _ _ _ hr hl
    all_goals exact literal_blames (by simp [Token.isLiteral,hk]) (by simp [Token.literal?,hk]) hr

lemma expressionRule_blames (h : Blames expression) : Blames (expressionRule expression) :=
  joined_blames _ (joined_blames _ (joined_blames _ (joined_blames _ (operand_blames h))))

end

theorem expression_blames : Blames expression := .bounded (.recursive fun _ => expressionRule_blames)

lemma typeName?_blames : Blames typeName? :=
  (Blames.accept ":").bind fun _ => .ite ((Blames.expectName rfl).bind fun _ => .pure _) (.pure _)

lemma initial?_blames : Blames initial? :=
  (Blames.accept "=").bind fun _ => .ite (expression_blames.bind fun _ => .pure _) (.pure _)

lemma declaration_blames : Blames declaration :=
  (Blames.expectName rfl).bind fun _ => typeName?_blames.bind fun _ =>
    initial?_blames.bind fun _ => .expect_pure ";" rfl _

lemma expressionOrAssignment_blames : Blames expressionOrAssignment := by
  refine Blames.peek.bind fun _ => expression_blames.bind fun first =>
    (Blames.at? "=").bind fun _ => .ite ?_ (.expect_pure ";" rfl _)
  have hvalue : Blames (do
      skip
      let value ← expression
      expect ";" .expectedSemicolon
      return Stmt.assignment first value) :=
    Blames.skip.bind fun _ => expression_blames.bind fun _ => .expect_pure ";" rfl _
  exact .ite (.bind (.throw rfl) fun _ => hvalue) hvalue

section
variable {statement : Reader Stmt} {block : Reader (List Stmt)}

lemma blockOf_blames (h : Blames statement) : Blames (blockOf statement) := by
  refine .bounded fun fuel => ?_
  induction fuel with
  | nil => exact .pure []
  | cons _ fuel ih =>
    refine Blames.peek.bind fun next => ?_
    cases next with
    | none => exact .pure []
    | some t => exact .ite (.pure []) (h.bind fun first => ih.bind fun ss => .pure (first :: ss))

lemma ifElse_blames (h : Blames block) : Blames (ifElse block) :=
  expression_blames.bind fun _ => (Blames.expect "DO" rfl).bind fun _ => h.bind fun _ =>
    (Blames.accept "ELSE").bind fun _ => .ite (h.bind fun _ => .expect_pure "END" rfl _)
      (.expect_pure "END" rfl _)

lemma cases_blames (h : Blames block) (fuel : List Token) : Blames (cases block fuel) := by
  induction fuel with
  | nil => exact .throw rfl
  | cons _ fuel ih =>
    refine (Blames.accept "CASE").bind fun _ => .ite ?_ ?_
    · exact expression_blames.bind fun _ => (Blames.expect ":" rfl).bind fun _ =>
        h.bind fun _ => ih.bind fun _ => .pure _
    · exact (Blames.expect "DEFAULT" rfl).bind fun _ => h.bind fun _ => .pure _

lemma switch_blames (h : Blames block) : Blames (switch block) :=
  expression_blames.bind fun _ => (Blames.bounded (cases_blames h)).bind fun _ =>
    .expect_pure "END" rfl _

lemma loop_blames (h : Blames block) : Blames (loop block) :=
  expression_blames.bind fun _ => (Blames.expect "DO" rfl).bind fun _ => h.bind fun _ =>
    .expect_pure "END" rfl _

lemma statementRule_blames (h : Blames statement) : Blames (statementRule statement) := by
  have hb := blockOf_blames h
  refine (Blames.accept "LET").bind fun _ => .ite declaration_blames ?_
  refine (Blames.accept "IF").bind fun _ => .ite (ifElse_blames hb) ?_
  refine (Blames.accept "SWITCH").bind fun _ => .ite (switch_blames hb) ?_
  refine (Blames.accept "WHILE").bind fun _ => .ite (loop_blames hb) ?_
  refine (Blames.accept "RETURN").bind fun _ => .ite ?_ expressionOrAssignment_blames
  exact expression_blames.bind fun _ => .expect_pure ";" rfl _

end

theorem statement_blames : Blames statement := .bounded (.recursive fun _ => statementRule_blames)

theorem block_blames : Blames block := blockOf_blames statement_blames

lemma listGlobal_blames : Blames listGlobal :=
  (Blames.expectName rfl).bind fun _ => typeName?_blames.bind fun _ =>
    (Blames.expect "=" rfl).bind fun _ => (Blames.expect "[" rfl).bind fun _ =>
      (arguments_blames expression_blames "]" rfl).bind fun _ => .expect_pure ";" rfl _

lemma mutableGlobal_blames : Blames mutableGlobal :=
  (Blames.expectName rfl).bind fun _ => typeName?_blames.bind fun _ =>
    initial?_blames.bind fun _ => .expect_pure ";" rfl _

lemma immutableGlobal_blames : Blames immutableGlobal :=
  (Blames.expectName rfl).bind fun _ => typeName?_blames.bind fun _ =>
    (Blames.expect "=" rfl).bind fun _ => expression_blames.bind fun _ => .expect_pure ";" rfl _

theorem global_blames : Blames global := by
  refine (Blames.accept "LIST").bind fun _ => .ite listGlobal_blames ?_
  refine (Blames.accept "VAR").bind fun _ => .ite mutableGlobal_blames ?_
  exact (Blames.accept "VAL").bind fun _ => .ite immutableGlobal_blames (.throw rfl)

lemma parameters_blames : Blames parameters := by
  refine (Blames.accept ")").bind fun _ => .ite (.pure []) (.bounded fun fuel => ?_)
  induction fuel with
  | nil => exact .throw rfl
  | cons _ fuel ih =>
    exact (Blames.expectName rfl).bind fun _ => (Blames.expect ":" rfl).bind fun _ =>
      (Blames.expectName rfl).bind fun _ => (Blames.accept ")").bind fun _ => .ite (.pure _)
        ((Blames.expect "," rfl).bind fun _ => ih.bind fun _ => .pure _)

theorem function_blames : Blames function :=
  (Blames.expect "FUN" rfl).bind fun _ => (Blames.expectName rfl).bind fun _ =>
    (Blames.expect "(" rfl).bind fun _ => parameters_blames.bind fun _ =>
      typeName?_blames.bind fun _ => (Blames.expect "DO" rfl).bind fun _ =>
        block_blames.bind fun _ => .expect_pure "END" rfl _

lemma atGlobal_blames : Blames atGlobal := .of_total fun _ => ⟨_,_,rfl⟩

lemma globals_blames (fuel : List Token) : Blames (globals fuel) := by
  induction fuel with
  | nil => exact .pure []
  | cons _ fuel ih =>
    exact atGlobal_blames.bind fun _ => .ite (global_blames.bind fun _ => ih.bind fun _ => .pure _)
      (.pure [])

lemma functions_blames (fuel : List Token) : Blames (functions fuel) := by
  induction fuel with
  | nil => exact .pure []
  | cons _ fuel ih =>
    refine Blames.peek.bind fun _ => .ite (.pure []) ?_
    refine (Blames.at? "FUN").bind fun _ => .ite ?_ ?_
    · exact function_blames.bind fun _ => ih.bind fun _ => .pure _
    · exact atGlobal_blames.bind fun _ => .ite (.throw rfl) (.throw rfl)

theorem program_blames : Blames program :=
  (Blames.bounded globals_blames).bind fun _ => (Blames.bounded functions_blames).bind fun _ => .pure _

lemma Public.blames {rule : Reader α} (h : Public rule) : Blames rule := by
  cases h with
  | program => exact program_blames
  | global => exact global_blames
  | function => exact function_blames
  | block => exact block_blames
  | statement => exact statement_blames
  | expression => exact expression_blames

lemma Public.isLiteral_eq_false {rule : Reader α} (h : Public rule) {ts rest : List Token}
    {cause : ReadError.Cause} (hl : ∀ t ∈ ts, t.Lexical) (hr : rule ts = .error cause rest) :
    cause.isLiteral = false := by
  rw [← Bool.not_eq_true]
  intro hc
  obtain ⟨t,ht,hk,hnone⟩ := h.blames ts cause rest hr hc
  have hmem : t ∈ ts := (h.shrinks ts (.error cause) rest hr).subset (List.mem_of_mem_head? ht)
  obtain ⟨v,hv⟩ := (hl t hmem).written hk
  rw [Token.literal?_of_written hv] at hnone
  cases hnone

end Reader

/-- Each token of a number or of something between quotes is read as the one literal that its text writes,
a character with nothing left over. From no place in the text does a rule fail for a literal. -/
theorem Token.scan_literals_read (source : String) (ts : List Token) (h : Token.scan source = .ok ts) :
    (∀ t ∈ ts, t.isLiteral = true → ∃ v, (∀ w, Literal.Written t.kind t.text.toList w ↔ w = v) ∧
      ∀ inner more, Reader.operand inner (t :: more) = .ok (.literal v none) more) ∧
    (∀ t ∈ ts, t.kind = .character → ∃ c, Literal.Written .character t.text.toList (.character c) ∧
      Literal.unescape (Literal.unquote t.text.toList) = [c]) ∧
    ∀ {α : Type} {rule : Reader α}, Reader.Public rule → ∀ rest, rest <:+ ts →
      ∀ e, rule.runFrom (Token.lastStop ts) rest = .error e →
        e.cause.message ≠ "Invalid number literal." ∧
        e.cause.message ≠ "Invalid character literal." := by
  have hl : ∀ t ∈ ts, t.Lexical := Lexer.tokensFrom_lexical h
  refine ⟨fun t ht hk => ?_,fun t ht hk => ?_,fun hrule rest hrest e he => ?_⟩
  · obtain ⟨v,hv⟩ := (hl t ht).written hk
    refine ⟨v,fun w => ⟨hv.unique,?_⟩,fun inner more => ?_⟩
    · rintro rfl
      exact hv
    · exact Reader.operand_literal (literal?_of_written hv)
  · obtain ⟨v,hv⟩ := (hl t ht).written (by simp [isLiteral,hk])
    rw [hk] at hv
    obtain ⟨c,rfl,hc⟩ := hv.character_alone
    exact ⟨c,hv,hc⟩
  · unfold Reader.runFrom at he
    split at he
    · cases he
    · next cause more hr =>
      cases he
      exact ReadError.Cause.message_ne
        (hrule.isLiteral_eq_false (fun t ht => hl t (hrest.subset ht)) hr)

/-- The tokens of `'\''`, `"\\é\""` and `-0.50`. -/
def Token.literalTokens : List Token :=
  [⟨.character,"'\\''",0⟩,⟨.string,"\"\\\\é\\\"\"",5⟩,⟨.decimal,"-0.50",14⟩]

theorem Token.scan_literals_read_escapes :
    Token.scan "'\\'' \"\\\\é\\\"\" -0.50" = .ok literalTokens ∧
    (∀ inner more, Reader.operand inner (⟨.character,"'\\''",0⟩ :: more) =
      .ok (.literal (.character '\'') none) more) ∧
    (∀ inner more, Reader.operand inner (⟨.string,"\"\\\\é\\\"\"",5⟩ :: more) =
      .ok (.literal (.string "\\é\"") none) more) ∧
    (∀ inner more, Reader.operand inner (⟨.decimal,"-0.50",14⟩ :: more) =
      .ok (.literal (.decimal ⟨-50,2⟩) none) more) ∧
    ∃ e, Reader.run Reader.statement literalTokens = .error e ∧
      e.cause.message ≠ "Invalid character literal." := by
  have hscan : Token.scan "'\\'' \"\\\\é\\\"\" -0.50" = .ok literalTokens := by
    decide +kernel
  have hcharacter : Literal.Written .character "'\\''".toList (.character '\'') :=
    @Literal.Written.character ['\\','\''] '\'' (.escape (by decide) .nil)
  have hstring : Literal.Written .string "\"\\\\é\\\"\"".toList (.string "\\é\"") := by
    have hinside : Literal.Denotes ['\\','\\','é','\\','"'] ['\\','é','"'] :=
      .escape (by decide) (.plain (by decide) (.escape (by decide) .nil))
    exact @Literal.Written.string ['\\','\\','é','\\','"'] "\\é\"" hinside
  have hdecimal : Literal.Written .decimal "-0.50".toList (.decimal ⟨-50,2⟩) := by
    have hcount : Literal.count ['0','5','0'] = 50 := by
      decide
    have hv := Literal.toRat_digits true ['0'] ['5','0']
    simp only [List.cons_append,List.nil_append,hcount] at hv
    exact @Literal.Written.decimal true ['0'] ['5','0'] ⟨-50,2⟩ (by simp) (by simp) (by simp)
      (by simp) rfl hv
  obtain ⟨hread,_,hrules⟩ := scan_literals_read _ _ hscan
  refine ⟨hscan,?_,?_,?_,⟨.expectedSemicolon,5⟩,rfl,?_⟩
  · obtain ⟨v,hv,hr⟩ := hread ⟨.character,"'\\''",0⟩ (by decide) rfl
    rwa [← (hv _).mp hcharacter] at hr
  · obtain ⟨v,hv,hr⟩ := hread ⟨.string,"\"\\\\é\\\"\"",5⟩ (by decide) rfl
    rwa [← (hv _).mp hstring] at hr
  · obtain ⟨v,hv,hr⟩ := hread ⟨.decimal,"-0.50",14⟩ (by decide) rfl
    rwa [← (hv _).mp hdecimal] at hr
  · exact (hrules .statement literalTokens List.suffix_rfl _ rfl).2

end BlockScript
