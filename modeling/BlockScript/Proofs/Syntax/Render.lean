import BlockScript.Proofs.Syntax.Complete.Program
import BlockScript.Proofs.Syntax.Forms
import BlockScript.Proofs.Syntax.Sound
import BlockScript.Proofs.Syntax.WellFormed
import BlockScript.Script
import Mathlib.Tactic.TFAE
/-! The text of a tree spells it, so the trees that texts are read to are those that are read back from
their own texts. -/
namespace BlockScript
open Lexer

namespace Lexer.Writes
variable {c : Char} {text more : List Char} {P : List Token → Prop}

lemma name {x : String} (hx : IsName x) (ho : Opens more)
    (hm : ∀ t : Token, t.isName = true → t.text = x → Writes more fun ts => P (t :: ts)) :
    Writes (x.toList ++ more) P := by
  obtain ⟨⟨c,cs,hcs,hc,hs⟩,hw⟩ := hx
  rw [hcs]
  refine word (.identifier hc hs) (by decide) ho fun off => hm _ ?_ ?_
  · rw [← hcs,String.ofList_toList]
    simpa [Token.isName] using hw
  · rw [← hcs,String.ofList_toList]

/-- No operator goes on with a blank. -/
lemma symbol (h : Lexeme .operator text)
    (hm : ∀ off, Writes more fun ts => P (⟨.operator,String.ofList text,off⟩ :: ts)) :
    Writes (text ++ ' ' :: more) P := by
  refine token h ?_ fun off => blank rfl (hm off)
  rintro rest _ _ ⟨⟩ a _
  refine ⟨fun hp => ?_,fun _ => rfl⟩
  exact absurd (Lexeme.operatorPair_second hp) (by decide)

lemma equals (hm : ∀ t : Token, t.is "=" = true → t.form = .mark "=" → Writes more fun ts => P (t :: ts)) :
    Writes (['='] ++ ' ' :: more) P :=
  symbol (.single rfl) fun off => hm ⟨.operator,"=",off⟩ rfl rfl

lemma operator {op : Operator} (h : op ≠ .lessEqual ∧ op ≠ .greaterEqual)
    (hm : ∀ t : Token, t.operator? = some op → Writes more fun ts => P (t :: ts)) :
    Writes (op.symbol.toList ++ ' ' :: more) P := by
  have hl : Lexeme .operator op.symbol.toList := by
    cases op
    case lessEqual => exact absurd rfl h.1
    case greaterEqual => exact absurd rfl h.2
    case and | or | equal | notEqual => exact .pair rfl
    all_goals exact .single rfl
  refine symbol hl fun off => hm _ ?_
  rw [String.ofList_toList]
  exact Operator.ofSymbol?_symbol op

end Lexer.Writes

/-- Tokens with these classes and texts that have a property. -/
def Written (forms : List Form) (P : List Token → Prop) (ts : List Token) : Prop :=
  P ts ∧ ts.map Token.form = forms

/-! ### Expressions -/

lemma Operator.height_eq_succ (op : Operator) : ∃ k, op.height = k + 1 ∧ k + 1 ≤ 4 := by
  cases op <;> exact ⟨_,rfl,by decide⟩

lemma Expr.Spells.lift {k n : Nat} {e : Expr} {ts : List Token} (h : e.Spells k ts) (hk : k ≤ n) :
    e.Spells n ts := by
  induction n, hk using Nat.le_induction with
  | base => exact h
  | succ n _ ih =>
    have := Expr.Spells.chain ih .nil
    rwa [List.append_nil] at this

/-- One more operator after the others of its height. -/
lemma Expr.Tail.snoc {k : Nat} {op : Operator} {l m r : Expr} {o : Token} {us vs : List Token}
    (h : Expr.Tail k l m us) (ho : Token.operator? o = some op) (hop : op.height = k + 1)
    (hr : r.Spells k vs) : Expr.Tail k l (.binary op m r none) (us ++ o :: vs) := by
  match h with
  | .nil =>
    have := Expr.Tail.cons ho hop hr (Expr.Tail.nil (e := .binary op l r none))
    rwa [List.append_nil] at this
  | .cons ho' hop' hr' h =>
    have := Expr.Tail.cons ho' hop' hr' (h.snoc ho hop hr)
    simpa using this

lemma Expr.Spells.binary {k : Nat} {op : Operator} {l r : Expr} {o : Token} {us vs : List Token}
    (h : l.Spells (k + 1) us) (ho : Token.operator? o = some op) (hop : op.height = k + 1)
    (hr : r.Spells k vs) : (Expr.binary op l r none).Spells (k + 1) (us ++ o :: vs) := by
  cases h with
  | chain hl h =>
    rw [List.append_assoc]
    exact .chain hl (h.snoc ho hop hr)

lemma commaSeparated_cons (a b : String) (l : List String) :
    (commaSeparated (a :: b :: l)).toList = a.toList ++ ',' :: ' ' :: (commaSeparated (b :: l)).toList := by
  simp [commaSeparated,String.toList_intercalate]

lemma commaSeparated_one (a : String) : (commaSeparated [a]).toList = a.toList := by
  simp [commaSeparated]

lemma Expr.height_le (e : Expr) : e.height ≤ 4 := by
  cases e with
  | binary op =>
    obtain ⟨k,hk,hle⟩ := op.height_eq_succ
    exact hk.trans_le hle
  | _ => exact Nat.zero_le 4

lemma Expr.Items.writes {es : List Expr} {e : Expr}
    (h : ∀ d ∈ e :: es, Writes d.render.toList (Written d.forms (d.Spells 4))) :
    Writes (commaSeparated (Expr.renderAll (e :: es))).toList
      (Written (Expr.formsAll (e :: es)) (Expr.Items (e :: es))) := by
  induction es generalizing e with
  | nil =>
    rw [Expr.renderAll,Expr.renderAll,commaSeparated_one]
    exact (h e List.mem_cons_self).imp fun _ h => ⟨.one h.1,h.2⟩
  | cons d es ih =>
    obtain ⟨he,hes⟩ := List.forall_mem_cons.mp h
    rw [Expr.renderAll,Expr.renderAll,commaSeparated_cons]
    refine .bind he (.cons rfl) fun us hus => .mark ',' rfl fun c hc fc => .blank rfl ?_
    exact (ih hes).imp fun vs hvs => ⟨.cons hus.1 hc hvs.1,by simp [Expr.formsAll,hus.2,fc,hvs.2]⟩

lemma Expr.Arguments.writes {es : List Expr}
    (h : ∀ e ∈ es, Writes e.render.toList (Written e.forms (e.Spells 4))) :
    Writes (commaSeparated (Expr.renderAll es)).toList
      (Written (Expr.formsAll es) (Expr.Arguments es)) := by
  cases es with
  | nil => exact .pure ⟨.nil,rfl⟩
  | cons e es => exact (Expr.Items.writes h).imp fun _ h => ⟨.items h.1,h.2⟩

mutual
lemma Expr.WellFormed.writes {e : Expr} (h : e.WellFormed) (k : Nat) (hk : e.height ≤ k) :
    Writes e.render.toList (Written e.forms (e.Spells k)) := by
  match e, h with
  | .literal v _, ⟨hv,rfl⟩ =>
    obtain ⟨kind,hl,hop,hv⟩ := hv.render_reads
    obtain ⟨rfl,_⟩ := Token.Lexical.spelling_eq (t := ⟨kind,v.render,0⟩) hl (hv 0)
    rw [Expr.render,← List.append_nil v.render.toList]
    refine .word hl hop .nil fun off => .pure ?_
    rw [String.ofList_toList]
    exact ⟨.lift (.primary (.literal (hv off))) k.zero_le,rfl⟩
  | .group e _, ⟨he,rfl⟩ =>
    have ht : (Expr.group e none).render.toList = '(' :: (e.render.toList ++ [')']) := by
      simp [Expr.render]
    rw [ht]
    refine .mark '(' rfl fun o ho fo => .bind (he.writes 4 e.height_le) (.cons rfl) fun us hi => ?_
    refine .mark ')' rfl fun c hc fc => .pure ⟨?_,by simp [Expr.forms,fo,hi.2,fc]⟩
    exact .lift (.primary (.group ho hi.1 hc)) k.zero_le
  | .binary op l r _, ⟨hop,⟨hl,hr⟩,hlw,hrw,rfl⟩ =>
    obtain ⟨n,hn,_⟩ := op.height_eq_succ
    have ht : (Expr.binary op l r none).render.toList =
        l.render.toList ++ ' ' :: (op.symbol.toList ++ ' ' :: (r.render.toList ++ [])) := by
      simp [Expr.render]
    rw [ht]
    refine .bind (hlw.writes (n + 1) (by omega)) (.cons rfl) fun us hus => .blank rfl ?_
    refine .operator hop fun o ho => .bind (hrw.writes n (by omega)) .nil fun vs hvs => .pure ?_
    rw [List.append_nil]
    refine ⟨.lift (.binary hus.1 ho hn hvs.1) (hn ▸ hk),?_⟩
    simp [Expr.forms,hus.2,Token.form_of_operator ho,hvs.2]
  | .ref x _ _, ⟨hx,rfl,rfl⟩ =>
    rw [Expr.render,← List.append_nil x.toList]
    refine .name hx .nil fun t ht htx => .pure ?_
    subst htx
    exact ⟨.lift (.primary (.ref ht)) k.zero_le,by simp [Expr.forms,Token.form_of_isName ht]⟩
  | .element x i _ _, ⟨hx,hi,rfl,rfl⟩ =>
    have ht : (Expr.element x i none none).render.toList =
        x.toList ++ '[' :: (i.render.toList ++ [']']) := by
      simp [Expr.render]
    rw [ht]
    refine .name hx (.cons rfl) fun t hn htx => .mark '[' rfl fun o ho fo => ?_
    refine .bind (hi.writes 4 i.height_le) (.cons rfl) fun us hus => ?_
    refine .mark ']' rfl fun c hc fc => .pure ?_
    subst htx
    refine ⟨.lift (.primary (.element hn ho hus.1 hc)) k.zero_le,?_⟩
    simp [Expr.forms,Token.form_of_isName hn,fo,hus.2,fc]
  | .call f es _ _, ⟨hf,hes,rfl,rfl⟩ =>
    have ht : (Expr.call f es none none).render.toList =
        f.toList ++ '(' :: ((commaSeparated (Expr.renderAll es)).toList ++ [')']) := by
      simp [Expr.render]
    rw [ht]
    refine .name hf (.cons rfl) fun t hn htx => .mark '(' rfl fun o ho fo => ?_
    refine .bind (Expr.Arguments.writes hes.writes) (.cons rfl) fun us hus => ?_
    refine .mark ')' rfl fun c hc fc => .pure ?_
    subst htx
    refine ⟨.lift (.primary (.call hn ho hus.1 hc)) k.zero_le,?_⟩
    simp [Expr.forms,Token.form_of_isName hn,fo,hus.2,fc]

lemma Expr.AllWellFormed.writes {es : List Expr} (h : Expr.AllWellFormed es) :
    ∀ e ∈ es, Writes e.render.toList (Written e.forms (e.Spells 4)) := by
  match es, h with
  | [], _ => exact nofun
  | e :: es, ⟨he,hes⟩ => exact List.forall_mem_cons.mpr ⟨he.writes 4 e.height_le,hes.writes⟩
end

/-! ### Statements -/

lemma TypeLabel.writes {a : Option String} (h : ∀ t ∈ a, IsName t) :
    Writes (renderTypeName a).toList (Written (labelForms a) (TypeLabel a)) := by
  cases a with
  | none => exact .pure ⟨.none,rfl⟩
  | some x =>
    have ht : (renderTypeName (Option.some x)).toList = ':' :: ' ' :: (x.toList ++ []) := by
      simp [renderTypeName]
    rw [ht]
    refine .mark ':' rfl fun c hc fc => .blank rfl (.name (h x rfl) .nil fun t hn htx => .pure ?_)
    subst htx
    exact ⟨.some hc hn,by simp [labelForms,fc,Token.form_of_isName hn]⟩

lemma TypeLabel.opens (a : Option String) : Opens (renderTypeName a).toList := by
  cases a with
  | none => exact .nil
  | some x =>
    rw [renderTypeName,String.toList_append]
    exact .cons rfl

/-- A name and its annotation. -/
lemma TypeLabel.writes_named {x : String} {a : Option String} {more : List Char}
    {P : List Token → Prop} (hx : IsName x) (ha : ∀ t ∈ a, IsName t) (ho : Opens more)
    (hm : ∀ t us, Token.isName t = true → t.text = x → Written (labelForms a) (TypeLabel a) us →
      Writes more fun ts => P (t :: (us ++ ts))) :
    Writes (x.toList ++ ((renderTypeName a).toList ++ more)) P := by
  refine .name hx (.append (TypeLabel.opens a) ho) fun t hn htx => ?_
  exact .bind (TypeLabel.writes ha) ho fun us hus => hm t us hn htx hus

lemma Initial.opens (v : Option Expr) : Opens (renderInitial v).toList := by
  cases v with
  | none => exact .nil
  | some e =>
    rw [renderInitial,String.toList_append]
    exact .cons rfl

lemma Initial.writes {v : Option Expr} (h : ∀ e ∈ v, e.WellFormed) :
    Writes (renderInitial v).toList (Written (initialForms v) (Initial v)) := by
  cases v with
  | none => exact .pure ⟨.none,rfl⟩
  | some e =>
    have ht : (renderInitial (Option.some e)).toList = ' ' :: (['='] ++ ' ' :: (e.render.toList ++ [])) := by
      simp [renderInitial]
    rw [ht]
    refine .blank rfl (.equals fun o ho fo => ?_)
    refine .bind ((h e rfl).writes 4 e.height_le) .nil fun us hus => .pure ?_
    rw [List.append_nil]
    exact ⟨.some ho hus.1,by simp [initialForms,fo,hus.2]⟩

lemma Stmt.renderBlock_opens (ss : List Stmt) : Opens (Stmt.renderBlock ss).toList := by
  cases ss with
  | nil => exact .nil
  | cons s ss =>
    rw [Stmt.renderBlock,String.toList_append,String.toList_append]
    exact .cons rfl

lemma Case.renderAll_opens (cs : List Case) : Opens (Case.renderAll cs).toList := by
  cases cs with
  | nil => exact .nil
  | cons c cs =>
    rw [Case.renderAll,String.toList_append,String.toList_append]
    exact .cons rfl

lemma Case.Arms.writes {cs : List Case} (hd : Case.DefaultLast cs)
    (h : ∀ c ∈ cs, (∀ e ∈ c.value, e.WellFormed) ∧
      Writes (Stmt.renderBlock c.body).toList (Written (Stmt.formsBlock c.body) (Stmt.Block c.body))) :
    Writes (Case.renderAll cs).toList (Written (Case.formsAll cs) (Case.Arms cs)) := by
  obtain ⟨arms,a,rfl,hv⟩ := hd
  induction arms with
  | nil =>
    have ht : (Case.renderAll [.mk none a]).toList =
        ' ' :: ("DEFAULT".toList ++ ((Stmt.renderBlock a).toList ++ [])) := by
      simp [Case.renderAll,Case.render]
    rw [List.nil_append,ht]
    refine .blank rfl (.keyword "DEFAULT" (by decide) (.append (Stmt.renderBlock_opens a) .nil)
      fun d hd fd => .bind (h (.mk none a) (by simp)).2 .nil fun us hus => .pure ?_)
    rw [List.append_nil]
    have hblock : us.map Token.form = Stmt.formsBlock a := hus.2
    exact ⟨.default hd hus.1,by simp [Case.formsAll,fd,hblock]⟩
  | cons c arms ih =>
    obtain ⟨hc,harms⟩ := List.forall_mem_cons.mp hv
    obtain ⟨⟨hw,hb⟩,hs⟩ := List.forall_mem_cons.mp h
    obtain ⟨v,b⟩ := c
    obtain ⟨e,rfl⟩ := Option.isSome_iff_exists.mp hc
    have ht : (Case.renderAll (.mk (some e) b :: arms ++ [.mk none a])).toList =
        ' ' :: ("CASE".toList ++ ' ' :: (e.render.toList ++ ':' :: ((Stmt.renderBlock b).toList ++
          (Case.renderAll (arms ++ [.mk none a])).toList))) := by
      simp [Case.renderAll,Case.render]
    rw [ht]
    refine .blank rfl (.keyword "CASE" (by decide) (.cons rfl) fun c hc fc => .blank rfl ?_)
    refine .bind ((hw e rfl).writes 4 e.height_le) (.cons rfl) fun us hus => ?_
    refine .mark ':' rfl fun o ho fo => .bind hb (Case.renderAll_opens _) fun vs hvs => ?_
    have hblock : vs.map Token.form = Stmt.formsBlock b := hvs.2
    refine (ih harms hs).imp fun ws hws => ⟨.value hc hus.1 ho hvs.1 hws.1,?_⟩
    simp [Case.formsAll,fc,hus.2,fo,hblock,hws.2]

/-- A condition and the block it guards. -/
lemma Stmt.Block.writes_guarded (w : String) (hw : w ∈ Token.keywords) {c : Expr} {a : List Stmt}
    {more : List Char} {P : List Token → Prop} (hc : c.WellFormed)
    (ha : Writes (Stmt.renderBlock a).toList (Written (Stmt.formsBlock a) (Stmt.Block a)))
    (ho : Opens more)
    (hm : ∀ t d us vs, Token.is t w = true → c.Spells 4 us → Token.is d "DO" = true →
      Stmt.Block a vs → (t :: (us ++ d :: vs)).map Token.form =
        .word w :: (c.forms ++ .word "DO" :: Stmt.formsBlock a) →
      Writes more fun ts => P (t :: (us ++ d :: (vs ++ ts)))) :
    Writes (w.toList ++ ' ' :: (c.render.toList ++ ' ' :: ("DO".toList ++
      ((Stmt.renderBlock a).toList ++ more)))) P := by
  refine .keyword w hw (.cons rfl) fun t ht ft => .blank rfl ?_
  refine .bind (hc.writes 4 c.height_le) (.cons rfl) fun us hus => .blank rfl ?_
  refine .keyword "DO" (by decide) (.append (Stmt.renderBlock_opens a) ho) fun d hd fd => ?_
  exact .bind ha ho fun vs hvs => hm t d us vs ht hus.1 hd hvs.1 (by simp [ft,hus.2,fd,hvs.2])

mutual
lemma Stmt.WellFormed.writes {s : Stmt} (h : s.WellFormed) :
    Writes s.render.toList (Written s.forms s.Spells) := by
  match s, h with
  | .expression e, h =>
    have ht : (Stmt.expression e).render.toList = e.render.toList ++ [';'] := by
      simp [Stmt.render]
    rw [ht]
    refine .bind (Expr.WellFormed.writes h 4 e.height_le) (.cons rfl) fun us hus => ?_
    refine .mark ';' rfl fun s hs fs => .pure ⟨.expression hus.1 hs,?_⟩
    simp [Stmt.forms,hus.2,fs]
  | .declaration x a v _, ⟨hx,ha,hv,rfl⟩ =>
    have ht : (Stmt.declaration x a v none).render.toList = "LET".toList ++ ' ' :: (x.toList ++
        ((renderTypeName a).toList ++ ((renderInitial v).toList ++ [';']))) := by
      simp [Stmt.render]
    rw [ht]
    refine .keyword "LET" (by decide) (.cons rfl) fun l hl fl => .blank rfl ?_
    refine TypeLabel.writes_named hx ha (.append (Initial.opens v) (.cons rfl))
      fun t ts hn htx hts => ?_
    refine .bind (Initial.writes hv) (.cons rfl) fun us hus => ?_
    refine .mark ';' rfl fun s hs fs => .pure ?_
    subst htx
    refine ⟨.declaration hl hn hts.1 hus.1 hs,?_⟩
    simp [Stmt.forms,fl,Token.form_of_isName hn,hts.2,hus.2,fs]
  | .assignment r e, ⟨hx,hr,he⟩ =>
    have ht : (Stmt.assignment r e).render.toList =
        r.render.toList ++ ' ' :: (['='] ++ ' ' :: (e.render.toList ++ [';'])) := by
      simp [Stmt.render]
    rw [ht]
    refine .bind (hr.writes 4 r.height_le) (.cons rfl) fun us hus => .blank rfl ?_
    refine .equals fun o ho fo => ?_
    refine .bind (he.writes 4 e.height_le) (.cons rfl) fun vs hvs => ?_
    refine .mark ';' rfl fun s hs fs => .pure ⟨.assignment hus.1 hx ho hvs.1 hs,?_⟩
    simp [Stmt.forms,hus.2,fo,hvs.2,fs]
  | .ifElse c a [], ⟨hc,ha,_⟩ =>
    have ht : (Stmt.ifElse c a []).render.toList = "IF".toList ++ ' ' :: (c.render.toList ++
        ' ' :: ("DO".toList ++ ((Stmt.renderBlock a).toList ++ ' ' :: ("END".toList ++ [])))) := by
      simp [Stmt.render]
    rw [ht]
    refine Stmt.Block.writes_guarded "IF" (by decide) hc ha.writes (.cons rfl)
      fun i d us vs hi hus hd hvs fs => .blank rfl ?_
    refine .keyword "END" (by decide) .nil fun n hn fn => .pure ⟨.ifOnly hi hus hd hvs hn,?_⟩
    simpa [Stmt.forms,fn] using congrArg (· ++ [Form.word "END"]) fs
  | .ifElse c a (b :: bs), ⟨hc,ha,hb⟩ =>
    have ht : (Stmt.ifElse c a (b :: bs)).render.toList = "IF".toList ++ ' ' :: (c.render.toList ++
        ' ' :: ("DO".toList ++ ((Stmt.renderBlock a).toList ++ ' ' :: ("ELSE".toList ++
          ((Stmt.renderBlock (b :: bs)).toList ++ ' ' :: ("END".toList ++ [])))))) := by
      simp [Stmt.render]
    rw [ht]
    refine Stmt.Block.writes_guarded "IF" (by decide) hc ha.writes (.cons rfl)
      fun i d us vs hi hus hd hvs fs => .blank rfl ?_
    refine .keyword "ELSE" (by decide) (.append (Stmt.renderBlock_opens _) (.cons rfl))
      fun l hl fl => ?_
    refine .bind hb.writes (.cons rfl) fun ws hws => .blank rfl ?_
    refine .keyword "END" (by decide) .nil fun n hn fn => .pure ⟨.ifElse hi hus hd hvs hl hws.1 hn,?_⟩
    simpa [Stmt.forms,fl,hws.2,fn] using
      congrArg (· ++ .word "ELSE" :: (Stmt.formsBlock (b :: bs) ++ [Form.word "END"])) fs
  | .switch c cs, ⟨hc,hd,hcs⟩ =>
    have ht : (Stmt.switch c cs).render.toList = "SWITCH".toList ++ ' ' :: (c.render.toList ++
        ((Case.renderAll cs).toList ++ ' ' :: ("END".toList ++ []))) := by
      simp [Stmt.render]
    rw [ht]
    refine .keyword "SWITCH" (by decide) (.cons rfl) fun s hs fs => .blank rfl ?_
    refine .bind (hc.writes 4 c.height_le) (.append (Case.renderAll_opens cs) (.cons rfl))
      fun us hus => ?_
    refine .bind (Case.Arms.writes hd hcs.writes) (.cons rfl) fun vs hvs => .blank rfl ?_
    refine .keyword "END" (by decide) .nil fun n hn fn => .pure ⟨.switch hs hus.1 hvs.1 hn,?_⟩
    simp [Stmt.forms,fs,hus.2,hvs.2,fn]
  | .loop c a, ⟨hc,ha⟩ =>
    have ht : (Stmt.loop c a).render.toList = "WHILE".toList ++ ' ' :: (c.render.toList ++
        ' ' :: ("DO".toList ++ ((Stmt.renderBlock a).toList ++ ' ' :: ("END".toList ++ [])))) := by
      simp [Stmt.render]
    rw [ht]
    refine Stmt.Block.writes_guarded "WHILE" (by decide) hc ha.writes (.cons rfl)
      fun w d us vs hw hus hd hvs fs => .blank rfl ?_
    refine .keyword "END" (by decide) .nil fun n hn fn => .pure ⟨.loop hw hus hd hvs hn,?_⟩
    simpa [Stmt.forms,fn] using congrArg (· ++ [Form.word "END"]) fs
  | .ret e, h =>
    have ht : (Stmt.ret e).render.toList = "RETURN".toList ++ ' ' :: (e.render.toList ++ [';']) := by
      simp [Stmt.render]
    rw [ht]
    refine .keyword "RETURN" (by decide) (.cons rfl) fun r hr fr => .blank rfl ?_
    refine .bind (Expr.WellFormed.writes h 4 e.height_le) (.cons rfl) fun us hus => ?_
    refine .mark ';' rfl fun s hs fs => .pure ⟨.ret hr hus.1 hs,?_⟩
    simp [Stmt.forms,fr,hus.2,fs]

lemma Stmt.BlockWellFormed.writes {ss : List Stmt} (h : Stmt.BlockWellFormed ss) :
    Writes (Stmt.renderBlock ss).toList (Written (Stmt.formsBlock ss) (Stmt.Block ss)) := by
  match ss, h with
  | [], _ => exact .pure ⟨.nil,rfl⟩
  | s :: ss, ⟨hs,hss⟩ =>
    have ht : (Stmt.renderBlock (s :: ss)).toList =
        ' ' :: (s.render.toList ++ (Stmt.renderBlock ss).toList) := by
      simp [Stmt.renderBlock]
    rw [ht]
    refine .blank rfl (.bind hs.writes (Stmt.renderBlock_opens ss) fun us hus => ?_)
    refine hss.writes.imp fun vs hvs => ⟨.cons hus.1 hvs.1,?_⟩
    simp [Stmt.formsBlock,hus.2,hvs.2]

lemma Case.AllWellFormed.writes {cs : List Case} (h : Case.AllWellFormed cs) :
    ∀ c ∈ cs, (∀ e ∈ c.value, e.WellFormed) ∧
      Writes (Stmt.renderBlock c.body).toList
        (Written (Stmt.formsBlock c.body) (Stmt.Block c.body)) := by
  match cs, h with
  | [], _ => exact nofun
  | .mk v a :: cs, ⟨⟨hv,ha⟩,hcs⟩ => exact List.forall_mem_cons.mpr ⟨⟨hv,ha.writes⟩,hcs.writes⟩
end

/-! ### Programs -/

lemma Global.writes_mutable {x : String} {a : Option String} {v : Option Expr} (hx : IsName x)
    (ha : ∀ t ∈ a, IsName t) (hv : ∀ e ∈ v, e.WellFormed) :
    Writes ("VAR".toList ++ ' ' :: (x.toList ++ ((renderTypeName a).toList ++
      ((renderInitial v).toList ++ [';'])))) (Written (.word "VAR" :: .word x :: (labelForms a ++
        (initialForms v ++ [.mark ";"]))) (Global.Spells ⟨x,a,true,v,none⟩)) := by
  refine .keyword "VAR" (by decide) (.cons rfl) fun l hl fl => .blank rfl ?_
  refine TypeLabel.writes_named hx ha (.append (Initial.opens v) (.cons rfl))
    fun t ts hn htx hts => ?_
  refine .bind (Initial.writes hv) (.cons rfl) fun us hus => .mark ';' rfl fun s hs fs => .pure ?_
  subst htx
  refine ⟨.mutable hl hn hts.1 hus.1 hs,?_⟩
  simp [fl,Token.form_of_isName hn,hts.2,hus.2,fs]

lemma Global.writes_immutable {x : String} {a : Option String} {e : Expr} (hx : IsName x)
    (ha : ∀ t ∈ a, IsName t) (he : e.WellFormed) :
    Writes ("VAL".toList ++ ' ' :: (x.toList ++ ((renderTypeName a).toList ++
      ' ' :: (['='] ++ ' ' :: (e.render.toList ++ [';']))))) (Written (.word "VAL" :: .word x ::
        (labelForms a ++ (initialForms (some e) ++ [.mark ";"])))
        (Global.Spells ⟨x,a,false,some e,none⟩)) := by
  refine .keyword "VAL" (by decide) (.cons rfl) fun l hl fl => .blank rfl ?_
  refine TypeLabel.writes_named hx ha (.cons rfl) fun t ts hn htx hts => .blank rfl ?_
  refine .equals fun o ho fo => .bind (he.writes 4 e.height_le) (.cons rfl) fun us hus => ?_
  refine .mark ';' rfl fun s hs fs => .pure ?_
  subst htx
  refine ⟨.immutable hl hn hts.1 ho hus.1 hs,?_⟩
  simp [initialForms,fl,Token.form_of_isName hn,hts.2,fo,hus.2,fs]

lemma Global.writes_list {x : String} {a : Option String} {es : List Expr} (hx : IsName x)
    (ha : ∀ t ∈ a, IsName t) (hes : Expr.AllWellFormed es) :
    Writes ("LIST".toList ++ ' ' :: (x.toList ++ ((renderTypeName a).toList ++
      ' ' :: (['='] ++ ' ' :: '[' :: ((commaSeparated (Expr.renderAll es)).toList ++ [']',';'])))))
      (Written (.word "LIST" :: .word x :: (labelForms a ++
        (initialForms (some (.list es none)) ++ [.mark ";"])))
        (Global.Spells ⟨x,a,true,some (.list es none),none⟩)) := by
  refine .keyword "LIST" (by decide) (.cons rfl) fun l hl fl => .blank rfl ?_
  refine TypeLabel.writes_named hx ha (.cons rfl) fun t ts hn htx hts => .blank rfl ?_
  refine .equals fun o ho fo => .mark '[' rfl fun b hb fb => ?_
  refine .bind (Expr.Arguments.writes hes.writes) (.cons rfl) fun us hus => ?_
  refine .mark ']' rfl fun c hc fc => .mark ';' rfl fun s hs fs => .pure ?_
  subst htx
  refine ⟨.list hl hn hts.1 ho hb hus.1 hc hs,?_⟩
  simp [initialForms,Expr.forms,fl,Token.form_of_isName hn,hts.2,fo,fb,hus.2,fc,fs]

lemma Expr.WellFormed.isList {e : Expr} (h : e.WellFormed) : e.isList = false := by
  cases e with
  | list => exact h.elim
  | _ => rfl

lemma Global.InitialWellFormed.cases {m : Bool} {v : Option Expr}
    (h : Global.InitialWellFormed m v) : (v = none ∧ m = true) ∨
      (∃ es, v = some (.list es none) ∧ m = true ∧ Expr.AllWellFormed es) ∨
      ∃ e, v = some e ∧ e.WellFormed := by
  unfold Global.InitialWellFormed at h
  split at h
  · exact .inl ⟨rfl,h⟩
  · obtain ⟨hm,hes,rfl⟩ := h
    exact .inr (.inl ⟨_,rfl,hm,hes⟩)
  · exact .inr (.inr ⟨_,rfl,h⟩)

lemma Global.WellFormed.writes {g : Global} (h : g.WellFormed) :
    Writes g.render.toList (Written g.forms g.Spells) := by
  obtain ⟨x,a,m,v,b⟩ := g
  obtain ⟨hx,ha,hv,rfl⟩ := h
  rcases hv.cases with ⟨rfl,rfl⟩ | ⟨es,rfl,rfl,hes⟩ | ⟨e,rfl,he⟩
  · have := Global.writes_mutable (v := none) hx ha fun e he => by cases he
    simpa [Global.render,Global.forms,Global.keyword] using this
  · have := Global.writes_list hx ha hes
    simpa [Global.render,Global.forms,Global.keyword,Expr.isList,renderInitial,Expr.render] using this
  · cases m with
    | true =>
      have := Global.writes_mutable (v := some e) hx ha (by rintro _ ⟨⟩; exact he)
      simpa [Global.render,Global.forms,Global.keyword,he.isList] using this
    | false =>
      have := Global.writes_immutable hx ha he
      simpa [Global.render,Global.forms,Global.keyword,he.isList,renderInitial] using this

lemma Function.Parameters.writes {p : String × String} {ps : List (String × String)}
    (h : ∀ q ∈ p :: ps, IsName q.1 ∧ IsName q.2) :
    Writes (commaSeparated ((p :: ps).map fun q => q.1 ++ ": " ++ q.2)).toList
      (Written (Function.parameterForms (p :: ps)) (Function.Parameters (p :: ps))) := by
  induction ps generalizing p with
  | nil =>
    obtain ⟨x,t⟩ := p
    obtain ⟨hx,ht⟩ := h (x,t) List.mem_cons_self
    have htext : (commaSeparated ([(x,t)].map fun q => q.1 ++ ": " ++ q.2)).toList =
        x.toList ++ ':' :: ' ' :: (t.toList ++ []) := by
      simp [commaSeparated]
    rw [htext]
    refine .name hx (.cons rfl) fun y hy hyx => .mark ':' rfl fun c hc fc => .blank rfl ?_
    refine .name ht .nil fun u hu hut => .pure ?_
    subst hyx hut
    refine ⟨.one hy hc hu,?_⟩
    simp [Function.parameterForms,Token.form_of_isName hy,fc,Token.form_of_isName hu]
  | cons q ps ih =>
    obtain ⟨x,t⟩ := p
    obtain ⟨⟨hx,ht⟩,hs⟩ := List.forall_mem_cons.mp h
    have htext : (commaSeparated (((x,t) :: q :: ps).map fun q => q.1 ++ ": " ++ q.2)).toList =
        x.toList ++ ':' :: ' ' :: (t.toList ++ ',' :: ' ' ::
          (commaSeparated ((q :: ps).map fun q => q.1 ++ ": " ++ q.2)).toList) := by
      rw [List.map_cons,List.map_cons,commaSeparated_cons]
      simp
    rw [htext]
    refine .name hx (.cons rfl) fun y hy hyx => .mark ':' rfl fun c hc fc => .blank rfl ?_
    refine .name ht (.cons rfl) fun u hu hut => .mark ',' rfl fun o ho fo => .blank rfl ?_
    subst hyx hut
    refine (ih hs).imp fun ts hts => ⟨.cons hy hc hu ho hts.1,?_⟩
    simp [Function.parameterForms,Token.form_of_isName hy,fc,Token.form_of_isName hu,fo,hts.2]

lemma Function.WellFormed.writes {f : Function} (h : f.WellFormed) :
    Writes f.render.toList (Written f.forms f.Spells) := by
  obtain ⟨x,params,types,r,body,b⟩ := f
  obtain ⟨hx,hlen,hparams,htypes,hr,hbody,rfl⟩ := h
  obtain ⟨ps,rfl,rfl⟩ : ∃ ps : List (String × String), params = ps.map (·.1) ∧
      types = ps.map (·.2) :=
    ⟨params.zip types,(List.map_fst_zip hlen.le).symm,(List.map_snd_zip hlen.ge).symm⟩
  have hnames : ∀ p ∈ ps, IsName p.1 ∧ IsName p.2 := fun p hp =>
    ⟨hparams _ (List.mem_map_of_mem hp),htypes _ (List.mem_map_of_mem hp)⟩
  have hps : Writes (commaSeparated (ps.map fun q => q.1 ++ ": " ++ q.2)).toList
      (Written (Function.parameterForms ps) fun ts => (ps = [] ∧ ts = []) ∨ Function.Parameters ps ts) := by
    cases ps with
    | nil => exact .pure ⟨.inl ⟨rfl,rfl⟩,rfl⟩
    | cons p ps => exact (Function.Parameters.writes hnames).imp fun _ h => ⟨.inr h.1,h.2⟩
  have ht : (Function.mk x (ps.map (·.1)) (ps.map (·.2)) r body none).render.toList =
      "FUN".toList ++ ' ' :: (x.toList ++ '(' ::
        ((commaSeparated (ps.map fun q => q.1 ++ ": " ++ q.2)).toList ++ ')' ::
          ((renderTypeName r).toList ++ ' ' :: ("DO".toList ++ ((Stmt.renderBlock body).toList ++
            ' ' :: ("END".toList ++ [])))))) := by
    simp [Function.render,List.zipWith_map,List.zipWith_self]
  rw [ht]
  refine .keyword "FUN" (by decide) (.cons rfl) fun f hf ff => .blank rfl ?_
  refine .name hx (.cons rfl) fun t hn htx => .mark '(' rfl fun o ho fo => ?_
  refine .bind hps (.cons rfl) fun us hus => .mark ')' rfl fun c hc fc => ?_
  refine .bind (TypeLabel.writes hr) (.cons rfl) fun vs hvs => .blank rfl ?_
  refine .keyword "DO" (by decide) (.append (Stmt.renderBlock_opens body) (.cons rfl)) fun d hd fd => ?_
  refine .bind hbody.writes (.cons rfl) fun ws hws => .blank rfl ?_
  refine .keyword "END" (by decide) .nil fun n hend fend => .pure ?_
  subst htx
  refine ⟨.mk hf hn ho hus.1 hc hvs.1 hd hws.1 hend,?_⟩
  simp [Function.forms,Function.zip_parameters,ff,Token.form_of_isName hn,fo,hus.2,fc,hvs.2,fd,hws.2,fend]

lemma Sequence.writes {α : Type} {P : α → List Token → Prop} {forms : α → List Form}
    {render : α → String} {as : List α} {more : List Char} {Q : List Token → Prop}
    (h : ∀ a ∈ as, Writes (render a).toList (Written (forms a) (P a)))
    (hm : ∀ us, Written (as.flatMap forms) (Sequence P as) us → Writes more fun vs => Q (us ++ vs)) :
    Writes ((as.flatMap fun a => (render a).toList ++ ['\n']) ++ more) Q := by
  induction as generalizing Q with
  | nil => exact hm [] ⟨.nil,rfl⟩
  | cons a as ih =>
    obtain ⟨ha,has⟩ := List.forall_mem_cons.mp h
    simp only [List.flatMap_cons,List.append_assoc]
    refine .bind ha (.cons rfl) fun us hus => .blank rfl (ih has fun vs hvs => ?_)
    have hboth : Written ((a :: as).flatMap forms) (Sequence P (a :: as)) (us ++ vs) :=
      ⟨.cons hus.1 hvs.1,by rw [List.map_append,hus.2,hvs.2,List.flatMap_cons]⟩
    simpa only [List.append_assoc] using hm (us ++ vs) hboth

lemma Program.WellFormed.writes {p : Program} (h : p.WellFormed) :
    Writes p.render.toList (Written p.forms p.Spells) := by
  have ht : p.render.toList = (p.globals.flatMap fun g => g.render.toList ++ ['\n']) ++
      ((p.functions.flatMap fun f => f.render.toList ++ ['\n']) ++ []) := by
    simp [Program.render,List.flatMap_map]
  rw [ht]
  refine Sequence.writes (fun g hg => (h.globals g hg).writes) fun us hus => ?_
  refine Sequence.writes (fun f hf => (h.functions f hf).writes) fun vs hvs => .pure ?_
  rw [List.append_nil]
  exact ⟨⟨us,vs,rfl,hus.1,hvs.1⟩,by rw [List.map_append,hus.2,hvs.2,Program.forms]⟩

lemma Program.Spells.wellFormed {p : Program} {ts : List Token} (h : p.Spells ts)
    (hl : ∀ t ∈ ts, t.Lexical) : p.WellFormed := by
  obtain ⟨us,vs,rfl,hg,hf⟩ := h
  constructor
  · intro g hmem
    obtain ⟨ws,hws,hg⟩ := hg.exists_of_mem g hmem
    exact hg.wellFormed fun t ht => hl t (List.mem_append_left vs (hws t ht))
  · intro f hmem
    obtain ⟨ws,hws,hf⟩ := hf.exists_of_mem f hmem
    exact hf.wellFormed fun t ht => hl t (List.mem_append_right us (hws t ht))

namespace Script

/-- The tree a text is read to can be written. -/
lemma wellFormed_of_read {source : String} {p : Program} (h : read source = .ok p) :
    p.WellFormed := by
  obtain ⟨ts,hs,hr⟩ := read_eq_ok_iff.mp h
  exact (Reader.program_ok hr).2.wellFormed (tokensFrom_lexical hs)

/-- The text of a tree is cut into its tokens, and they spell it. -/
lemma scan_render {p : Program} (h : p.WellFormed) :
    ∃ ts, Token.scan p.render = .ok ts ∧ p.Spells ts ∧ ts.map Token.form = p.forms := by
  obtain ⟨ts,off,⟨hp,hf⟩,he⟩ := h.writes 0 [] nofun
  refine ⟨ts,?_,hp,hf⟩
  rw [List.append_nil] at he
  rw [Token.scan,he,tokensFrom]
  exact congrArg Except.ok (List.append_nil ts)

/-- A tree that can be written is read back from its text. -/
lemma read_render {p : Program} (h : p.WellFormed) : read p.render = .ok p := by
  obtain ⟨ts,hs,hp,_⟩ := scan_render h
  exact read_eq_ok_iff.mpr ⟨ts,hs,Reader.program_reads hp fun t ht => (tokensFrom_lexical hs t ht).sane⟩

/-- The trees that texts are read to are the well-formed ones, and each of these is read back from its
own text, slots and scales of decimals included. -/
theorem wellFormed_tfae_read (p : Program) :
    List.TFAE [p.WellFormed,∃ source, read source = .ok p,read p.render = .ok p] := by
  tfae_have 1 → 3 := read_render
  tfae_have 3 → 2 := fun h => ⟨p.render,h⟩
  tfae_have 2 → 1 := fun ⟨_,h⟩ => wellFormed_of_read h
  tfae_finish

end Script
end BlockScript
