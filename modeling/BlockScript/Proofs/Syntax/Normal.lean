import BlockScript.Proofs.Syntax.Complete.Program
import BlockScript.Proofs.Syntax.Forms
/-! What is left of the tokens in the tree that they spell: all of them but the `ELSE` of an empty block,
each in its place, and every literal in its own spelling. -/
namespace BlockScript
open Lexer

namespace Token

/-- Without every `ELSE` that an `END` follows. -/
def dropEmptyElse : List Token → List Token
  | t :: u :: ts =>
    if t.is "ELSE" && u.is "END" then dropEmptyElse (u :: ts) else t :: dropEmptyElse (u :: ts)
  | ts => ts

/-- The class of a token and its spelling. -/
def spelled (t : Token) : Form := (t.kind,t.spelling)

def normal (ts : List Token) : List Form := (dropEmptyElse ts).map spelled

variable {t l n : Token} {ts us : List Token}

lemma normal_cons (h : t.is "ELSE" = false) : normal (t :: ts) = t.spelled :: normal ts := by
  cases ts with
  | nil => rfl
  | cons u ts => simp [normal,dropEmptyElse,h]

lemma normal_else_end (hl : l.is "ELSE" = true) (hn : n.is "END" = true) :
    normal (l :: n :: ts) = normal (n :: ts) := by
  simp [normal,dropEmptyElse,hl,hn]

lemma normal_else (h : n.is "END" = false) : normal (l :: n :: ts) = l.spelled :: normal (n :: ts) := by
  simp [normal,dropEmptyElse,h]

/-- The signs between words that are no operators. -/
def marks : List String := ["(",")","[","]",",",":",";","="]

/-- A token that is no `ELSE`, and its spelling. -/
structure Leaves (t : Token) (f : Form) : Prop where
  spelled : t.spelled = f
  other : t.is "ELSE" = false

namespace Leaves
variable {w : String}

lemma of_form (hk : t.kind = .identifier ∨ t.kind = .operator) (h : w ≠ "ELSE") (ht : t.text = w) :
    t.Leaves (t.kind,w) := by
  constructor
  · rcases hk with hk | hk <;> rw [Token.spelled,spelling,hk,ht]
  · rw [is,ht]
    exact beq_eq_false_iff_ne.mpr h

lemma name (h : t.isName = true) : t.Leaves (.word t.text) := by
  obtain ⟨hk,hw⟩ := isName_spec h
  have hl := of_form (.inl hk) (fun he => hw (by rw [he]; decide)) rfl
  rwa [hk] at hl

lemma word (hl : t.Lexical) (h : t.is w = true) (hw : w ∈ keywords ∧ w ≠ "ELSE") :
    t.Leaves (.word w) := by
  have ht : t.text = w := beq_iff_eq.mp h
  have hk : t.kind = .identifier := hl.sane.keyword (ht ▸ hw.1)
  have hl := of_form (.inl hk) hw.2 ht
  rwa [hk] at hl

lemma mark (hl : t.Lexical) (h : t.is w = true) (hw : w ∈ marks) : t.Leaves (.mark w) := by
  have hall : ∀ w ∈ marks, (w.toList.head?.any isSymbol && w.toList.tail.isEmpty) = true ∧ w ≠ "ELSE" := by
    decide
  obtain ⟨hsymbol,hne⟩ := hall w hw
  have ht : t.text = w := beq_iff_eq.mp h
  have hlex : Lexeme .operator w.toList := by
    cases hcs : w.toList with
    | nil => rw [hcs] at hsymbol; cases hsymbol
    | cons c cs =>
      rw [hcs,Bool.and_eq_true,List.tail_cons,List.isEmpty_iff] at hsymbol
      rw [hsymbol.2]
      exact .single hsymbol.1
  unfold Token.Lexical at hl
  rw [ht] at hl
  have hk : t.kind = .operator := hl.kind_eq hlex
  have hl := of_form (.inr hk) hne ht
  rwa [hk] at hl

lemma operator {op : Operator} (h : t.operator? = some op) : t.Leaves (.mark op.symbol) := by
  obtain ⟨hk,ht⟩ := operator?_spec h
  have hl := of_form (.inr hk) (by cases op <;> decide) ht
  rwa [hk] at hl

lemma literal {v : Literal} (hl : t.Lexical) (h : t.literal? = some v) : t.Leaves v.form := by
  obtain ⟨hk,hs⟩ := hl.spelling_eq h
  refine ⟨by rw [Token.spelled,hk,hs,Literal.form],beq_eq_false_iff_ne.mpr fun ht => ?_⟩
  have hkind : t.kind = .identifier := hl.sane.keyword (by rw [ht]; decide)
  simp [literal?,hkind,is,ht] at h

end Leaves
end Token

/-- What tokens leave, whatever stands after them. -/
def Leave (ts : List Token) (fs : List Form) : Prop :=
  ∀ rest, Token.normal (ts ++ rest) = fs ++ Token.normal rest

namespace Leave
variable {t l : Token} {f : Form} {ts us : List Token} {fs gs : List Form}

lemma nil : Leave [] [] := fun _ => rfl

lemma append (h : Leave ts fs) (h' : Leave us gs) : Leave (ts ++ us) (fs ++ gs) := by
  intro rest
  rw [List.append_assoc,h,h',List.append_assoc]

lemma cons (ht : t.Leaves f) (h : Leave ts fs) : Leave (t :: ts) (f :: fs) := by
  intro rest
  rw [List.cons_append,Token.normal_cons ht.other,ht.spelled,h,List.cons_append]

lemma one (ht : t.Leaves f) : Leave [t] [f] := cons ht nil

end Leave

/-! ### Expressions -/

mutual
lemma Expr.Spells.leave {k : Nat} {e : Expr} {ts : List Token} (h : e.Spells k ts)
    (hl : ∀ t ∈ ts, t.Lexical) : Leave ts e.forms := by
  match h with
  | .primary h => exact h.leave hl
  | .chain hs h =>
    rw [List.forall_mem_append] at hl
    exact h.leave hl.2 (hs.leave hl.1)

/-- The operators and operands after the first one. -/
lemma Expr.Tail.leave {k : Nat} {l e : Expr} {us ts : List Token} (h : Expr.Tail k l e ts)
    (hl : ∀ t ∈ ts, t.Lexical) (hus : Leave us l.forms) : Leave (us ++ ts) e.forms := by
  match h with
  | .nil =>
    rw [List.append_nil]
    exact hus
  | @Expr.Tail.cons k l r e op o ts vs ho _ hr h =>
    rw [List.forall_mem_cons,List.forall_mem_append] at hl
    have hleft : Leave (us ++ o :: ts) (Expr.binary op l r none).forms := by
      rw [Expr.forms]
      exact hus.append (.cons (.operator ho) (hr.leave hl.2.1))
    simpa using h.leave hl.2.2 hleft

lemma Expr.Primary.leave {e : Expr} {ts : List Token} (h : Expr.Primary e ts)
    (hl : ∀ t ∈ ts, t.Lexical) : Leave ts e.forms := by
  match h with
  | .literal h =>
    rw [List.forall_mem_singleton] at hl
    exact .one (.literal hl h)
  | .group ho h hc =>
    simp only [List.forall_mem_cons,List.forall_mem_append] at hl
    obtain ⟨hlo,hle,hlc,_⟩ := hl
    rw [Expr.forms]
    exact .cons (.mark hlo ho (by decide))
      ((h.leave hle).append (.one (.mark hlc hc (by decide))))
  | .ref hx => exact .one (.name hx)
  | .element hx ho h hc =>
    simp only [List.forall_mem_cons,List.forall_mem_append] at hl
    obtain ⟨_,hlo,hle,hlc,_⟩ := hl
    rw [Expr.forms]
    exact .cons (.name hx) (.cons (.mark hlo ho (by decide))
      ((h.leave hle).append (.one (.mark hlc hc (by decide)))))
  | .call hx ho h hc =>
    simp only [List.forall_mem_cons,List.forall_mem_append] at hl
    obtain ⟨_,hlo,hle,hlc,_⟩ := hl
    rw [Expr.forms]
    exact .cons (.name hx) (.cons (.mark hlo ho (by decide))
      ((h.leave hle).append (.one (.mark hlc hc (by decide)))))

lemma Expr.Arguments.leave {es : List Expr} {ts : List Token} (h : Expr.Arguments es ts)
    (hl : ∀ t ∈ ts, t.Lexical) : Leave ts (Expr.formsAll es) := by
  match h with
  | .nil => exact .nil
  | .items h => exact h.leave hl

lemma Expr.Items.leave {es : List Expr} {ts : List Token} (h : Expr.Items es ts)
    (hl : ∀ t ∈ ts, t.Lexical) : Leave ts (Expr.formsAll es) := by
  match h with
  | .one h => exact h.leave hl
  | @Expr.Items.cons e ts c es us h hc hs =>
    rw [List.forall_mem_append,List.forall_mem_cons] at hl
    obtain ⟨hle,hlc,hls⟩ := hl
    have hrest := hs.leave hls
    obtain ⟨d,ds,rfl⟩ : ∃ d ds, es = d :: ds := by
      cases hs <;> exact ⟨_,_,rfl⟩
    rw [Expr.formsAll]
    exact (h.leave hle).append (.cons (.mark hlc hc (by decide)) hrest)
end

/-! ### Statements -/

lemma TypeLabel.leave {a : Option String} {ts : List Token} (h : TypeLabel a ts)
    (hl : ∀ t ∈ ts, t.Lexical) : Leave ts (labelForms a) := by
  cases h with
  | none => exact .nil
  | some hc hx => exact .cons (.mark (hl _ List.mem_cons_self) hc (by decide)) (.one (.name hx))

lemma Initial.leave {v : Option Expr} {ts : List Token} (h : Initial v ts)
    (hl : ∀ t ∈ ts, t.Lexical) : Leave ts (initialForms v) := by
  cases h with
  | none => exact .nil
  | some ho h =>
    rw [List.forall_mem_cons] at hl
    exact .cons (.mark hl.1 ho (by decide)) (h.leave hl.2)

/-- What an `ELSE` leaves with the block and the `END` after it. -/
lemma Leave.otherwise {l n : Token} {b : List Stmt} {vs : List Token} (hl : l.is "ELSE" = true)
    (hll : l.Lexical) (hb : Stmt.Block b vs) (hlb : ∀ t ∈ vs, t.Lexical) (hn : n.is "END" = true)
    (h : Leave (vs ++ [n]) (Stmt.formsBlock b ++ [.word "END"])) : Leave (l :: (vs ++ [n]))
      ((if b.isEmpty then [] else .word "ELSE" :: Stmt.formsBlock b) ++ [.word "END"]) := by
  have hspelled : l.spelled = .word "ELSE" := by
    have ht : l.text = "ELSE" := beq_iff_eq.mp hl
    have hk : l.kind = .identifier := hll.sane.keyword (by rw [ht]; decide)
    rw [Token.spelled,Token.spelling,hk,ht,Form.word]
  intro rest
  cases hb with
  | nil => exact (Token.normal_else_end hl hn).trans (h rest)
  | cons hs hss =>
    obtain ⟨t,us,rfl,ht⟩ := hs.starts fun t ht => (hlb t (List.mem_append_left _ ht)).sane
    have hend : t.is "END" = false := beq_eq_false_iff_ne.mpr fun he => ht (by rw [he]; decide)
    have hafter := h rest
    simp only [List.cons_append] at hafter ⊢
    rw [Token.normal_else hend,hspelled,hafter]
    rfl

mutual
lemma Stmt.Spells.leave {s : Stmt} {ts : List Token} (h : s.Spells ts) (hl : ∀ t ∈ ts, t.Lexical) :
    Leave ts s.forms := by
  match h with
  | .expression h hs =>
    rw [List.forall_mem_append,List.forall_mem_singleton] at hl
    rw [Stmt.forms]
    exact (h.leave hl.1).append (.one (.mark hl.2 hs (by decide)))
  | .assignment hr _ ho h hs =>
    simp only [List.forall_mem_cons,List.forall_mem_append] at hl
    obtain ⟨hlr,hlo,hle,hls,_⟩ := hl
    rw [Stmt.forms]
    exact (hr.leave hlr).append (.cons (.mark hlo ho (by decide))
      ((h.leave hle).append (.one (.mark hls hs (by decide)))))
  | .declaration hd hx ha hv hs =>
    simp only [List.forall_mem_cons,List.forall_mem_append] at hl
    obtain ⟨hld,_,hla,hlv,hls,_⟩ := hl
    rw [Stmt.forms]
    exact .cons (.word hld hd (by decide)) (.cons (.name hx) ((ha.leave hla).append
      ((hv.leave hlv).append (.one (.mark hls hs (by decide))))))
  | .ifOnly hi hc hd ha hn =>
    simp only [List.forall_mem_cons,List.forall_mem_append] at hl
    obtain ⟨hli,hlc,hld,hla,hln,_⟩ := hl
    rw [Stmt.forms]
    exact .cons (.word hli hi (by decide)) ((hc.leave hlc).append (.cons (.word hld hd (by decide))
      ((ha.leave hla).append (.one (.word hln hn (by decide))))))
  | .ifElse hi hc hd ha hl' hb hn =>
    simp only [List.forall_mem_cons,List.forall_mem_append] at hl
    obtain ⟨hli,hlc,hld,hla,hll,hlb,hln,_⟩ := hl
    have hrest := (hb.leave hlb).append (.one (.word hln hn (by decide)))
    rw [Stmt.forms]
    exact .cons (.word hli hi (by decide)) ((hc.leave hlc).append (.cons (.word hld hd (by decide))
      ((ha.leave hla).append (.otherwise hl' hll hb hlb hn hrest))))
  | .switch hs hc h hn =>
    simp only [List.forall_mem_cons,List.forall_mem_append] at hl
    obtain ⟨hls,hlc,hla,hln,_⟩ := hl
    rw [Stmt.forms]
    exact .cons (.word hls hs (by decide)) ((hc.leave hlc).append ((h.leave hla).append
      (.one (.word hln hn (by decide)))))
  | .loop hw hc hd ha hn =>
    simp only [List.forall_mem_cons,List.forall_mem_append] at hl
    obtain ⟨hlw,hlc,hld,hla,hln,_⟩ := hl
    rw [Stmt.forms]
    exact .cons (.word hlw hw (by decide)) ((hc.leave hlc).append (.cons (.word hld hd (by decide))
      ((ha.leave hla).append (.one (.word hln hn (by decide))))))
  | .ret hr h hs =>
    simp only [List.forall_mem_cons,List.forall_mem_append] at hl
    obtain ⟨hlr,hle,hls,_⟩ := hl
    rw [Stmt.forms]
    exact .cons (.word hlr hr (by decide)) ((h.leave hle).append (.one (.mark hls hs (by decide))))

lemma Stmt.Block.leave {ss : List Stmt} {ts : List Token} (h : Stmt.Block ss ts)
    (hl : ∀ t ∈ ts, t.Lexical) : Leave ts (Stmt.formsBlock ss) := by
  match h with
  | .nil => exact .nil
  | .cons h hs =>
    rw [List.forall_mem_append] at hl
    rw [Stmt.formsBlock]
    exact (h.leave hl.1).append (hs.leave hl.2)

lemma Case.Arms.leave {cs : List Case} {ts : List Token} (h : Case.Arms cs ts)
    (hl : ∀ t ∈ ts, t.Lexical) : Leave ts (Case.formsAll cs) := by
  match h with
  | .default hd h =>
    rw [List.forall_mem_cons] at hl
    rw [Case.formsAll,Case.formsAll,List.append_nil]
    exact .cons (.word hl.1 hd (by decide)) (h.leave hl.2)
  | .value hc he ho ha h =>
    simp only [List.forall_mem_cons,List.forall_mem_append] at hl
    obtain ⟨hlc,hle,hlo,hla,hls⟩ := hl
    rw [Case.formsAll]
    exact .cons (.word hlc hc (by decide)) ((he.leave hle).append (.cons (.mark hlo ho (by decide))
      ((ha.leave hla).append (h.leave hls))))
end

/-! ### Programs -/

lemma Expr.Spells.isList {k : Nat} {e : Expr} {ts : List Token} (h : e.Spells k ts)
    (hl : ∀ t ∈ ts, t.Lexical) : e.isList = false := by
  have hw := (h.wellFormed hl).1
  cases e with
  | list => exact hw.elim
  | _ => rfl

lemma Global.Spells.leave {g : Global} {ts : List Token} (h : g.Spells ts)
    (hl : ∀ t ∈ ts, t.Lexical) : Leave ts g.forms := by
  cases h with
  | list hk hx ha ho hb h hc hs =>
    simp only [List.forall_mem_cons,List.forall_mem_append] at hl
    obtain ⟨hlk,_,hla,hlo,hlb,hle,hlc,hls,_⟩ := hl
    have := Leave.cons (.word hlk hk (by decide)) (.cons (.name hx) ((ha.leave hla).append
      (.cons (.mark hlo ho (by decide)) (.cons (.mark hlb hb (by decide)) ((h.leave hle).append
        (.cons (.mark hlc hc (by decide)) (.one (.mark hls hs (by decide)))))))))
    simpa [Global.forms,Global.keyword,Expr.isList,initialForms,Expr.forms] using this
  | @mutable l x a ts v us s hk hx ha hv hs =>
    simp only [List.forall_mem_cons,List.forall_mem_append] at hl
    obtain ⟨hlk,_,hla,hlv,hls,_⟩ := hl
    have hlist : v.any Expr.isList = false := by
      cases hv with
      | none => rfl
      | some _ h => exact h.isList fun t ht => hlv t (List.mem_cons_of_mem _ ht)
    have := Leave.cons (.word hlk hk (by decide)) (.cons (.name hx) ((ha.leave hla).append
      ((hv.leave hlv).append (.one (.mark hls hs (by decide))))))
    simpa [Global.forms,Global.keyword,hlist] using this
  | immutable hk hx ha ho h hs =>
    simp only [List.forall_mem_cons,List.forall_mem_append] at hl
    obtain ⟨hlk,_,hla,hlo,hle,hls,_⟩ := hl
    have := Leave.cons (.word hlk hk (by decide)) (.cons (.name hx) ((ha.leave hla).append
      (.cons (.mark hlo ho (by decide)) ((h.leave hle).append (.one (.mark hls hs (by decide)))))))
    simpa [Global.forms,Global.keyword,h.isList hle,initialForms] using this

lemma Function.Parameters.leave {ps : List (String × String)} {ts : List Token}
    (h : Function.Parameters ps ts) (hl : ∀ t ∈ ts, t.Lexical) :
    Leave ts (Function.parameterForms ps) := by
  induction h with
  | one hx hc ht =>
    simp only [List.forall_mem_cons] at hl
    exact .cons (.name hx) (.cons (.mark hl.2.1 hc (by decide)) (.one (.name ht)))
  | @cons x c t o ps ts hx hc ht ho h ih =>
    simp only [List.forall_mem_cons] at hl
    obtain ⟨_,hlc,_,hlo,hls⟩ := hl
    have hrest := ih hls
    obtain ⟨q,qs,rfl⟩ : ∃ q qs, ps = q :: qs := by
      cases h <;> exact ⟨_,_,rfl⟩
    exact .cons (.name hx) (.cons (.mark hlc hc (by decide)) (.cons (.name ht)
      (.cons (.mark hlo ho (by decide)) hrest)))

lemma Function.Spells.leave {f : Function} {ts : List Token} (h : f.Spells ts)
    (hl : ∀ t ∈ ts, t.Lexical) : Leave ts f.forms := by
  cases h with
  | @mk f x o ps ts c a us d b vs n hf hx ho hp hc ha hd hb hn =>
    simp only [List.forall_mem_cons,List.forall_mem_append] at hl
    obtain ⟨hlf,_,hlo,hlp,hlc,hla,hld,hlb,hln,_⟩ := hl
    have hps : Leave ts (Function.parameterForms ps) := by
      rcases hp with ⟨rfl,rfl⟩ | hp
      · exact .nil
      · exact hp.leave hlp
    rw [Function.forms]
    dsimp only
    rw [Function.zip_parameters]
    exact .cons (.word hlf hf (by decide)) (.cons (.name hx) (.cons (.mark hlo ho (by decide))
      (hps.append (.cons (.mark hlc hc (by decide)) ((ha.leave hla).append
        (.cons (.word hld hd (by decide)) ((hb.leave hlb).append (.one (.word hln hn (by decide))))))))))

lemma Sequence.leave {α : Type} {P : α → List Token → Prop} {forms : α → List Form} {as : List α}
    {ts : List Token} (h : Sequence P as ts)
    (hP : ∀ a ts, P a ts → (∀ t ∈ ts, t.Lexical) → Leave ts (forms a)) (hl : ∀ t ∈ ts, t.Lexical) :
    Leave ts (as.flatMap forms) := by
  induction h with
  | nil => exact .nil
  | cons h _ ih =>
    rw [List.forall_mem_append] at hl
    rw [List.flatMap_cons]
    exact (hP _ _ h hl.1).append (ih hl.2)

/-- What the tokens of a program come to in the tree that they spell. -/
theorem Program.Spells.normal {p : Program} {ts : List Token} (h : p.Spells ts)
    (hl : ∀ t ∈ ts, t.Lexical) : Token.normal ts = p.forms := by
  obtain ⟨us,vs,rfl,hg,hf⟩ := h
  rw [List.forall_mem_append] at hl
  have hgs := hg.leave (fun _ _ => Global.Spells.leave) hl.1
  have hfs := hf.leave (fun _ _ => Function.Spells.leave) hl.2
  have hall := (hgs.append hfs) []
  rw [List.append_nil] at hall
  exact hall.trans (List.append_nil _)

end BlockScript
