import BlockScript.Proofs.Lexing.Literal
import BlockScript.Proofs.Syntax.Grammar
/-! The trees that source texts are read to. -/
namespace BlockScript
open Lexer

/-- A word that can name something. -/
structure IsName (x : String) : Prop where
  letters : ∃ c cs, x.toList = c :: cs ∧ isNameStart c = true ∧ ∀ d ∈ cs, isNameChar d = true
  free : x ∉ Token.keywords

/-- How loosely the outermost operator of an expression binds; zero without one. -/
def Expr.height : Expr → Nat
  | binary op _ _ _ => op.height
  | _ => 0

mutual
/-- An expression with empty slots that can be written inside of others. Operators nest to the left
without parentheses; some cannot be written. -/
def Expr.WellFormed : Expr → Prop
  | .literal v ty => v.WellFormed ∧ ty = none
  | .group e ty => e.WellFormed ∧ ty = none
  | .binary op l r ty => (op ≠ .lessEqual ∧ op ≠ .greaterEqual) ∧
    (l.height ≤ op.height ∧ r.height < op.height) ∧ l.WellFormed ∧ r.WellFormed ∧ ty = none
  | .ref x b ty => IsName x ∧ b = none ∧ ty = none
  | .element x i b ty => IsName x ∧ i.WellFormed ∧ b = none ∧ ty = none
  | .call f es s ty => IsName f ∧ Expr.AllWellFormed es ∧ s = none ∧ ty = none
  | .list _ _ => False

def Expr.AllWellFormed : List Expr → Prop
  | [] => True
  | e :: es => e.WellFormed ∧ Expr.AllWellFormed es
end

/-- The last case of a switch is its default, and no other is. -/
def Case.DefaultLast (cs : List Case) : Prop :=
  ∃ arms a, cs = arms ++ [.mk none a] ∧ ∀ c ∈ arms, c.value.isSome = true

mutual
def Stmt.WellFormed : Stmt → Prop
  | .expression e => e.WellFormed
  | .declaration x a v b =>
    IsName x ∧ (∀ t ∈ a, IsName t) ∧ (∀ e ∈ v, e.WellFormed) ∧ b = none
  | .assignment r e => r.receiver?.isSome = true ∧ r.WellFormed ∧ e.WellFormed
  | .ifElse c a b => c.WellFormed ∧ Stmt.BlockWellFormed a ∧ Stmt.BlockWellFormed b
  | .switch c cs => c.WellFormed ∧ Case.DefaultLast cs ∧ Case.AllWellFormed cs
  | .loop c a => c.WellFormed ∧ Stmt.BlockWellFormed a
  | .ret e => e.WellFormed

def Stmt.BlockWellFormed : List Stmt → Prop
  | [] => True
  | s :: ss => s.WellFormed ∧ Stmt.BlockWellFormed ss

def Case.WellFormed : Case → Prop
  | .mk v a => (∀ e ∈ v, e.WellFormed) ∧ Stmt.BlockWellFormed a

def Case.AllWellFormed : List Case → Prop
  | [] => True
  | c :: cs => c.WellFormed ∧ Case.AllWellFormed cs
end

/-- A list is the whole initial value of a mutable global. -/
def Global.InitialWellFormed (mutable : Bool) : Option Expr → Prop
  | none => mutable = true
  | some (.list es ty) => mutable = true ∧ Expr.AllWellFormed es ∧ ty = none
  | some e => e.WellFormed

structure Global.WellFormed (g : Global) : Prop where
  name : IsName g.name
  typeName : ∀ t ∈ g.typeName, IsName t
  value : Global.InitialWellFormed g.mutable g.value
  binding : g.binding = none

structure Function.WellFormed (f : Function) : Prop where
  name : IsName f.name
  arity : f.parameters.length = f.parameterTypeNames.length
  parameters : ∀ x ∈ f.parameters, IsName x
  parameterTypeNames : ∀ t ∈ f.parameterTypeNames, IsName t
  resultTypeName : ∀ t ∈ f.resultTypeName, IsName t
  body : Stmt.BlockWellFormed f.body
  signature : f.signature = none

structure Program.WellFormed (p : Program) : Prop where
  globals : ∀ g ∈ p.globals, g.WellFormed
  functions : ∀ f ∈ p.functions, f.WellFormed

/-! ### Trees from tokens -/

lemma Lexeme.operator_cases {text : List Char} (h : Lexeme .operator text) :
    (∃ c d, text = [c,d] ∧ operatorPair c = some d) ∨ ∃ c, text = [c] := by
  cases h with
  | number _ h => cases h
  | pair h => exact .inl ⟨_,_,rfl,h⟩
  | single => exact .inr ⟨_,rfl⟩

lemma Operator.symbol_of_ofSymbol? {s : String} {op : Operator} (h : ofSymbol? s = some op) :
    s = op.symbol := by
  unfold ofSymbol? at h
  split at h <;> cases h <;> rfl

namespace Token
variable {t : Token}

lemma isName_spec (h : t.isName = true) : t.kind = .identifier ∧ t.text ∉ keywords := by
  simpa [isName] using h

lemma Lexical.isName (hl : t.Lexical) (h : t.isName = true) : IsName t.text := by
  obtain ⟨hk,hw⟩ := isName_spec h
  refine ⟨?_,hw⟩
  unfold Lexical at hl
  rw [hk] at hl
  generalize t.text.toList = cs at hl
  cases hl with
  | identifier hc hs => exact ⟨_,_,rfl,hc,hs⟩
  | number _ h => cases h

lemma operator?_spec {op : Operator} (h : t.operator? = some op) :
    t.kind = .operator ∧ t.text = op.symbol := by
  unfold operator? at h
  split at h
  · next hk => exact ⟨by simpa using hk,Operator.symbol_of_ofSymbol? h⟩
  · cases h

/-- The operators with an equality sign after an order sign are cut into two tokens. -/
lemma Lexical.operator {op : Operator} (hl : t.Lexical) (h : t.operator? = some op) :
    op ≠ .lessEqual ∧ op ≠ .greaterEqual := by
  obtain ⟨hk,ht⟩ := operator?_spec h
  unfold Lexical at hl
  rw [hk,ht] at hl
  constructor <;> rintro rfl
  all_goals
    rcases hl.operator_cases with ⟨c,d,⟨⟩,hp⟩ | ⟨c,⟨⟩⟩
    cases hp

end Token

mutual
lemma Expr.Spells.wellFormed {k : Nat} {e : Expr} {ts : List Token} (h : e.Spells k ts)
    (hl : ∀ t ∈ ts, t.Lexical) : e.WellFormed ∧ e.height ≤ k := by
  match h with
  | .primary h =>
    obtain ⟨he,hk⟩ := h.wellFormed hl
    exact ⟨he,hk.le⟩
  | @Expr.Spells.chain k l e ts us hs h =>
    rw [List.forall_mem_append] at hl
    obtain ⟨hw,hk⟩ := hs.wellFormed hl.1
    exact h.wellFormed hl.2 hw (by omega)

lemma Expr.Tail.wellFormed {k : Nat} {l e : Expr} {ts : List Token} (h : Expr.Tail k l e ts)
    (hl : ∀ t ∈ ts, t.Lexical) (hw : l.WellFormed) (hk : l.height ≤ k + 1) :
    e.WellFormed ∧ e.height ≤ k + 1 := by
  match h with
  | .nil => exact ⟨hw,hk⟩
  | .cons ho hop hr h =>
    rw [List.forall_mem_cons,List.forall_mem_append] at hl
    obtain ⟨hrw,hrk⟩ := hr.wellFormed hl.2.1
    refine h.wellFormed hl.2.2 ⟨hl.1.operator ho,⟨?_,?_⟩,hw,hrw,rfl⟩ ?_
    · omega
    · omega
    · exact hop.le

lemma Expr.Primary.wellFormed {e : Expr} {ts : List Token} (h : Expr.Primary e ts)
    (hl : ∀ t ∈ ts, t.Lexical) : e.WellFormed ∧ e.height = 0 := by
  match h with
  | .literal h =>
    rw [List.forall_mem_singleton] at hl
    exact ⟨⟨Literal.wellFormed_of_token hl h,rfl⟩,rfl⟩
  | .group _ h _ =>
    simp only [List.forall_mem_cons,List.forall_mem_append] at hl
    exact ⟨⟨(h.wellFormed hl.2.1).1,rfl⟩,rfl⟩
  | .ref hx =>
    rw [List.forall_mem_singleton] at hl
    exact ⟨⟨hl.isName hx,rfl,rfl⟩,rfl⟩
  | .element hx _ h _ =>
    simp only [List.forall_mem_cons,List.forall_mem_append] at hl
    obtain ⟨hlx,_,hli,_⟩ := hl
    exact ⟨⟨hlx.isName hx,(h.wellFormed hli).1,rfl,rfl⟩,rfl⟩
  | .call hx _ h _ =>
    simp only [List.forall_mem_cons,List.forall_mem_append] at hl
    obtain ⟨hlx,_,hls,_⟩ := hl
    exact ⟨⟨hlx.isName hx,h.wellFormed hls,rfl,rfl⟩,rfl⟩

lemma Expr.Arguments.wellFormed {es : List Expr} {ts : List Token} (h : Expr.Arguments es ts)
    (hl : ∀ t ∈ ts, t.Lexical) : Expr.AllWellFormed es := by
  match h with
  | .nil => trivial
  | .items h => exact h.wellFormed hl

lemma Expr.Items.wellFormed {es : List Expr} {ts : List Token} (h : Expr.Items es ts)
    (hl : ∀ t ∈ ts, t.Lexical) : Expr.AllWellFormed es := by
  match h with
  | .one h => exact ⟨(h.wellFormed hl).1,trivial⟩
  | .cons h _ hs =>
    rw [List.forall_mem_append,List.forall_mem_cons] at hl
    exact ⟨(h.wellFormed hl.1).1,hs.wellFormed hl.2.2⟩
end

lemma TypeLabel.isName {a : Option String} {ts : List Token} (h : TypeLabel a ts)
    (hl : ∀ t ∈ ts, t.Lexical) : ∀ t ∈ a, IsName t := by
  cases h with
  | none => exact nofun
  | some _ hx =>
    simp only [List.forall_mem_cons] at hl
    intro _ hmem
    cases hmem
    exact hl.2.1.isName hx

lemma Initial.wellFormed {v : Option Expr} {ts : List Token} (h : Initial v ts)
    (hl : ∀ t ∈ ts, t.Lexical) : ∀ e ∈ v, e.WellFormed := by
  cases h with
  | none => exact nofun
  | some _ h =>
    rw [List.forall_mem_cons] at hl
    intro _ hmem
    cases hmem
    exact (h.wellFormed hl.2).1

lemma Case.Arms.defaultLast {cs : List Case} {ts : List Token} (h : Case.Arms cs ts) :
    Case.DefaultLast cs := by
  match h with
  | .default _ _ => exact ⟨[],_,rfl,nofun⟩
  | .value _ _ _ _ h =>
    obtain ⟨arms,a,rfl,hs⟩ := h.defaultLast
    exact ⟨_ :: arms,a,rfl,List.forall_mem_cons.mpr ⟨rfl,hs⟩⟩

mutual
lemma Stmt.Spells.wellFormed {s : Stmt} {ts : List Token} (h : s.Spells ts)
    (hl : ∀ t ∈ ts, t.Lexical) : s.WellFormed := by
  match h with
  | .expression h _ =>
    rw [List.forall_mem_append] at hl
    exact (h.wellFormed hl.1).1
  | .assignment hr hx _ h _ =>
    simp only [List.forall_mem_cons,List.forall_mem_append] at hl
    obtain ⟨hlr,_,hle,_⟩ := hl
    exact ⟨hx,(hr.wellFormed hlr).1,(h.wellFormed hle).1⟩
  | .declaration _ hx ha hv _ =>
    simp only [List.forall_mem_cons,List.forall_mem_append] at hl
    obtain ⟨_,hlx,hla,hlv,_⟩ := hl
    exact ⟨hlx.isName hx,ha.isName hla,hv.wellFormed hlv,rfl⟩
  | .ifOnly _ hc _ ha _ =>
    simp only [List.forall_mem_cons,List.forall_mem_append] at hl
    obtain ⟨_,hlc,_,hla,_⟩ := hl
    exact ⟨(hc.wellFormed hlc).1,ha.wellFormed hla,trivial⟩
  | .ifElse _ hc _ ha _ hb _ =>
    simp only [List.forall_mem_cons,List.forall_mem_append] at hl
    obtain ⟨_,hlc,_,hla,_,hlb,_⟩ := hl
    exact ⟨(hc.wellFormed hlc).1,ha.wellFormed hla,hb.wellFormed hlb⟩
  | .switch _ hc h _ =>
    simp only [List.forall_mem_cons,List.forall_mem_append] at hl
    obtain ⟨_,hlc,hls,_⟩ := hl
    exact ⟨(hc.wellFormed hlc).1,h.defaultLast,h.wellFormed hls⟩
  | .loop _ hc _ ha _ =>
    simp only [List.forall_mem_cons,List.forall_mem_append] at hl
    obtain ⟨_,hlc,_,hla,_⟩ := hl
    exact ⟨(hc.wellFormed hlc).1,ha.wellFormed hla⟩
  | .ret _ h _ =>
    simp only [List.forall_mem_cons,List.forall_mem_append] at hl
    exact (h.wellFormed hl.2.1).1

lemma Stmt.Block.wellFormed {ss : List Stmt} {ts : List Token} (h : Stmt.Block ss ts)
    (hl : ∀ t ∈ ts, t.Lexical) : Stmt.BlockWellFormed ss := by
  match h with
  | .nil => trivial
  | .cons h hs =>
    rw [List.forall_mem_append] at hl
    exact ⟨h.wellFormed hl.1,hs.wellFormed hl.2⟩

lemma Case.Arms.wellFormed {cs : List Case} {ts : List Token} (h : Case.Arms cs ts)
    (hl : ∀ t ∈ ts, t.Lexical) : Case.AllWellFormed cs := by
  match h with
  | .default _ h =>
    rw [List.forall_mem_cons] at hl
    exact ⟨⟨nofun,h.wellFormed hl.2⟩,trivial⟩
  | .value _ he _ ha h =>
    simp only [List.forall_mem_cons,List.forall_mem_append] at hl
    obtain ⟨_,hle,_,hla,hls⟩ := hl
    refine ⟨⟨?_,ha.wellFormed hla⟩,h.wellFormed hls⟩
    intro _ hmem
    cases hmem
    exact (he.wellFormed hle).1
end

lemma Global.initialWellFormed {b : Bool} {e : Expr} (h : e.WellFormed) :
    Global.InitialWellFormed b (some e) := by
  cases e with
  | list => exact h.elim
  | _ => exact h

lemma Global.Spells.wellFormed {g : Global} {ts : List Token} (h : g.Spells ts)
    (hl : ∀ t ∈ ts, t.Lexical) : g.WellFormed := by
  cases h with
  | list _ hx ha _ _ h =>
    simp only [List.forall_mem_cons,List.forall_mem_append] at hl
    obtain ⟨_,hlx,hla,_,_,hls,_⟩ := hl
    exact ⟨hlx.isName hx,ha.isName hla,⟨rfl,h.wellFormed hls,rfl⟩,rfl⟩
  | @mutable l x a ts v us s _ hx ha hv =>
    simp only [List.forall_mem_cons,List.forall_mem_append] at hl
    obtain ⟨_,hlx,hla,hlv,_⟩ := hl
    refine ⟨hlx.isName hx,ha.isName hla,?_,rfl⟩
    cases v with
    | none => rfl
    | some e => exact Global.initialWellFormed (hv.wellFormed hlv e rfl)
  | immutable _ hx ha _ h =>
    simp only [List.forall_mem_cons,List.forall_mem_append] at hl
    obtain ⟨_,hlx,hla,_,hlv,_⟩ := hl
    exact ⟨hlx.isName hx,ha.isName hla,Global.initialWellFormed (h.wellFormed hlv).1,rfl⟩

lemma Function.Parameters.isName {ps : List (String × String)} {ts : List Token}
    (h : Function.Parameters ps ts) (hl : ∀ t ∈ ts, t.Lexical) :
    ∀ p ∈ ps, IsName p.1 ∧ IsName p.2 := by
  induction h with
  | one hx _ ht =>
    simp only [List.forall_mem_cons] at hl
    rw [List.forall_mem_singleton]
    exact ⟨hl.1.isName hx,hl.2.2.1.isName ht⟩
  | cons hx _ ht _ _ ih =>
    simp only [List.forall_mem_cons] at hl
    obtain ⟨hlx,_,hlt,_,hls⟩ := hl
    rw [List.forall_mem_cons]
    exact ⟨⟨hlx.isName hx,hlt.isName ht⟩,ih hls⟩

lemma Function.Spells.wellFormed {f : Function} {ts : List Token} (h : f.Spells ts)
    (hl : ∀ t ∈ ts, t.Lexical) : f.WellFormed := by
  cases h with
  | @mk f x o ps ts c a us d b vs n _ hx _ hp _ ha _ hb _ =>
    simp only [List.forall_mem_cons,List.forall_mem_append] at hl
    obtain ⟨_,hlx,_,hlp,_,hla,_,hlb,_⟩ := hl
    have hnames : ∀ p ∈ ps, IsName p.1 ∧ IsName p.2 := by
      rcases hp with ⟨rfl,_⟩ | hp
      · exact nofun
      · exact hp.isName hlp
    refine ⟨hlx.isName hx,by simp,?_,?_,ha.isName hla,hb.wellFormed hlb,rfl⟩
    · intro y hy
      obtain ⟨p,hp,rfl⟩ := List.mem_map.mp hy
      exact (hnames p hp).1
    · intro t ht
      obtain ⟨p,hp,rfl⟩ := List.mem_map.mp ht
      exact (hnames p hp).2

end BlockScript
