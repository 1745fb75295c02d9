import BlockScript.Proofs.Number.Compare
import BlockScript.Proofs.Syntax.Recast
/-! Which texts are read to one tree, and which to equal ones: those whose tokens differ in what a tree
does not keep. -/
namespace BlockScript
open Lexer

/-! ### Where tokens stand -/

namespace Token

/-- A token that stands at the start of a text. -/
def unplaced (t : Token) : Token := { t with offset := 0 }

lemma recasts_unplaced : Recasts unplaced id where
  word h _ := h
  name h := ⟨h,rfl⟩
  operator h := h
  literal h := h

lemma map_unplaced {ts us : List Token} (h : ts.map form = us.map form) :
    ts.map unplaced = us.map unplaced := by
  have hform (ts : List Token) : ts.map unplaced = (ts.map form).map fun f => ⟨f.1,f.2,0⟩ := by
    rw [List.map_map]
    rfl
  rw [hform,hform,h]

end Token

/-- Tokens that differ in their places alone spell one tree. -/
lemma Program.Spells.unique {p q : Program} {ts us : List Token} (hp : p.Spells ts) (hq : q.Spells us)
    (hl : ∀ t ∈ ts, t.Lexical) (h : ts.map Token.form = us.map Token.form) : p = q := by
  have hs : ∀ t ∈ ts.map Token.unplaced, t.Sane := by
    intro t ht
    obtain ⟨u,hu,rfl⟩ := List.mem_map.mp ht
    exact ⟨(hl u hu).sane.bracket,(hl u hu).sane.keyword⟩
  have hp' := hp.recast Token.recasts_unplaced
  have hq' := hq.recast Token.recasts_unplaced
  rw [Program.mapLiterals_id] at hp' hq'
  have hread := Reader.program_reads hp' hs
  rw [Token.map_unplaced h] at hread hs
  have hboth := hread.symm.trans (Reader.program_reads hq' hs)
  cases hboth
  rfl

/-- Trees that can be written are told apart by what they are written with. -/
lemma Program.WellFormed.forms_inj {p q : Program} (hp : p.WellFormed) (hq : q.WellFormed)
    (h : p.forms = q.forms) : p = q := by
  obtain ⟨ts,hs,hpt,hf⟩ := Script.scan_render hp
  obtain ⟨us,_,hqu,hg⟩ := Script.scan_render hq
  exact hpt.unique hqu (tokensFrom_lexical hs) (hf.trans (h.trans hg.symm))

/-! ### Zeros at the end of decimals -/

/-- A decimal is made as short as it can be. -/
def Literal.short : Literal → Literal
  | decimal d => decimal d.short
  | v => v

lemma Literal.canonical_short : Canonical short := by
  intro v w
  cases v with
  | decimal a =>
    cases w with
    | decimal b => rw [equal,Decimal.equal_iff_short,short,short,decimal.injEq]
    | _ => simp [equal,short]
  | _ => cases w <;> simp [equal,short]

/-- A decimal is spelled without zeros at its end, but for the first digit after the point. -/
def Form.short : Form → Form
  | (.decimal,text) => (.decimal,((Literal.readDecimal? text.toList).map (·.short.render)).getD text)
  | f => f

lemma Literal.decimal_reads {d : Decimal} (h : 1 ≤ d.scale) : Lexeme .decimal d.render.toList ∧
    ∀ off, Token.literal? ⟨.decimal,d.render,off⟩ = some (decimal d) := by
  have hw : (decimal d).WellFormed := h
  obtain ⟨kind,hl,_,hv⟩ := hw.render_reads
  obtain ⟨rfl,_⟩ := Token.Lexical.spelling_eq (t := ⟨kind,d.render,0⟩) hl (hv 0)
  exact ⟨hl,hv⟩

namespace Token
variable {t : Token} {d : Decimal} {w : String}

def short (t : Token) : Token := ⟨t.form.short.1,t.form.short.2,0⟩

lemma form_short_of_ne {f : Form} (h : f.1 ≠ .decimal) : f.short = f := by
  obtain ⟨kind,text⟩ := f
  cases kind <;> first | rfl | exact absurd rfl h

lemma short_of_ne (h : t.kind ≠ .decimal) : t.short = t.unplaced := by
  have hf : t.form.short = t.form := form_short_of_ne h
  rw [short,hf]
  rfl

lemma short_of_decimal (h : t.literal? = some (.decimal d)) : t.short = ⟨.decimal,d.short.render,0⟩ := by
  obtain ⟨hk,hd⟩ := Literal.literal?_decimal h
  simp [short,form,hk,Form.short,hd]

lemma kind_ne_decimal {v : Literal} (h : t.literal? = some v) (hv : ∀ d, v ≠ .decimal d) :
    t.kind ≠ .decimal := by
  intro hk
  simp only [literal?,hk,Option.map_eq_some_iff] at h
  obtain ⟨d,_,hd⟩ := h
  exact hv d hd.symm

lemma recasts_short : Recasts short Literal.short where
  word {t w} h hw := by
    by_cases hk : t.kind = .decimal
    · have hnone : ∀ w ∈ keywords ++ marks, Literal.readDecimal? w.toList = none := by
        decide
      have ht : t.text = w := beq_iff_eq.mp h
      have hread := hnone w hw
      simp [is,short,form,hk,Form.short,ht,hread]
    · rw [short_of_ne hk]
      exact h
  name {t} h := by
    obtain ⟨hk,_⟩ := isName_spec h
    rw [short_of_ne (by rw [hk]; decide)]
    exact ⟨h,rfl⟩
  operator {t op} h := by
    obtain ⟨hk,_⟩ := operator?_spec h
    rw [short_of_ne (by rw [hk]; decide)]
    exact h
  literal {t v} h := by
    cases v with
    | decimal d =>
      rw [short_of_decimal h]
      exact (Literal.decimal_reads d.isShort_short.scale).2 0
    | _ =>
      rw [short_of_ne (kind_ne_decimal h fun d hd => by cases hd)]
      exact h

lemma Lexical.exists_decimal (hl : t.Lexical) (hk : t.kind = .decimal) :
    ∃ d, t.literal? = some (.decimal d) := by
  unfold Token.Lexical at hl
  rw [hk] at hl
  simp only [literal?,hk]
  generalize t.text.toList = cs at hl
  cases hl with
  | @number sign _ _ hs hu =>
    obtain ⟨b,rfl⟩ : ∃ b, sign = Literal.signText b := hs.elim (⟨false,·⟩) (⟨true,·⟩)
    cases hu with
    | decimal hw hfe hf =>
      obtain ⟨c,cs,hc,_⟩ := hw.head
      rw [Literal.readDecimal?_run b (by simp [hc]) hw.all hfe hf]
      exact ⟨_,rfl⟩

lemma Lexical.short (hl : t.Lexical) : t.short.Lexical := by
  by_cases hk : t.kind = .decimal
  · obtain ⟨d,hd⟩ := hl.exists_decimal hk
    rw [short_of_decimal hd]
    exact (Literal.decimal_reads d.isShort_short.scale).1
  · rw [short_of_ne hk]
    exact hl

lemma Lexical.spelled_short (hl : t.Lexical) : t.short.spelled = t.spelled.short := by
  by_cases hk : t.kind = .decimal
  · obtain ⟨d,hd⟩ := hl.exists_decimal hk
    have hscale : 1 ≤ d.scale := Literal.wellFormed_of_token hl hd
    have hs := (hl.spelling_eq hd).2
    have hs' := (hl.short.spelling_eq (recasts_short.literal hd)).2
    have hread := (Literal.literal?_decimal ((Literal.decimal_reads hscale).2 0)).2
    rw [spelled,spelled,hs',hs,hk,short_of_decimal hd]
    simp [Form.short,Literal.render,Literal.short,hread]
  · have hf : t.spelled.short = t.spelled := form_short_of_ne hk
    rw [hf,short_of_ne hk]
    rfl

/-- A decimal is no keyword, short or not. -/
lemma Lexical.is_short (hl : t.Lexical) (hw : w ∈ keywords) : t.short.is w = t.is w := by
  by_cases hk : t.kind = .decimal
  · have hne {u : Token} (hu : u.Lexical) (hk : u.kind = .decimal) : u.is w = false := by
      refine beq_eq_false_iff_ne.mpr fun ht => ?_
      have hi := hu.sane.keyword (ht ▸ hw)
      rw [hk] at hi
      cases hi
    obtain ⟨d,hd⟩ := hl.exists_decimal hk
    rw [hne hl hk,hne hl.short (by rw [short_of_decimal hd])]
  · rw [short_of_ne hk]
    rfl

/-- What tokens come to when decimals are made short. -/
lemma normal_short {ts : List Token} (hl : ∀ t ∈ ts, t.Lexical) :
    normal (ts.map short) = (normal ts).map Form.short := by
  unfold normal
  fun_induction dropEmptyElse ts with
  | case1 t u ts h ih =>
    obtain ⟨ht,hts⟩ := List.forall_mem_cons.mp hl
    have hu := hts u List.mem_cons_self
    rw [← ih hts,List.map_cons,List.map_cons,dropEmptyElse,ht.is_short (by decide),hu.is_short (by decide),
      if_pos h]
  | case2 t u ts h ih =>
    obtain ⟨ht,hts⟩ := List.forall_mem_cons.mp hl
    have hu := hts u List.mem_cons_self
    rw [List.map_cons,List.map_cons,dropEmptyElse,ht.is_short (by decide),hu.is_short (by decide),
      if_neg h,List.map_cons,ht.spelled_short]
    exact congrArg (t.spelled.short :: ·) (ih hts)
  | case3 ts hne =>
    cases ts with
    | nil => rfl
    | cons t ts =>
      cases ts with
      | nil => exact congrArg ([·]) (hl t List.mem_cons_self).spelled_short
      | cons u ts => exact absurd rfl (hne t u ts)

end Token

namespace Program.Spells
variable {p q : Program} {ts us : List Token}

/-- Trees are the same if their tokens come to the same. -/
lemma eq_iff (hp : p.Spells ts) (hq : q.Spells us) (hl : ∀ t ∈ ts, t.Lexical)
    (hm : ∀ t ∈ us, t.Lexical) : p = q ↔ Token.normal ts = Token.normal us := by
  rw [hp.normal hl,hq.normal hm]
  exact ⟨congrArg forms,(hp.wellFormed hl).forms_inj (hq.wellFormed hm)⟩

lemma recast_short (h : p.Spells ts) (hl : ∀ t ∈ ts, t.Lexical) :
    (p.mapLiterals Literal.short).Spells (ts.map Token.short) ∧ ∀ t ∈ ts.map Token.short, t.Lexical :=
  ⟨h.recast Token.recasts_short,List.forall_mem_map.mpr fun t ht => (hl t ht).short⟩

/-- They are equal if their tokens come to the same with short decimals. -/
lemma equal_iff (hp : p.Spells ts) (hq : q.Spells us) (hl : ∀ t ∈ ts, t.Lexical)
    (hm : ∀ t ∈ us, t.Lexical) : p.equal q = true ↔
      (Token.normal ts).map Form.short = (Token.normal us).map Form.short := by
  obtain ⟨hp',hl'⟩ := hp.recast_short hl
  obtain ⟨hq',hm'⟩ := hq.recast_short hm
  rw [Program.equal_iff Literal.canonical_short,hp'.eq_iff hq' hl' hm',Token.normal_short hl,
    Token.normal_short hm]

end Program.Spells

namespace Script
variable {source : String} {p : Program}

lemma exists_ok {ε α : Type} {r : Except ε α} (h : r.toOption.isSome = true) : ∃ a, r = .ok a := by
  cases r with
  | ok a => exact ⟨a,rfl⟩
  | error e => cases h

/-- The tokens that a text was read from. -/
lemma spells_of_read (h : read source = .ok p) :
    ∃ ts, Token.scan source = .ok ts ∧ p.Spells ts ∧ ∀ t ∈ ts, t.Lexical := by
  obtain ⟨ts,hs,hr⟩ := read_eq_ok_iff.mp h
  exact ⟨ts,hs,(Reader.program_ok hr).2,tokensFrom_lexical hs⟩

/-- The text of a tree has the tokens that it was read from, in their order, but for the `ELSE` of an
empty block and for the spelling of literals. So two texts are read to the same tree, scales of decimals
included, exactly if their tokens agree up to these; they are read to trees that are equal, with decimals
compared as numbers, exactly if their tokens agree up to zeros at the end of decimals too. -/
theorem render_keeps_tokens (h : read source = .ok p) : ∃ ts, Token.scan source = .ok ts ∧
    (∃ us, Token.scan p.render = .ok us ∧ us.map Token.form = Token.normal ts) ∧
    ∀ other q, read other = .ok q → ∃ us, Token.scan other = .ok us ∧
      (p = q ↔ Token.normal ts = Token.normal us) ∧
      (p.equal q = true ↔ (Token.normal ts).map Form.short = (Token.normal us).map Form.short) := by
  obtain ⟨ts,hs,hp,hl⟩ := spells_of_read h
  obtain ⟨vs,hvs,_,hf⟩ := scan_render (wellFormed_of_read h)
  refine ⟨ts,hs,⟨vs,hvs,hf.trans (hp.normal hl).symm⟩,fun other q hq => ?_⟩
  obtain ⟨us,hus,hq,hm⟩ := spells_of_read hq
  exact ⟨us,hus,hp.eq_iff hq hl hm,hp.equal_iff hq hl hm⟩

/-- A zero with a sign, an empty `ELSE` and a quote without a backslash. -/
def looseText : String :=
  "VAR x = -0; FUN f(): String DO IF x == 0 DO x = 2; ELSE END RETURN \"it's\"; END"

/-- The same program as it is written. -/
def tightText : String :=
  "VAR x = 0; FUN f(): String DO IF x == 0 DO x = 2; END RETURN \"it\\'s\"; END"

theorem render_keeps_tokens_loose : ∃ p ts us, read looseText = .ok p ∧ read tightText = .ok p ∧
    Token.scan looseText = .ok ts ∧ Token.scan tightText = .ok us ∧ us.length + 1 = ts.length ∧
    Token.normal ts = Token.normal us := by
  obtain ⟨p,hp⟩ : ∃ p, read looseText = .ok p := exists_ok (by decide +kernel)
  obtain ⟨q,hq⟩ : ∃ q, read tightText = .ok q := exists_ok (by decide +kernel)
  obtain ⟨ts,hts,_,hall⟩ := render_keeps_tokens hp
  obtain ⟨us,hus,hiff,_⟩ := hall tightText q hq
  have htest : (do
      let ts ← Token.scan looseText
      let us ← Token.scan tightText
      pure (us.length + 1 == ts.length && Token.normal ts == Token.normal us)).toOption = some true := by
    decide +kernel
  rw [hts,hus] at htest
  obtain ⟨hlength,hnormal⟩ := Bool.and_eq_true_iff.mp (Option.some.inj htest)
  obtain rfl := hiff.mpr (eq_of_beq hnormal)
  exact ⟨p,ts,us,hp,hq,hts,hus,eq_of_beq hlength,eq_of_beq hnormal⟩

/-- Equal trees from tokens that do not agree: decimals are compared as numbers. -/
theorem equal_of_other_tokens : ∃ p q ts us, read "VAR x = 1.0;" = .ok p ∧ read "VAR x = 1.00;" = .ok q ∧
    Token.scan "VAR x = 1.0;" = .ok ts ∧ Token.scan "VAR x = 1.00;" = .ok us ∧ p.equal q = true ∧
    Token.normal ts ≠ Token.normal us := by
  obtain ⟨p,hp⟩ : ∃ p, read "VAR x = 1.0;" = .ok p := exists_ok (by decide +kernel)
  obtain ⟨q,hq⟩ : ∃ q, read "VAR x = 1.00;" = .ok q := exists_ok (by decide +kernel)
  obtain ⟨ts,hts,hpt,hl⟩ := spells_of_read hp
  obtain ⟨us,hus,hqu,hm⟩ := spells_of_read hq
  have htest : (do
      let ts ← Token.scan "VAR x = 1.0;"
      let us ← Token.scan "VAR x = 1.00;"
      pure ((Token.normal ts).map Form.short == (Token.normal us).map Form.short &&
        Token.normal ts != Token.normal us)).toOption = some true := by
    decide +kernel
  rw [hts,hus] at htest
  obtain ⟨hshort,hne⟩ := Bool.and_eq_true_iff.mp (Option.some.inj htest)
  exact ⟨p,q,ts,us,hp,hq,hts,hus,(hpt.equal_iff hqu hl hm).mpr (eq_of_beq hshort),bne_iff_ne.mp hne⟩

end Script
end BlockScript
