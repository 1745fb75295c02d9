import BlockScript.Proofs.Syntax.Complete.Program
import BlockScript.Proofs.Syntax.Derivation.Denotes
import BlockScript.Proofs.Syntax.Derivation.Unique
/-! A program is read from a list of tokens if and only if the list has a derivation in which only
variables and elements are assigned to. The derivation is the only one, and what is read is the
program it denotes. -/
namespace BlockScript
open Grammar

namespace Grammar

lemma Global.spells (g : Global) (hs : ∀ t ∈ g.yield, t.Readable) : g.tree.Spells g.yield := by
  cases g with
  | list l x a o b es c s =>
    simp only [Global.yield,List.forall_mem_cons,List.forall_mem_append] at hs
    obtain ⟨_,_,_,_,_,hes,_⟩ := hs
    exact .list l.is x.isName a.spells o.is b.is (es.spells hes) c.is s.is
  | mutable l x a v s =>
    simp only [Global.yield,List.forall_mem_cons,List.forall_mem_append] at hs
    obtain ⟨_,_,_,hv,_⟩ := hs
    exact .mutable l.is x.isName a.spells (v.spells hv) s.is
  | immutable l x a o e s =>
    simp only [Global.yield,List.forall_mem_cons,List.forall_mem_append] at hs
    obtain ⟨_,_,_,_,he,_⟩ := hs
    exact .immutable l.is x.isName a.spells o.is (e.spells he) s.is

lemma Parameters.spells (ps : Parameters) :
    BlockScript.Function.Parameters ps.pairs ps.yield := by
  induction ps with
  | one x c y => exact .one x.isName c.is y.isName
  | cons x c y o ps ih => exact .cons x.isName c.is y.isName o.is ih

lemma Function.spells (f : Function) (hs : ∀ t ∈ f.yield, t.Readable) (ha : f.AssignsPlaces) :
    f.tree.Spells f.yield := by
  obtain ⟨f,x,o,ps,c,a,d,b,n⟩ := f
  simp only [Function.yield,List.forall_mem_cons,List.forall_mem_append] at hs
  obtain ⟨_,_,_,_,_,_,_,hb,_⟩ := hs
  have hps : (ps.elim [] Parameters.pairs = [] ∧ ps.elim [] Parameters.yield = []) ∨
      BlockScript.Function.Parameters (ps.elim [] Parameters.pairs)
        (ps.elim [] Parameters.yield) := by
    cases ps with
    | none => exact .inl ⟨rfl,rfl⟩
    | some ps => exact .inr ps.spells
  exact .mk f.is x.isName o.is hps c.is a.spells d.is (b.spells hb ha) n.is

lemma sequence_flatMap {α β : Type} {P : β → List Token → Prop} {tree : α → β}
    {yield : α → List Token} {as : List α} (h : ∀ a ∈ as, P (tree a) (yield a)) :
    Sequence P (as.map tree) (as.flatMap yield) := by
  induction as with
  | nil => exact .nil
  | cons a as ih =>
    rw [List.forall_mem_cons] at h
    exact .cons h.1 (ih h.2)

lemma Source.spells (d : Source) (hs : ∀ t ∈ d.yield, t.Readable) (ha : d.AssignsPlaces) :
    d.tree.Spells d.yield := by
  have hg : ∀ g ∈ d.globals, ∀ t ∈ g.yield, t.Readable := fun g hg t ht =>
    hs t (List.mem_append_left _ (List.mem_flatMap.mpr ⟨g,hg,ht⟩))
  have hf : ∀ f ∈ d.functions, ∀ t ∈ f.yield, t.Readable := fun f hf t ht =>
    hs t (List.mem_append_right _ (List.mem_flatMap.mpr ⟨f,hf,ht⟩))
  exact ⟨_,_,rfl,sequence_flatMap fun g h => g.spells (hg g h),
    sequence_flatMap fun f h => f.spells (hf f h) (ha f h)⟩

end Grammar

lemma Global.Spells.derivation {g : Global} {ts : List Token} (h : g.Spells ts)
    (hs : ∀ t ∈ ts, t.Readable) : ∃ d : Grammar.Global, d.yield = ts ∧ d.tree = g := by
  cases h with
  | list hl hx ha ho hb h hc hsemi =>
    simp only [List.forall_mem_cons,List.forall_mem_append] at hs
    obtain ⟨hsl,_,hsa,hso,hsb,hse,hsc,hss,_⟩ := hs
    obtain ⟨l,rfl⟩ := hsl.word hl (by decide)
    obtain ⟨x,rfl⟩ := Token.name_of_isName hx
    obtain ⟨a,rfl,rfl⟩ := ha.derivation hsa
    obtain ⟨o,rfl⟩ := hso.word ho (by decide)
    obtain ⟨b,rfl⟩ := hsb.word hb (by decide)
    obtain ⟨es,rfl,rfl⟩ := h.derivation hse
    obtain ⟨c,rfl⟩ := hsc.word hc (by decide)
    obtain ⟨s,rfl⟩ := hss.word hsemi (by decide)
    exact ⟨.list l x a o b es c s,rfl,rfl⟩
  | mutable hl hx ha hv hsemi =>
    simp only [List.forall_mem_cons,List.forall_mem_append] at hs
    obtain ⟨hsl,_,hsa,hsv,hss,_⟩ := hs
    obtain ⟨l,rfl⟩ := hsl.word hl (by decide)
    obtain ⟨x,rfl⟩ := Token.name_of_isName hx
    obtain ⟨a,rfl,rfl⟩ := ha.derivation hsa
    obtain ⟨v,rfl,rfl⟩ := hv.derivation hsv
    obtain ⟨s,rfl⟩ := hss.word hsemi (by decide)
    exact ⟨.mutable l x a v s,rfl,rfl⟩
  | immutable hl hx ha ho h hsemi =>
    simp only [List.forall_mem_cons,List.forall_mem_append] at hs
    obtain ⟨hsl,_,hsa,hso,hse,hss,_⟩ := hs
    obtain ⟨l,rfl⟩ := hsl.word hl (by decide)
    obtain ⟨x,rfl⟩ := Token.name_of_isName hx
    obtain ⟨a,rfl,rfl⟩ := ha.derivation hsa
    obtain ⟨o,rfl⟩ := hso.word ho (by decide)
    obtain ⟨e,rfl,rfl⟩ := h.derivation hse
    obtain ⟨s,rfl⟩ := hss.word hsemi (by decide)
    exact ⟨.immutable l x a o e s,rfl,rfl⟩

lemma Function.Parameters.derivation {ps : List (String × String)} {ts : List Token}
    (h : Function.Parameters ps ts) (hs : ∀ t ∈ ts, t.Readable) :
    ∃ d : Grammar.Parameters, d.yield = ts ∧ d.pairs = ps := by
  induction h with
  | one hx hc hy =>
    obtain ⟨x,rfl⟩ := Token.name_of_isName hx
    obtain ⟨c,rfl⟩ := (hs _ (by simp)).word hc (by decide)
    obtain ⟨y,rfl⟩ := Token.name_of_isName hy
    exact ⟨.one x c y,rfl,rfl⟩
  | cons hx hc hy ho _ ih =>
    simp only [List.forall_mem_cons] at hs
    obtain ⟨_,hsc,_,hso,hsp⟩ := hs
    obtain ⟨x,rfl⟩ := Token.name_of_isName hx
    obtain ⟨c,rfl⟩ := hsc.word hc (by decide)
    obtain ⟨y,rfl⟩ := Token.name_of_isName hy
    obtain ⟨o,rfl⟩ := hso.word ho (by decide)
    obtain ⟨ps,rfl,rfl⟩ := ih hsp
    exact ⟨.cons x c y o ps,rfl,rfl⟩

lemma Function.Spells.derivation {f : Function} {ts : List Token} (h : f.Spells ts)
    (hs : ∀ t ∈ ts, t.Readable) :
    ∃ d : Grammar.Function, d.yield = ts ∧ d.tree = f ∧ d.AssignsPlaces := by
  cases h with
  | @mk f x o ps ts c a us d b vs n hf hx ho hp hc ha hd hb hn =>
    simp only [List.forall_mem_cons,List.forall_mem_append] at hs
    obtain ⟨hsf,_,hso,hsp,hsc,hsa,hsd,hsb,hsn,_⟩ := hs
    obtain ⟨qs,rfl,rfl⟩ : ∃ qs : Option Grammar.Parameters,
        qs.elim [] Grammar.Parameters.yield = ts ∧
          qs.elim [] Grammar.Parameters.pairs = ps := by
      rcases hp with ⟨rfl,rfl⟩ | hp
      · exact ⟨none,rfl,rfl⟩
      · obtain ⟨d,rfl,rfl⟩ := hp.derivation hsp
        exact ⟨some d,rfl,rfl⟩
    obtain ⟨f,rfl⟩ := hsf.word hf (by decide)
    obtain ⟨x,rfl⟩ := Token.name_of_isName hx
    obtain ⟨o,rfl⟩ := hso.word ho (by decide)
    obtain ⟨c,rfl⟩ := hsc.word hc (by decide)
    obtain ⟨a,rfl,rfl⟩ := ha.derivation hsa
    obtain ⟨d,rfl⟩ := hsd.word hd (by decide)
    obtain ⟨b,rfl,rfl,hpb⟩ := hb.derivation hsb
    obtain ⟨n,rfl⟩ := hsn.word hn (by decide)
    exact ⟨.mk f x o qs c a d b n,rfl,rfl,hpb⟩

lemma Sequence.derivation {α β : Type} {P : β → List Token → Prop} {tree : α → β}
    {yield : α → List Token} {Q : α → Prop} {bs : List β} {ts : List Token} (h : Sequence P bs ts)
    (hs : ∀ t ∈ ts, t.Readable)
    (hone : ∀ b us, P b us → (∀ t ∈ us, t.Readable) → ∃ a, yield a = us ∧ tree a = b ∧ Q a) :
    ∃ as : List α, as.flatMap yield = ts ∧ as.map tree = bs ∧ ∀ a ∈ as, Q a := by
  induction h with
  | nil => exact ⟨[],rfl,rfl,by simp⟩
  | cons h _ ih =>
    rw [List.forall_mem_append] at hs
    obtain ⟨a,rfl,rfl,ha⟩ := hone _ _ h hs.1
    obtain ⟨as,rfl,rfl,has⟩ := ih hs.2
    exact ⟨a :: as,rfl,rfl,List.forall_mem_cons.mpr ⟨ha,has⟩⟩

lemma Program.Spells.derivation {p : Program} {ts : List Token} (h : p.Spells ts)
    (hs : ∀ t ∈ ts, t.Readable) : ∃ d : Source, d.yield = ts ∧ d.tree = p ∧ d.AssignsPlaces := by
  obtain ⟨gs,fs⟩ := p
  obtain ⟨us,vs,rfl,hg,hf⟩ := h
  rw [List.forall_mem_append] at hs
  obtain ⟨dg,rfl,rfl,_⟩ := hg.derivation (Q := fun _ => True) hs.1 fun _ _ h hs => by
    obtain ⟨d,rfl,rfl⟩ := h.derivation hs
    exact ⟨d,rfl,rfl,trivial⟩
  obtain ⟨df,rfl,rfl,ha⟩ := hf.derivation hs.2 fun _ _ h hs => h.derivation hs
  exact ⟨⟨dg,df⟩,rfl,rfl,ha⟩

namespace Token

/-- A readable token has the class that its text asks for. -/
lemma Readable.sane {t : Token} (h : t.Readable) : t.Sane := by
  rcases h with h | ⟨hk,ht⟩
  · exact h.lexical.sane
  · refine ⟨fun _ => hk,fun hw => ?_⟩
    have hall : ∀ w ∈ ["<=",">="], w ∉ keywords := by decide
    exact absurd hw (hall _ ht)

end Token

namespace Reader

/-- A program is read from readable tokens if and only if they have a derivation that assigns to
variables and elements only. No list of tokens has two derivations, and the program is the one that
the derivation denotes, read to the last token. -/
theorem program_accepts_grammar (ts : List Token) (hs : ∀ t ∈ ts, t.Readable) :
    ((∃ r, program.run ts = .ok r) ↔ ∃ d : Source, d.yield = ts ∧ d.AssignsPlaces) ∧
      (∀ d d' : Source, d.yield = ts → d'.yield = ts → d = d') ∧
      ∀ d : Source, d.yield = ts → d.AssignsPlaces → program.run ts = .ok (d.tree,[]) := by
  have hrun : ∀ d : Source, d.yield = ts → d.AssignsPlaces → program.run ts = .ok (d.tree,[]) := by
    rintro d rfl ha
    exact run_eq_ok.mpr (program_reads (d.spells hs ha) fun t ht => (hs t ht).sane)
  refine ⟨⟨?_,?_⟩,fun d d' hd hd' => Source.unique (hd.trans hd'.symm),hrun⟩
  · rintro ⟨⟨p,rest⟩,hr⟩
    obtain ⟨d,hd,_,ha⟩ := (program_ok (run_eq_ok.mp hr)).2.derivation hs
    exact ⟨d,hd,ha⟩
  · rintro ⟨d,hd,ha⟩
    exact ⟨_,hrun d hd ha⟩

/-- The tokens of `FUN f() DO x = x <= 1; END`, with the comparison as one token. -/
def comparisonTokens : List Token :=
  [⟨.identifier,"FUN",0⟩,⟨.identifier,"f",4⟩,⟨.operator,"(",5⟩,⟨.operator,")",6⟩,
    ⟨.identifier,"DO",8⟩,⟨.identifier,"x",11⟩,⟨.operator,"=",13⟩,⟨.identifier,"x",15⟩,
    ⟨.operator,"<=",17⟩,⟨.integer,"1",20⟩,⟨.operator,";",21⟩,⟨.identifier,"END",23⟩]

theorem program_accepts_grammar_comparison :
    (∀ t ∈ comparisonTokens, t.Readable) ∧
      ∃ d : Source, d.yield = comparisonTokens ∧ d.AssignsPlaces ∧
        program.run comparisonTokens = .ok (d.tree,[]) := by
  have hname : ∀ c, Lexer.isNameStart c = true → Lexeme .identifier [c] := fun c hc =>
    .identifier hc (by simp)
  have hnumber : Lexeme .integer ['1'] :=
    .number (.inl rfl) (.integer (.nonzero (by decide) (by decide) (by simp)))
  have hlexical : ∀ t ∈ comparisonTokens, t.text ≠ "<=" → t.Lexical := by
    simp only [comparisonTokens,List.forall_mem_cons]
    refine ⟨?_,?_,?_,?_,?_,?_,?_,?_,?_,?_,?_,?_,by simp⟩
    · intro _; exact .of_keyword (by decide)
    · intro _; exact hname 'f' rfl
    · intro _; exact .single (by decide)
    · intro _; exact .single (by decide)
    · intro _; exact .of_keyword (by decide)
    · intro _; exact hname 'x' rfl
    · intro _; exact .single (by decide)
    · intro _; exact hname 'x' rfl
    · intro h; exact absurd rfl h
    · intro _; exact hnumber
    · intro _; exact .single (by decide)
    · intro _; exact .of_keyword (by decide)
  have hs : ∀ t ∈ comparisonTokens, t.Readable := by
    intro t ht
    by_cases he : t.text = "<="
    · refine .inr ⟨?_,by simp [he]⟩
      revert t
      decide
    · exact .inl (hlexical t ht he).scannable
  obtain ⟨hiff,_,hrun⟩ := program_accepts_grammar comparisonTokens hs
  obtain ⟨d,hd,ha⟩ := hiff.mp ⟨_,rfl⟩
  exact ⟨hs,d,hd,ha,hrun d hd ha⟩

end Reader
end BlockScript
