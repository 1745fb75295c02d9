import BlockScript.Proofs.Syntax.Derivation.Tokens
/-! What a derivation denotes is what its tokens spell, and what is spelled has a derivation. -/
namespace BlockScript
open Grammar

namespace Grammar

/-! ### From derivations to spellings -/

mutual
theorem Level.spells {k : Nat} (e : Level k) (hs : ∀ t ∈ e.yield, t.Readable) :
    Expr.Spells k e.tree e.yield := by
  match e with
  | .primary p => exact .primary (p.spells hs)
  | .chain first rest =>
    simp only [Level.yield,List.forall_mem_append] at hs
    exact .chain (first.spells hs.1) (rest.spells _ hs.2)

theorem Rest.spells {k : Nat} (m : Rest k) (l : Expr) (hs : ∀ t ∈ m.yield, t.Readable) :
    Expr.Tail k l (m.tree l) m.yield := by
  match m with
  | .nil => exact .nil
  | .cons op next rest =>
    simp only [Rest.yield,List.forall_mem_cons,List.forall_mem_append] at hs
    exact .cons op.operator? op.operator_height (next.spells hs.2.1) (rest.spells _ hs.2.2)

theorem Primary.spells (p : Primary) (hs : ∀ t ∈ p.yield, t.Readable) :
    Expr.Primary p.tree p.yield := by
  match p with
  | .literal t =>
    exact .literal ((hs _ List.mem_cons_self).literal?_eq (List.mem_singleton.mp t.mem))
  | .group o e c =>
    simp only [Primary.yield,List.forall_mem_cons,List.forall_mem_append] at hs
    exact .group o.is (e.spells hs.2.1) c.is
  | .name x s => exact s.spells x fun t ht => hs t (List.mem_cons_of_mem _ ht)

theorem Suffix.spells (s : Suffix) (x : Name) (hs : ∀ t ∈ s.yield, t.Readable) :
    Expr.Primary (s.tree x.token.text) (x.token :: s.yield) := by
  match s with
  | .none => exact .ref x.isName
  | .call o es c =>
    simp only [Suffix.yield,List.forall_mem_cons,List.forall_mem_append] at hs
    exact .call x.isName o.is (es.spells hs.2.1) c.is
  | .element o e c =>
    simp only [Suffix.yield,List.forall_mem_cons,List.forall_mem_append] at hs
    exact .element x.isName o.is (e.spells hs.2.1) c.is

theorem Arguments.spells (es : Arguments) (hs : ∀ t ∈ es.yield, t.Readable) :
    Expr.Arguments es.trees es.yield := by
  match es with
  | .none => exact .nil
  | .some es => exact .items (es.spells hs)

theorem Items.spells (es : Items) (hs : ∀ t ∈ es.yield, t.Readable) :
    Expr.Items es.trees es.yield := by
  match es with
  | .one e => exact .one (e.spells hs)
  | .cons e c es =>
    simp only [Items.yield,List.forall_mem_cons,List.forall_mem_append] at hs
    exact .cons (e.spells hs.1) c.is (es.spells hs.2.2)
end

lemma Label.spells (a : Label) : TypeLabel a.name? a.yield := by
  cases a with
  | none => exact .none
  | some c x => exact .some c.is x.isName

lemma Initial.spells (v : Initial) (hs : ∀ t ∈ v.yield, t.Readable) :
    BlockScript.Initial v.tree? v.yield := by
  cases v with
  | none => exact .none
  | some o e => exact .some o.is (e.spells fun t ht => hs t (List.mem_cons_of_mem _ ht))

/-- Operators make an expression that nothing can be assigned to. -/
lemma Rest.receiver? {k : Nat} (m : Rest k) {l : Expr} (hl : l.receiver? = none) :
    (m.tree l).receiver? = none := by
  match m with
  | .nil => exact hl
  | .cons op next rest => exact rest.receiver? rfl

lemma Level.isPlace_eq {k : Nat} (e : Level k) : e.isPlace = e.tree.receiver?.isSome := by
  match e with
  | .primary (.literal _) | .primary (.group ..) | .primary (.name _ .none)
  | .primary (.name _ (.call ..)) | .primary (.name _ (.element ..)) => rfl
  | .chain first .nil => exact first.isPlace_eq
  | .chain first (.cons op next rest) =>
    have hr : (Level.chain first (.cons op next rest)).tree.receiver? = none := rest.receiver? rfl
    rw [hr]
    rfl

mutual
theorem Statement.spells (d : Statement) (hs : ∀ t ∈ d.yield, t.Readable) (ha : d.AssignsPlaces) :
    d.tree.Spells d.yield := by
  match d with
  | .declaration l x a v s =>
    simp only [Statement.yield,List.forall_mem_cons,List.forall_mem_append] at hs
    exact .declaration l.is x.isName a.spells (v.spells hs.2.2.2.1) s.is
  | .ifElse i c d b .none n =>
    simp only [Statement.yield,List.forall_mem_cons,List.forall_mem_append] at hs
    exact .ifOnly i.is (c.spells hs.2.1) d.is (b.spells hs.2.2.2.1 ha.1) n.is
  | .ifElse i c d b (.some l b') n =>
    simp only [Statement.yield,Else.yield,List.forall_mem_cons,List.forall_mem_append] at hs
    obtain ⟨_,hc,_,hb,⟨_,hb'⟩,_⟩ := hs
    exact .ifElse i.is (c.spells hc) d.is (b.spells hb ha.1) l.is (b'.spells hb' ha.2) n.is
  | .switch s c arms d b n =>
    simp only [Statement.yield,List.forall_mem_cons,List.forall_mem_append] at hs
    obtain ⟨_,hc,harms,_,hb,_⟩ := hs
    simpa [Statement.yield,Statement.tree] using
      Stmt.Spells.switch s.is (c.spells hc) (arms.spells harms ha.1 d (b.spells hb ha.2)) n.is
  | .loop w c d b n =>
    simp only [Statement.yield,List.forall_mem_cons,List.forall_mem_append] at hs
    exact .loop w.is (c.spells hs.2.1) d.is (b.spells hs.2.2.2.1 ha) n.is
  | .ret r e s =>
    simp only [Statement.yield,List.forall_mem_cons,List.forall_mem_append] at hs
    exact .ret r.is (e.spells hs.2.1) s.is
  | .expression e .none s =>
    simp only [Statement.yield,List.forall_mem_append] at hs
    exact .expression (e.spells hs.1) s.is
  | .expression e (.some o v) s =>
    simp only [Statement.yield,Initial.yield,List.forall_mem_cons,List.forall_mem_append] at hs
    exact .assignment (e.spells hs.1) (by rw [← e.isPlace_eq]; exact ha) o.is
      (v.spells hs.2.1.2) s.is

theorem Block.spells (b : Block) (hs : ∀ t ∈ b.yield, t.Readable) (ha : b.AssignsPlaces) :
    Stmt.Block b.trees b.yield := by
  match b with
  | .nil => exact .nil
  | .cons first rest =>
    simp only [Block.yield,List.forall_mem_append] at hs
    exact .cons (first.spells hs.1 ha.1) (rest.spells hs.2 ha.2)

theorem Arms.spells (arms : Arms) (hs : ∀ t ∈ arms.yield, t.Readable) (ha : arms.AssignsPlaces)
    (d : Word "DEFAULT") {b : List Stmt} {ts : List Token} (hb : Stmt.Block b ts) :
    Case.Arms (arms.trees ++ [.mk none b]) (arms.yield ++ d.token :: ts) := by
  match arms with
  | .nil => exact .default d.is hb
  | .cons c e o b' rest =>
    simp only [Arms.yield,List.forall_mem_cons,List.forall_mem_append] at hs
    obtain ⟨_,he,_,hb',hrest⟩ := hs
    simpa [Arms.yield,Arms.trees] using
      Case.Arms.value c.is (e.spells he) o.is (b'.spells hb' ha.1) (rest.spells hrest ha.2 d hb)
end

/-! ### From spellings to derivations -/

end Grammar

mutual
theorem Expr.Spells.derivation {k : Nat} {e : Expr} {ts : List Token} (h : Expr.Spells k e ts)
    (hs : ∀ t ∈ ts, t.Readable) : ∃ d : Level k, d.yield = ts ∧ d.tree = e := by
  match h with
  | .primary h =>
    obtain ⟨p,rfl,rfl⟩ := h.derivation hs
    exact ⟨.primary p,rfl,rfl⟩
  | .chain hl h =>
    rw [List.forall_mem_append] at hs
    -- taken before the left operand is replaced by the tree of its derivation
    have hrest := h.derivation hs.2
    obtain ⟨first,rfl,rfl⟩ := hl.derivation hs.1
    obtain ⟨rest,rfl,rfl⟩ := hrest
    exact ⟨.chain first rest,rfl,rfl⟩

theorem Expr.Tail.derivation {k : Nat} {l e : Expr} {ts : List Token} (h : Expr.Tail k l e ts)
    (hs : ∀ t ∈ ts, t.Readable) : ∃ m : Rest k, m.yield = ts ∧ m.tree l = e := by
  match h with
  | .nil => exact ⟨.nil,rfl,rfl⟩
  | .cons ho hk hr h =>
    rw [List.forall_mem_cons,List.forall_mem_append] at hs
    have hrest := h.derivation hs.2.2
    obtain ⟨op,rfl,rfl⟩ := Token.operator_of_operator? ho hk
    obtain ⟨next,rfl,rfl⟩ := hr.derivation hs.2.1
    obtain ⟨rest,rfl,rfl⟩ := hrest
    exact ⟨.cons op next rest,rfl,rfl⟩

theorem Expr.Primary.derivation {e : Expr} {ts : List Token} (h : Expr.Primary e ts)
    (hs : ∀ t ∈ ts, t.Readable) : ∃ p : Grammar.Primary, p.yield = ts ∧ p.tree = e := by
  match h with
  | .literal h =>
    obtain ⟨l,rfl⟩ := Token.literal_of_literal? h
    refine ⟨.literal l,rfl,?_⟩
    rw [Primary.tree,Token.value,h,Option.getD_some]
  | .group ho h hc =>
    simp only [List.forall_mem_cons,List.forall_mem_append] at hs
    obtain ⟨o,rfl⟩ := hs.1.word ho (by decide)
    obtain ⟨c,rfl⟩ := hs.2.2.1.word hc (by decide)
    obtain ⟨e,rfl,rfl⟩ := h.derivation hs.2.1
    exact ⟨.group o e c,rfl,rfl⟩
  | .ref hx =>
    obtain ⟨x,rfl⟩ := Token.name_of_isName hx
    exact ⟨.name x .none,rfl,rfl⟩
  | .element hx ho h hc =>
    simp only [List.forall_mem_cons,List.forall_mem_append] at hs
    obtain ⟨x,rfl⟩ := Token.name_of_isName hx
    obtain ⟨o,rfl⟩ := hs.2.1.word ho (by decide)
    obtain ⟨c,rfl⟩ := hs.2.2.2.1.word hc (by decide)
    obtain ⟨e,rfl,rfl⟩ := h.derivation hs.2.2.1
    exact ⟨.name x (.element o e c),rfl,rfl⟩
  | .call hx ho h hc =>
    simp only [List.forall_mem_cons,List.forall_mem_append] at hs
    obtain ⟨x,rfl⟩ := Token.name_of_isName hx
    obtain ⟨o,rfl⟩ := hs.2.1.word ho (by decide)
    obtain ⟨c,rfl⟩ := hs.2.2.2.1.word hc (by decide)
    obtain ⟨es,rfl,rfl⟩ := h.derivation hs.2.2.1
    exact ⟨.name x (.call o es c),rfl,rfl⟩

theorem Expr.Arguments.derivation {es : List Expr} {ts : List Token} (h : Expr.Arguments es ts)
    (hs : ∀ t ∈ ts, t.Readable) : ∃ d : Grammar.Arguments, d.yield = ts ∧ d.trees = es := by
  match h with
  | .nil => exact ⟨.none,rfl,rfl⟩
  | .items h =>
    obtain ⟨d,rfl,rfl⟩ := h.derivation hs
    exact ⟨.some d,rfl,rfl⟩

theorem Expr.Items.derivation {es : List Expr} {ts : List Token} (h : Expr.Items es ts)
    (hs : ∀ t ∈ ts, t.Readable) : ∃ d : Grammar.Items, d.yield = ts ∧ d.trees = es := by
  match h with
  | .one h =>
    obtain ⟨e,rfl,rfl⟩ := h.derivation hs
    exact ⟨.one e,rfl,rfl⟩
  | .cons h hc hes =>
    simp only [List.forall_mem_cons,List.forall_mem_append] at hs
    obtain ⟨e,rfl,rfl⟩ := h.derivation hs.1
    obtain ⟨c,rfl⟩ := hs.2.1.word hc (by decide)
    obtain ⟨es,rfl,rfl⟩ := hes.derivation hs.2.2
    exact ⟨.cons e c es,rfl,rfl⟩
end

lemma TypeLabel.derivation {a : Option String} {ts : List Token} (h : TypeLabel a ts)
    (hs : ∀ t ∈ ts, t.Readable) : ∃ d : Label, d.yield = ts ∧ d.name? = a := by
  cases h with
  | none => exact ⟨.none,rfl,rfl⟩
  | some hc hx =>
    obtain ⟨c,rfl⟩ := (hs _ List.mem_cons_self).word hc (by decide)
    obtain ⟨x,rfl⟩ := Token.name_of_isName hx
    exact ⟨.some c x,rfl,rfl⟩

lemma Initial.derivation {v : Option Expr} {ts : List Token} (h : Initial v ts)
    (hs : ∀ t ∈ ts, t.Readable) : ∃ d : Grammar.Initial, d.yield = ts ∧ d.tree? = v := by
  cases h with
  | none => exact ⟨.none,rfl,rfl⟩
  | some ho h =>
    rw [List.forall_mem_cons] at hs
    obtain ⟨o,rfl⟩ := hs.1.word ho (by decide)
    obtain ⟨e,rfl,rfl⟩ := h.derivation hs.2
    exact ⟨.some o e,rfl,rfl⟩

mutual
theorem Stmt.Spells.derivation {s : Stmt} {ts : List Token} (h : s.Spells ts)
    (hs : ∀ t ∈ ts, t.Readable) : ∃ d : Statement, d.yield = ts ∧ d.tree = s ∧ d.AssignsPlaces := by
  match h with
  | .expression h hsemi =>
    simp only [List.forall_mem_cons,List.forall_mem_append] at hs
    obtain ⟨e,rfl,rfl⟩ := h.derivation hs.1
    obtain ⟨s,rfl⟩ := hs.2.1.word hsemi (by decide)
    exact ⟨.expression e .none s,rfl,rfl,trivial⟩
  | .assignment hr hx ho h hsemi =>
    simp only [List.forall_mem_cons,List.forall_mem_append] at hs
    obtain ⟨e,rfl,rfl⟩ := hr.derivation hs.1
    obtain ⟨o,rfl⟩ := hs.2.1.word ho (by decide)
    obtain ⟨v,rfl,rfl⟩ := h.derivation hs.2.2.1
    obtain ⟨s,rfl⟩ := hs.2.2.2.1.word hsemi (by decide)
    exact ⟨.expression e (.some o v) s,rfl,rfl,by rw [← e.isPlace_eq] at hx; exact hx⟩
  | .declaration hl hx ha hv hsemi =>
    simp only [List.forall_mem_cons,List.forall_mem_append] at hs
    obtain ⟨hsl,_,hsa,hsv,hss,_⟩ := hs
    obtain ⟨l,rfl⟩ := hsl.word hl (by decide)
    obtain ⟨x,rfl⟩ := Token.name_of_isName hx
    obtain ⟨a,rfl,rfl⟩ := ha.derivation hsa
    obtain ⟨v,rfl,rfl⟩ := hv.derivation hsv
    obtain ⟨s,rfl⟩ := hss.word hsemi (by decide)
    exact ⟨.declaration l x a v s,rfl,rfl,trivial⟩
  | .ifOnly hi hc hd ha hn =>
    simp only [List.forall_mem_cons,List.forall_mem_append] at hs
    obtain ⟨hsi,hsc,hsd,hsa,hsn,_⟩ := hs
    obtain ⟨i,rfl⟩ := hsi.word hi (by decide)
    obtain ⟨c,rfl,rfl⟩ := hc.derivation hsc
    obtain ⟨d,rfl⟩ := hsd.word hd (by decide)
    obtain ⟨b,rfl,rfl,hb⟩ := ha.derivation hsa
    obtain ⟨n,rfl⟩ := hsn.word hn (by decide)
    exact ⟨.ifElse i c d b .none n,rfl,rfl,hb,trivial⟩
  | .ifElse hi hc hd ha hl hb hn =>
    simp only [List.forall_mem_cons,List.forall_mem_append] at hs
    obtain ⟨hsi,hsc,hsd,hsa,hsl,hsb,hsn,_⟩ := hs
    obtain ⟨i,rfl⟩ := hsi.word hi (by decide)
    obtain ⟨c,rfl,rfl⟩ := hc.derivation hsc
    obtain ⟨d,rfl⟩ := hsd.word hd (by decide)
    obtain ⟨b,rfl,rfl,hpb⟩ := ha.derivation hsa
    obtain ⟨l,rfl⟩ := hsl.word hl (by decide)
    obtain ⟨b',rfl,rfl,hpb'⟩ := hb.derivation hsb
    obtain ⟨n,rfl⟩ := hsn.word hn (by decide)
    exact ⟨.ifElse i c d b (.some l b') n,rfl,rfl,hpb,hpb'⟩
  | .switch hw hc h hn =>
    simp only [List.forall_mem_cons,List.forall_mem_append] at hs
    obtain ⟨hsw,hsc,hsa,hsn,_⟩ := hs
    obtain ⟨w,rfl⟩ := hsw.word hw (by decide)
    obtain ⟨c,rfl,rfl⟩ := hc.derivation hsc
    obtain ⟨arms,d,b,rfl,rfl,harms,hb⟩ := h.derivation hsa
    obtain ⟨n,rfl⟩ := hsn.word hn (by decide)
    exact ⟨.switch w c arms d b n,by simp [Statement.yield],rfl,harms,hb⟩
  | .loop hw hc hd ha hn =>
    simp only [List.forall_mem_cons,List.forall_mem_append] at hs
    obtain ⟨hsw,hsc,hsd,hsa,hsn,_⟩ := hs
    obtain ⟨w,rfl⟩ := hsw.word hw (by decide)
    obtain ⟨c,rfl,rfl⟩ := hc.derivation hsc
    obtain ⟨d,rfl⟩ := hsd.word hd (by decide)
    obtain ⟨b,rfl,rfl,hb⟩ := ha.derivation hsa
    obtain ⟨n,rfl⟩ := hsn.word hn (by decide)
    exact ⟨.loop w c d b n,rfl,rfl,hb⟩
  | .ret hr h hsemi =>
    simp only [List.forall_mem_cons,List.forall_mem_append] at hs
    obtain ⟨r,rfl⟩ := hs.1.word hr (by decide)
    obtain ⟨e,rfl,rfl⟩ := h.derivation hs.2.1
    obtain ⟨s,rfl⟩ := hs.2.2.1.word hsemi (by decide)
    exact ⟨.ret r e s,rfl,rfl,trivial⟩

theorem Stmt.Block.derivation {ss : List Stmt} {ts : List Token} (h : Stmt.Block ss ts)
    (hs : ∀ t ∈ ts, t.Readable) :
    ∃ d : Grammar.Block, d.yield = ts ∧ d.trees = ss ∧ d.AssignsPlaces := by
  match h with
  | .nil => exact ⟨.nil,rfl,rfl,trivial⟩
  | .cons h h' =>
    rw [List.forall_mem_append] at hs
    obtain ⟨first,rfl,rfl,hf⟩ := h.derivation hs.1
    obtain ⟨rest,rfl,rfl,hr⟩ := h'.derivation hs.2
    exact ⟨.cons first rest,rfl,rfl,hf,hr⟩

theorem Case.Arms.derivation {cs : List Case} {ts : List Token} (h : Case.Arms cs ts)
    (hs : ∀ t ∈ ts, t.Readable) :
    ∃ (arms : Grammar.Arms) (d : Word "DEFAULT") (b : Grammar.Block),
      arms.yield ++ d.token :: b.yield = ts ∧ arms.trees ++ [.mk none b.trees] = cs ∧
        arms.AssignsPlaces ∧ b.AssignsPlaces := by
  match h with
  | .default hd h =>
    rw [List.forall_mem_cons] at hs
    obtain ⟨d,rfl⟩ := hs.1.word hd (by decide)
    obtain ⟨b,rfl,rfl,hb⟩ := h.derivation hs.2
    exact ⟨.nil,d,b,rfl,rfl,trivial,hb⟩
  | .value hc he ho ha h =>
    simp only [List.forall_mem_cons,List.forall_mem_append] at hs
    obtain ⟨hsc,hse,hso,hsa,hsh⟩ := hs
    obtain ⟨c,rfl⟩ := hsc.word hc (by decide)
    obtain ⟨e,rfl,rfl⟩ := he.derivation hse
    obtain ⟨o,rfl⟩ := hso.word ho (by decide)
    obtain ⟨a,rfl,rfl,hpa⟩ := ha.derivation hsa
    obtain ⟨arms,d,b,rfl,rfl,harms,hb⟩ := h.derivation hsh
    exact ⟨.cons c e o a arms,d,b,by simp [Arms.yield],rfl,⟨hpa,harms⟩,hb⟩
end

end BlockScript
