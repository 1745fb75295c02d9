import BlockScript.Proofs.Syntax.Complete.Expression
/-! Every statement, global, function and program is read from the tokens that spell it. -/
namespace BlockScript

open Reader

namespace Reader

lemma typeName?_reads {a : Option String} {ts rest : List Token} (h : TypeLabel a ts)
    (hr : Avoids ":" rest) : typeName? (ts ++ rest) = .ok a rest := by
  cases h with
  | none =>
    unfold typeName?
    rw [List.nil_append,bind_ok (accept_false hr)]
    rfl
  | some hc hx =>
    unfold typeName?
    change (accept ":" >>= _) (_ :: _ :: rest) = _
    rw [bind_ok (accept_true hc)]
    change (expectName _ >>= _) _ = _
    rw [bind_ok (expectName_ok hx)]
    rfl

lemma initial?_reads {v : Option Expr} {ts rest : List Token} (h : Initial v ts)
    (hs : ∀ t ∈ ts, t.Sane) (he : Ends 4 rest) (hr : Avoids "=" rest) :
    initial? (ts ++ rest) = .ok v rest := by
  cases h with
  | none =>
    unfold initial?
    rw [List.nil_append,bind_ok (accept_false hr)]
    rfl
  | some ho h =>
    unfold initial?
    rw [List.cons_append,bind_ok (accept_true ho)]
    change (expression >>= _) _ = _
    rw [bind_ok (expression_reads h (fun t ht => hs t (List.mem_cons_of_mem _ ht)) he)]
    rfl

lemma statementRule_let {statement : Reader Stmt} {l : Token} {ts : List Token}
    (hl : l.is "LET" = true) : statementRule statement (l :: ts) = declaration ts := by
  unfold statementRule
  rw [bind_ok (accept_true hl)]
  rfl

lemma statementRule_if {statement : Reader Stmt} {i : Token} {ts : List Token}
    (hi : i.is "IF" = true) :
    statementRule statement (i :: ts) = ifElse (blockOf statement) ts := by
  unfold statementRule
  rw [bind_ok (accept_false (.of_is hi (by decide)))]
  change (accept "IF" >>= _) _ = _
  rw [bind_ok (accept_true hi)]
  rfl

lemma statementRule_switch {statement : Reader Stmt} {s : Token} {ts : List Token}
    (hs : s.is "SWITCH" = true) :
    statementRule statement (s :: ts) = switch (blockOf statement) ts := by
  unfold statementRule
  rw [bind_ok (accept_false (.of_is hs (by decide)))]
  change (accept "IF" >>= _) _ = _
  rw [bind_ok (accept_false (.of_is hs (by decide)))]
  change (accept "SWITCH" >>= _) _ = _
  rw [bind_ok (accept_true hs)]
  rfl

lemma statementRule_while {statement : Reader Stmt} {w : Token} {ts : List Token}
    (hw : w.is "WHILE" = true) :
    statementRule statement (w :: ts) = loop (blockOf statement) ts := by
  unfold statementRule
  rw [bind_ok (accept_false (.of_is hw (by decide)))]
  change (accept "IF" >>= _) _ = _
  rw [bind_ok (accept_false (.of_is hw (by decide)))]
  change (accept "SWITCH" >>= _) _ = _
  rw [bind_ok (accept_false (.of_is hw (by decide)))]
  change (accept "WHILE" >>= _) _ = _
  rw [bind_ok (accept_true hw)]
  rfl

/-- The words that a statement other than an expression or an assignment starts with. -/
def statementWords : List String := ["LET","IF","SWITCH","WHILE","RETURN"]

lemma statementRule_return {statement : Reader Stmt} {r : Token} {ts : List Token}
    (hr : r.is "RETURN" = true) : statementRule statement (r :: ts) = (do
      let value ← expression
      expect ";" .expectedSemicolon
      return .ret value : Reader Stmt) ts := by
  unfold statementRule
  rw [bind_ok (accept_false (.of_is hr (by decide)))]
  change (accept "IF" >>= _) _ = _
  rw [bind_ok (accept_false (.of_is hr (by decide)))]
  change (accept "SWITCH" >>= _) _ = _
  rw [bind_ok (accept_false (.of_is hr (by decide)))]
  change (accept "WHILE" >>= _) _ = _
  rw [bind_ok (accept_false (.of_is hr (by decide)))]
  change (accept "RETURN" >>= _) _ = _
  rw [bind_ok (accept_true hr)]
  rfl

lemma statementRule_other {statement : Reader Stmt} {ts : List Token}
    (h : ∀ text ∈ statementWords, Avoids text ts) :
    statementRule statement ts = expressionOrAssignment ts := by
  unfold statementRule
  rw [bind_ok (accept_false (h "LET" (by decide)))]
  change (accept "IF" >>= _) _ = _
  rw [bind_ok (accept_false (h "IF" (by decide)))]
  change (accept "SWITCH" >>= _) _ = _
  rw [bind_ok (accept_false (h "SWITCH" (by decide)))]
  change (accept "WHILE" >>= _) _ = _
  rw [bind_ok (accept_false (h "WHILE" (by decide)))]
  change (accept "RETURN" >>= _) _ = _
  rw [bind_ok (accept_false (h "RETURN" (by decide)))]
  rfl

/-- The next token, if there is one, ends a block. -/
def ClosesBlock (ts : List Token) : Prop := ∀ t ∈ ts.head?, t.text ∈ blockEnds

instance {ts : List Token} : Decidable (ClosesBlock ts) :=
  inferInstanceAs (Decidable (∀ t ∈ ts.head?, t.text ∈ blockEnds))

lemma closesBlock_cons {t : Token} {ts : List Token} : ClosesBlock (t :: ts) ↔ t.text ∈ blockEnds := by
  simp [ClosesBlock]

lemma ClosesBlock.of_is {t : Token} {text : String} {ts : List Token} (h : t.is text = true)
    (hmem : text ∈ blockEnds) : ClosesBlock (t :: ts) := by
  intro _ ht
  cases ht
  simp only [Token.is,beq_iff_eq] at h
  rwa [h]

/-- An expression starts with no word of a statement and with none that ends a block. -/
lemma Starts.ne_word {t : Token} {text : String} (h : Starts t)
    (hw : text ∈ statementWords ++ blockEnds) : t.text ≠ text := by
  have hall : ∀ w ∈ statementWords ++ blockEnds,
      w ∈ Token.keywords ∧ w ∉ ["NIL","TRUE","FALSE"] := by decide
  rintro rfl
  obtain ⟨hk,hn⟩ := hall _ hw
  exact hn (h.keyword hk)

lemma Starts.avoids {t : Token} {ts : List Token} (h : Starts t) :
    ∀ text ∈ statementWords, Avoids text (t :: ts) := by
  intro text hw _ ht
  cases ht
  simp only [Token.is,beq_eq_false_iff_ne]
  exact h.ne_word (List.mem_append_left _ hw)

lemma statements_nil {statement : Reader Stmt} {ahead rest : List Token} (hr : ClosesBlock rest) :
    statements statement ahead rest = .ok [] rest := by
  cases ahead with
  | nil => rfl
  | cons _ ahead =>
    cases rest with
    | nil => rfl
    | cons t rest =>
      change (if blockEnds.contains t.text = true then return []
        else (do return (← statement) :: (← statements statement ahead)) : Reader (List Stmt)) _ = _
      rw [if_pos (List.contains_iff_mem.mpr (hr t rfl))]
      rfl

lemma statements_step {statement : Reader Stmt} {t a : Token} {ahead ts : List Token}
    (ht : t.text ∉ blockEnds) : statements statement (a :: ahead) (t :: ts) =
      (do return (← statement) :: (← statements statement ahead) : Reader (List Stmt)) (t :: ts) := by
  change (if blockEnds.contains t.text = true then return []
    else (do return (← statement) :: (← statements statement ahead)) : Reader (List Stmt)) _ = _
  rw [if_neg (fun hc => ht (List.contains_iff_mem.mp hc))]

lemma statements_cons {statement : Reader Stmt} {t a : Token} {ahead ts mid rest : List Token}
    {s : Stmt} {ss : List Stmt} (ht : t.text ∉ blockEnds)
    (hs : statement (t :: ts) = .ok s mid) (hss : statements statement ahead mid = .ok ss rest) :
    statements statement (a :: ahead) (t :: ts) = .ok (s :: ss) rest := by
  rw [statements_step ht,bind_ok hs,bind_ok hss]
  rfl

lemma declaration_reads {x s : Token} {a : Option String} {ts us rest : List Token}
    {v : Option Expr} (hx : x.isName = true) (ha : TypeLabel a ts) (hv : Initial v us)
    (hsane : ∀ t ∈ us, t.Sane) (hs : s.is ";" = true) :
    declaration (x :: (ts ++ (us ++ s :: rest))) = .ok (.declaration x.text a v none) rest := by
  have hcolon : Avoids ":" (us ++ s :: rest) := by
    cases hv with
    | none => exact .of_is hs (by decide)
    | some ho h => exact .of_is ho (by decide)
  unfold declaration
  rw [bind_ok (expectName_ok hx),bind_ok (typeName?_reads ha hcolon),
    bind_ok (initial?_reads hv hsane (.of_is hs rfl (by decide) (by decide)) (.of_is hs (by decide))),
    bind_ok (expect_ok hs)]
  rfl

lemma expression_statement_reads {e : Expr} {ts rest : List Token} {s : Token}
    (h : e.Spells 4 ts) (hsane : ∀ t ∈ ts, t.Sane) (hs : s.is ";" = true) :
    expressionOrAssignment (ts ++ s :: rest) = .ok (.expression e) rest := by
  have hpeek : peek (ts ++ s :: rest) = .ok (ts ++ s :: rest).head? (ts ++ s :: rest) := rfl
  have hother : s.is "=" = false := by
    simp only [Token.is,beq_iff_eq,beq_eq_false_iff_ne] at hs ⊢
    rw [hs]
    decide
  unfold expressionOrAssignment
  rw [bind_ok hpeek,
    bind_ok (expression_reads h hsane (.of_is hs rfl (by decide) (by decide))),
    bind_ok (at?_eq "=" s rest),hother]
  change (expect ";" _ >>= _) _ = _
  rw [bind_ok (expect_ok hs)]
  rfl

lemma assignment_reads {r e : Expr} {ts us rest : List Token} {o s : Token}
    (hr : r.Spells 4 ts) (hsr : ∀ t ∈ ts, t.Sane) (hx : r.receiver?.isSome = true)
    (ho : o.is "=" = true) (h : e.Spells 4 us) (hse : ∀ t ∈ us, t.Sane) (hs : s.is ";" = true) :
    expressionOrAssignment (ts ++ o :: (us ++ s :: rest)) = .ok (.assignment r e) rest := by
  have hpeek : ∀ ts, peek ts = .ok ts.head? ts := fun _ => rfl
  have hnone : r.receiver?.isNone = false := by
    cases hr : r.receiver? with
    | none => rw [hr] at hx; cases hx
    | some x => rfl
  unfold expressionOrAssignment
  rw [bind_ok (hpeek _),
    bind_ok (expression_reads hr hsr (.of_is ho rfl (by decide) (by decide))),
    bind_ok (at?_eq "=" o _),ho,hnone]
  change (expression >>= _) (us ++ s :: rest) = _
  rw [bind_ok (expression_reads h hse (.of_is hs rfl (by decide) (by decide))),
    bind_ok (expect_ok hs)]
  rfl

section
variable {block : Reader (List Stmt)} {c : Expr} {ts us vs rest : List Token} {d l n : Token}
  {a b : List Stmt}

lemma ifElse_reads_only (hc : c.Spells 4 ts) (hs : ∀ t ∈ ts, t.Sane) (hd : d.is "DO" = true)
    (ha : block (us ++ n :: rest) = .ok a (n :: rest)) (hn : n.is "END" = true) :
    ifElse block (ts ++ d :: (us ++ n :: rest)) = .ok (.ifElse c a []) rest := by
  unfold ifElse
  rw [bind_ok (expression_reads hc hs (.of_is hd rfl (by decide) (by decide))),
    bind_ok (expect_ok hd),bind_ok ha,bind_ok (accept_false (.of_is hn (by decide)))]
  change (expect "END" _ >>= _) _ = _
  rw [bind_ok (expect_ok hn)]
  rfl

lemma ifElse_reads (hc : c.Spells 4 ts) (hs : ∀ t ∈ ts, t.Sane) (hd : d.is "DO" = true)
    (ha : block (us ++ l :: (vs ++ n :: rest)) = .ok a (l :: (vs ++ n :: rest)))
    (hl : l.is "ELSE" = true) (hb : block (vs ++ n :: rest) = .ok b (n :: rest))
    (hn : n.is "END" = true) :
    ifElse block (ts ++ d :: (us ++ l :: (vs ++ n :: rest))) = .ok (.ifElse c a b) rest := by
  unfold ifElse
  rw [bind_ok (expression_reads hc hs (.of_is hd rfl (by decide) (by decide))),
    bind_ok (expect_ok hd),bind_ok ha,bind_ok (accept_true hl)]
  change (block >>= _) _ = _
  rw [bind_ok hb,bind_ok (expect_ok hn)]
  rfl

lemma loop_reads (hc : c.Spells 4 ts) (hs : ∀ t ∈ ts, t.Sane) (hd : d.is "DO" = true)
    (ha : block (us ++ n :: rest) = .ok a (n :: rest)) (hn : n.is "END" = true) :
    loop block (ts ++ d :: (us ++ n :: rest)) = .ok (.loop c a) rest := by
  unfold loop
  rw [bind_ok (expression_reads hc hs (.of_is hd rfl (by decide) (by decide))),
    bind_ok (expect_ok hd),bind_ok ha,bind_ok (expect_ok hn)]
  rfl

lemma switch_reads {arms : List Case} (hc : c.Spells 4 ts) (hs : ∀ t ∈ ts, t.Sane)
    (he : Ends 4 (us ++ n :: rest))
    (ha : cases block (us ++ n :: rest) (us ++ n :: rest) = .ok arms (n :: rest))
    (hn : n.is "END" = true) :
    switch block (ts ++ (us ++ n :: rest)) = .ok (.switch c arms) rest := by
  have hb : bounded (cases block) (us ++ n :: rest) = .ok arms (n :: rest) := ha
  unfold switch
  rw [bind_ok (expression_reads hc hs he),bind_ok hb,bind_ok (expect_ok hn)]
  rfl

end

end Reader

lemma Stmt.Spells.starts {s : Stmt} {ts : List Token} (h : s.Spells ts) (hs : ∀ t ∈ ts, t.Sane) :
    ∃ t us, ts = t :: us ∧ t.text ∉ blockEnds := by
  have hword : ∀ {t : Token} {text : String}, t.is text = true → text ∉ blockEnds →
      t.text ∉ blockEnds := by
    intro t text ht hn
    simp only [Token.is,beq_iff_eq] at ht
    rwa [ht]
  have hexpr : ∀ {e : Expr} {ts us : List Token}, e.Spells 4 ts → (∀ t ∈ ts ++ us, t.Sane) →
      ∃ t vs, ts ++ us = t :: vs ∧ t.text ∉ blockEnds := by
    intro e ts us h hs
    obtain ⟨t,vs,rfl,ht⟩ := h.starts fun t ht => hs t (List.mem_append_left _ ht)
    exact ⟨t,vs ++ us,rfl,fun hm => ht.ne_word (List.mem_append_right _ hm) rfl⟩
  cases h with
  | expression h _ => exact hexpr h hs
  | assignment hr => exact hexpr hr hs
  | declaration hl => exact ⟨_,_,rfl,hword hl (by decide)⟩
  | ifOnly hi => exact ⟨_,_,rfl,hword hi (by decide)⟩
  | ifElse hi => exact ⟨_,_,rfl,hword hi (by decide)⟩
  | switch hw => exact ⟨_,_,rfl,hword hw (by decide)⟩
  | loop hw => exact ⟨_,_,rfl,hword hw (by decide)⟩
  | ret hr => exact ⟨_,_,rfl,hword hr (by decide)⟩

/-- Arms start with the words of arms, which end a block. -/
lemma Case.Arms.closes {cs : List Case} {ts rest : List Token} (h : Case.Arms cs ts) :
    ClosesBlock (ts ++ rest) := by
  cases h with
  | default hd => exact .of_is hd (by decide)
  | value hc => exact .of_is hc (by decide)

lemma Case.Arms.length_pos {cs : List Case} {ts : List Token} (h : Case.Arms cs ts) :
    0 < ts.length := by
  cases h <;> simp

lemma Case.Arms.ends {cs : List Case} {ts rest : List Token} {k : Nat} (h : Case.Arms cs ts) :
    Ends k (ts ++ rest) := by
  cases h with
  | default hd => exact .of_is hd rfl (by decide) (by decide)
  | value hc => exact .of_is hc rfl (by decide) (by decide)

mutual
/-- A statement is read whole, whatever follows. -/
theorem Stmt.Spells.reads {s : Stmt} {ts : List Token} (h : s.Spells ts) (hs : ∀ t ∈ ts, t.Sane)
    {fuel : List Token} (hf : ts.length ≤ fuel.length) (rest : List Token) :
    recursive statementRule fuel (ts ++ rest) = .ok s rest := by
  obtain _ | ⟨f,fuel⟩ := fuel
  · obtain ⟨t,us,rfl,_⟩ := h.starts hs
    simp at hf
  change statementRule (recursive statementRule fuel) (ts ++ rest) = .ok s rest
  rw [List.length_cons] at hf
  match h with
  | @Stmt.Spells.expression e ts s h hsemi =>
    obtain ⟨t,us,hts,ht⟩ := h.starts fun t ht => hs t (List.mem_append_left _ ht)
    rw [List.append_assoc,statementRule_other (by rw [hts]; exact ht.avoids)]
    exact expression_statement_reads h (fun t ht => hs t (List.mem_append_left _ ht)) hsemi
  | @Stmt.Spells.assignment r ts o e us s hr hx ho h hsemi =>
    obtain ⟨t,vs,hts,ht⟩ := hr.starts fun t ht => hs t (List.mem_append_left _ ht)
    rw [List.append_assoc,statementRule_other (by rw [hts]; exact ht.avoids),List.cons_append,
      List.append_assoc]
    refine assignment_reads hr (fun t ht => hs t (List.mem_append_left _ ht)) hx ho h ?_ hsemi
    intro t ht
    exact hs t (List.mem_append_right _ (List.mem_cons_of_mem _ (List.mem_append_left _ ht)))
  | @Stmt.Spells.declaration l x a ts v us s hl hx ha hv hsemi =>
    simp only [List.cons_append,List.append_assoc,List.nil_append]
    rw [statementRule_let hl]
    refine declaration_reads hx ha hv ?_ hsemi
    intro t ht
    exact hs t (List.mem_cons_of_mem _ (List.mem_cons_of_mem _
      (List.mem_append_right _ (List.mem_append_left _ ht))))
  | @Stmt.Spells.ifOnly i c ts d a us n hi hc hd ha hn =>
    simp only [List.length_cons,List.length_append,List.length_nil] at hf
    simp only [List.forall_mem_cons,List.forall_mem_append] at hs
    obtain ⟨_,hsc,_,hsa,_⟩ := hs
    have hblock : blockOf (recursive statementRule fuel) (us ++ n :: rest) = .ok a (n :: rest) :=
      ha.reads hsa (show us.length ≤ fuel.length by omega) (by simp) (.of_is hn (by decide))
    simp only [List.cons_append,List.append_assoc,List.nil_append]
    rw [statementRule_if hi]
    exact ifElse_reads_only hc hsc hd hblock hn
  | @Stmt.Spells.ifElse i c ts d a us l b vs n hi hc hd ha hl hb hn =>
    simp only [List.length_cons,List.length_append,List.length_nil] at hf
    simp only [List.forall_mem_cons,List.forall_mem_append] at hs
    obtain ⟨_,hsc,_,hsa,_,hsb,_⟩ := hs
    have hthen : blockOf (recursive statementRule fuel) (us ++ l :: (vs ++ n :: rest)) =
        .ok a (l :: (vs ++ n :: rest)) :=
      ha.reads hsa (show us.length ≤ fuel.length by omega) (by simp) (.of_is hl (by decide))
    have helse : blockOf (recursive statementRule fuel) (vs ++ n :: rest) = .ok b (n :: rest) :=
      hb.reads hsb (show vs.length ≤ fuel.length by omega) (by simp) (.of_is hn (by decide))
    simp only [List.cons_append,List.append_assoc,List.nil_append]
    rw [statementRule_if hi]
    exact ifElse_reads hc hsc hd hthen hl helse hn
  | @Stmt.Spells.switch w c ts cs us n hw hc h hn =>
    simp only [List.length_cons,List.length_append,List.length_nil] at hf
    simp only [List.forall_mem_cons,List.forall_mem_append] at hs
    obtain ⟨_,hsc,hsa,_⟩ := hs
    have harms : cases (blockOf (recursive statementRule fuel)) (us ++ n :: rest)
        (us ++ n :: rest) = .ok cs (n :: rest) :=
      h.reads hsa (show us.length ≤ fuel.length by omega) (by simp) (.of_is hn (by decide))
    simp only [List.cons_append,List.append_assoc,List.nil_append]
    rw [statementRule_switch hw]
    exact switch_reads hc hsc h.ends harms hn
  | @Stmt.Spells.loop w c ts d a us n hw hc hd ha hn =>
    simp only [List.length_cons,List.length_append,List.length_nil] at hf
    simp only [List.forall_mem_cons,List.forall_mem_append] at hs
    obtain ⟨_,hsc,_,hsa,_⟩ := hs
    have hblock : blockOf (recursive statementRule fuel) (us ++ n :: rest) = .ok a (n :: rest) :=
      ha.reads hsa (show us.length ≤ fuel.length by omega) (by simp) (.of_is hn (by decide))
    simp only [List.cons_append,List.append_assoc,List.nil_append]
    rw [statementRule_while hw]
    exact loop_reads hc hsc hd hblock hn
  | @Stmt.Spells.ret r e ts s hr h hsemi =>
    simp only [List.forall_mem_cons,List.forall_mem_append] at hs
    simp only [List.cons_append,List.append_assoc,List.nil_append]
    rw [statementRule_return hr,bind_ok (expression_reads h hs.2.1
      (.of_is hsemi rfl (by decide) (by decide))),bind_ok (expect_ok hsemi)]
    rfl

/-- A block is read whole where a word that ends blocks follows. -/
theorem Stmt.Block.reads {ss : List Stmt} {ts : List Token} (h : Stmt.Block ss ts)
    (hs : ∀ t ∈ ts, t.Sane) {fuel : List Token} (hf : ts.length ≤ fuel.length)
    {ahead : List Token} (ha : ts.length ≤ ahead.length) {rest : List Token}
    (hr : ClosesBlock rest) :
    statements (recursive statementRule fuel) ahead (ts ++ rest) = .ok ss rest := by
  match h with
  | .nil => exact statements_nil hr
  | @Stmt.Block.cons s ts ss us h h' =>
    obtain ⟨t,vs,hts,ht⟩ := h.starts fun t ht => hs t (List.mem_append_left _ ht)
    have hlen : ts.length = vs.length + 1 := by rw [hts]; rfl
    rw [List.length_append] at hf ha
    obtain _ | ⟨_,ahead⟩ := ahead
    · simp only [List.length_nil] at ha; omega
    rw [List.length_cons] at ha
    have hfirst := h.reads (fun t ht => hs t (List.mem_append_left _ ht))
      (show ts.length ≤ fuel.length by omega) (us ++ rest)
    have hrest : statements (recursive statementRule fuel) ahead (us ++ rest) = .ok ss rest :=
      h'.reads (fun t ht => hs t (List.mem_append_right _ ht))
        (show us.length ≤ fuel.length by omega) (show us.length ≤ ahead.length by omega) hr
    rw [hts,List.cons_append] at hfirst
    rw [List.append_assoc,hts,List.cons_append]
    exact statements_cons ht hfirst hrest

/-- Arms are read up to the word that ends the switch. -/
theorem Case.Arms.reads {cs : List Case} {ts : List Token} (h : Case.Arms cs ts)
    (hs : ∀ t ∈ ts, t.Sane) {fuel : List Token} (hf : ts.length ≤ fuel.length)
    {ahead : List Token} (ha : ts.length ≤ ahead.length) {rest : List Token}
    (hr : ClosesBlock rest) :
    cases (blockOf (recursive statementRule fuel)) ahead (ts ++ rest) = .ok cs rest := by
  obtain _ | ⟨_,ahead⟩ := ahead
  · have := h.length_pos
    simp only [List.length_nil] at ha
    omega
  rw [List.length_cons] at ha
  match h with
  | @Case.Arms.default d a ts hd h =>
    rw [List.length_cons] at hf
    have hblock : blockOf (recursive statementRule fuel) (ts ++ rest) = .ok a rest :=
      h.reads (fun t ht => hs t (List.mem_cons_of_mem _ ht)) (show ts.length ≤ fuel.length by omega)
        (by simp) hr
    rw [cases,List.cons_append,bind_ok (accept_false (.of_is hd (by decide)))]
    change (expect "DEFAULT" _ >>= _) _ = _
    rw [bind_ok (expect_ok hd),bind_ok hblock]
    rfl
  | @Case.Arms.value c e ts o a us cs vs hc he ho h h' =>
    simp only [List.length_cons,List.length_append] at hf ha
    simp only [List.forall_mem_cons,List.forall_mem_append] at hs
    obtain ⟨_,hse,_,hsa,hsc⟩ := hs
    have hblock : blockOf (recursive statementRule fuel) (us ++ (vs ++ rest)) = .ok a (vs ++ rest) :=
      h.reads hsa (show us.length ≤ fuel.length by omega) (by simp) h'.closes
    have hrest : cases (blockOf (recursive statementRule fuel)) ahead (vs ++ rest) = .ok cs rest :=
      h'.reads hsc (show vs.length ≤ fuel.length by omega)
        (show vs.length ≤ ahead.length by omega) hr
    rw [cases]
    simp only [List.cons_append,List.append_assoc]
    rw [bind_ok (accept_true hc)]
    change (expression >>= _) _ = _
    rw [bind_ok (expression_reads he hse
      (.of_is ho rfl (by decide) (by decide))),bind_ok (expect_ok ho),bind_ok hblock,bind_ok hrest]
    rfl
end

namespace Reader

theorem statement_reads {s : Stmt} {ts : List Token} (h : s.Spells ts) (hs : ∀ t ∈ ts, t.Sane)
    (rest : List Token) : statement (ts ++ rest) = .ok s rest :=
  h.reads hs (by simp) rest

theorem statements_reads {ss : List Stmt} {ts : List Token} (h : Stmt.Block ss ts)
    (hs : ∀ t ∈ ts, t.Sane) {ahead : List Token} (ha : ts.length ≤ ahead.length)
    {rest : List Token} (hr : ClosesBlock rest) :
    statements statement ahead (ts ++ rest) = .ok ss rest := by
  match h with
  | .nil => exact statements_nil hr
  | @Stmt.Block.cons s ts ss us h h' =>
    obtain ⟨t,vs,hts,ht⟩ := h.starts fun t ht => hs t (List.mem_append_left _ ht)
    have hlen : ts.length = vs.length + 1 := by rw [hts]; rfl
    rw [List.length_append] at ha
    obtain _ | ⟨_,ahead⟩ := ahead
    · simp only [List.length_nil] at ha; omega
    rw [List.length_cons] at ha
    have hfirst := statement_reads h (fun t ht => hs t (List.mem_append_left _ ht)) (us ++ rest)
    have hrest := statements_reads h' (fun t ht => hs t (List.mem_append_right _ ht))
      (show us.length ≤ ahead.length by omega) hr
    rw [hts,List.cons_append] at hfirst
    rw [List.append_assoc,hts,List.cons_append]
    exact statements_cons ht hfirst hrest

lemma block_reads {ss : List Stmt} {ts rest : List Token} (h : Stmt.Block ss ts)
    (hs : ∀ t ∈ ts, t.Sane) (hr : ClosesBlock rest) : block (ts ++ rest) = .ok ss rest :=
  statements_reads h hs (by simp) hr

lemma atGlobal_eq (t : Token) (ts : List Token) :
    atGlobal (t :: ts) = .ok (t.is "LIST" || t.is "VAR" || t.is "VAL") (t :: ts) := rfl

theorem global_reads {g : Global} {ts : List Token} (h : g.Spells ts) (hs : ∀ t ∈ ts, t.Sane)
    (rest : List Token) : global (ts ++ rest) = .ok g rest := by
  cases h with
  | @list l x a ts o b es us c s hl hx ha ho hb h hc hsemi =>
    simp only [List.forall_mem_cons,List.forall_mem_append] at hs
    obtain ⟨_,_,_,_,_,hsv,_⟩ := hs
    have hargs : arguments expression "]" .expectedCloseBracket (us ++ c :: s :: rest) =
        .ok es (s :: rest) :=
      arguments_reads h hsv (by simp) hc
    unfold global
    simp only [List.cons_append,List.append_assoc,List.nil_append]
    rw [bind_ok (accept_true hl)]
    change listGlobal _ = _
    unfold listGlobal
    rw [bind_ok (expectName_ok hx),bind_ok (typeName?_reads ha (.of_is ho (by decide))),
      bind_ok (expect_ok ho),bind_ok (expect_ok hb),bind_ok hargs,bind_ok (expect_ok hsemi)]
    rfl
  | @mutable l x a ts v us s hl hx ha hv hsemi =>
    simp only [List.forall_mem_cons,List.forall_mem_append] at hs
    obtain ⟨_,_,_,hsv,_⟩ := hs
    have hcolon : Avoids ":" (us ++ s :: rest) := by
      cases hv with
      | none => exact .of_is hsemi (by decide)
      | some ho h => exact .of_is ho (by decide)
    unfold global
    simp only [List.cons_append,List.append_assoc,List.nil_append]
    rw [bind_ok (accept_false (.of_is hl (by decide)))]
    change (accept "VAR" >>= _) _ = _
    rw [bind_ok (accept_true hl)]
    change mutableGlobal _ = _
    unfold mutableGlobal
    rw [bind_ok (expectName_ok hx),bind_ok (typeName?_reads ha hcolon),
      bind_ok (initial?_reads hv hsv
        (.of_is hsemi rfl (by decide) (by decide)) (.of_is hsemi (by decide))),
      bind_ok (expect_ok hsemi)]
    rfl
  | @immutable l x a ts o e us s hl hx ha ho h hsemi =>
    simp only [List.forall_mem_cons,List.forall_mem_append] at hs
    obtain ⟨_,_,_,_,hsv,_⟩ := hs
    unfold global
    simp only [List.cons_append,List.append_assoc,List.nil_append]
    rw [bind_ok (accept_false (.of_is hl (by decide)))]
    change (accept "VAR" >>= _) _ = _
    rw [bind_ok (accept_false (.of_is hl (by decide)))]
    change (accept "VAL" >>= _) _ = _
    rw [bind_ok (accept_true hl)]
    change immutableGlobal _ = _
    unfold immutableGlobal
    rw [bind_ok (expectName_ok hx),bind_ok (typeName?_reads ha (.of_is ho (by decide))),
      bind_ok (expect_ok ho),bind_ok (expression_reads h hsv
        (.of_is hsemi rfl (by decide) (by decide))),bind_ok (expect_ok hsemi)]
    rfl

lemma parameterList_reads {ps : List (String × String)} {ts : List Token}
    (h : Function.Parameters ps ts) {ahead : List Token} (ha : ts.length ≤ ahead.length) {c : Token}
    (hc : c.is ")" = true) (rest : List Token) :
    parameterList ahead (ts ++ c :: rest) = .ok ps rest := by
  induction h generalizing ahead with
  | @one x o t hx ho ht =>
    obtain _ | ⟨_,ahead⟩ := ahead
    · simp at ha
    rw [parameterList]
    simp only [List.cons_append,List.nil_append]
    rw [bind_ok (expectName_ok hx),bind_ok (expect_ok ho),bind_ok (expectName_ok ht),
      bind_ok (accept_true hc)]
    rfl
  | @cons x o t k ps ts hx ho ht hk h ih =>
    obtain _ | ⟨_,ahead⟩ := ahead
    · simp at ha
    simp only [List.length_cons] at ha
    rw [parameterList]
    simp only [List.cons_append]
    rw [bind_ok (expectName_ok hx),bind_ok (expect_ok ho),bind_ok (expectName_ok ht),
      bind_ok (accept_false (.of_is hk (by decide)))]
    change (expect "," _ >>= _) _ = _
    rw [bind_ok (expect_ok hk),bind_ok (ih (by omega))]
    rfl

theorem function_reads {f : Function} {ts : List Token} (h : f.Spells ts) (hs : ∀ t ∈ ts, t.Sane)
    (rest : List Token) : function (ts ++ rest) = .ok f rest := by
  cases h with
  | @mk f x o ps ts c a us d b vs n hf hx ho hp hc ha hd hb hn =>
    simp only [List.forall_mem_cons,List.forall_mem_append] at hs
    obtain ⟨_,_,_,hsp,_,_,_,hsb,_⟩ := hs
    have hparams : parameters (ts ++ c :: (us ++ d :: (vs ++ n :: rest))) =
        .ok ps (us ++ d :: (vs ++ n :: rest)) := by
      rcases hp with ⟨rfl,rfl⟩ | hp
      · unfold parameters
        rw [List.nil_append,bind_ok (accept_true hc)]
        rfl
      · have hopen : Avoids ")" (ts ++ c :: (us ++ d :: (vs ++ n :: rest))) := by
          have hfirst : ∃ x us, ts = x :: us ∧ x.isName = true := by
            cases hp with
            | one hx => exact ⟨_,_,rfl,hx⟩
            | cons hx => exact ⟨_,_,rfl,hx⟩
          obtain ⟨x,us,rfl,hx⟩ := hfirst
          intro _ ht
          cases ht
          simp only [Token.is,beq_eq_false_iff_ne]
          intro he
          apply (Starts.of_isName hx (hsp x (by simp))).closing
          simp [he]
        unfold parameters
        rw [bind_ok (accept_false hopen)]
        exact parameterList_reads hp (by simp) hc _
    simp only [List.cons_append,List.append_assoc,List.nil_append]
    unfold function
    rw [bind_ok (expect_ok hf),bind_ok (expectName_ok hx),bind_ok (expect_ok ho),bind_ok hparams,
      bind_ok (typeName?_reads ha (.of_is hd (by decide))),bind_ok (expect_ok hd),
      bind_ok (block_reads hb hsb (.of_is hn (by decide))),
      bind_ok (expect_ok hn)]
    rfl

/-- The next token, if there is one, is no word that a global starts with. -/
def EndsGlobals (ts : List Token) : Prop :=
  ∀ text ∈ ["LIST","VAR","VAL"], Avoids text ts

lemma atGlobal_false {ts : List Token} (h : EndsGlobals ts) : atGlobal ts = .ok false ts := by
  cases ts with
  | nil => rfl
  | cons t ts =>
    rw [atGlobal_eq,h "LIST" (by decide) t rfl,h "VAR" (by decide) t rfl,h "VAL" (by decide) t rfl]
    rfl

lemma atGlobal_true {g : Global} {ts rest : List Token} (h : g.Spells ts) :
    atGlobal (ts ++ rest) = .ok true (ts ++ rest) := by
  cases h with
  | list hl => rw [List.cons_append,atGlobal_eq,hl]; rfl
  | mutable hl => rw [List.cons_append,atGlobal_eq,hl,Bool.or_true]; rfl
  | immutable hl => rw [List.cons_append,atGlobal_eq,hl,Bool.or_true]

lemma globals_reads {gs : List Global} {ts : List Token} (h : Sequence Global.Spells gs ts)
    (hs : ∀ t ∈ ts, t.Sane) {ahead : List Token} (ha : ts.length ≤ ahead.length)
    {rest : List Token} (hr : EndsGlobals rest) : globals ahead (ts ++ rest) = .ok gs rest := by
  induction h generalizing ahead with
  | nil =>
    cases ahead with
    | nil => rfl
    | cons _ ahead =>
      rw [globals,List.nil_append,bind_ok (atGlobal_false hr)]
      rfl
  | @cons g ts gs us h _ ih =>
    have hpos : 0 < ts.length := by cases h <;> simp
    rw [List.length_append] at ha
    obtain _ | ⟨_,ahead⟩ := ahead
    · simp only [List.length_nil] at ha; omega
    rw [List.length_cons] at ha
    rw [globals,List.append_assoc,bind_ok (atGlobal_true h)]
    change (global >>= _) _ = _
    rw [bind_ok (global_reads h (fun t ht => hs t (List.mem_append_left _ ht)) _),
      bind_ok (ih (fun t ht => hs t (List.mem_append_right _ ht)) (by omega))]
    rfl

lemma functions_reads {fs : List Function} {ts : List Token} (h : Sequence Function.Spells fs ts)
    (hs : ∀ t ∈ ts, t.Sane) {ahead : List Token} (ha : ts.length ≤ ahead.length) :
    functions ahead ts = .ok fs [] := by
  induction h generalizing ahead with
  | nil => cases ahead <;> rfl
  | @cons f ts fs us h _ ih =>
    obtain ⟨k,vs,hts,hk⟩ : ∃ k vs, ts = k :: vs ∧ k.is "FUN" = true := by
      cases h with
      | mk hf => exact ⟨_,_,rfl,hf⟩
    have hlen : ts.length = vs.length + 1 := by rw [hts]; rfl
    rw [List.length_append] at ha
    obtain _ | ⟨_,ahead⟩ := ahead
    · simp only [List.length_nil] at ha; omega
    rw [List.length_cons] at ha
    have hf := function_reads h (fun t ht => hs t (List.mem_append_left _ ht)) us
    rw [hts,List.cons_append] at hf ⊢
    change (if k.is "FUN" = true then (do
        let first ← function
        return first :: (← functions ahead) : Reader (List Function))
      else do if ← atGlobal then throw .globalAfterFunction else throw .expectedDeclaration)
        (k :: (vs ++ us)) = _
    rw [if_pos hk,bind_ok hf,
      bind_ok (ih (fun t ht => hs t (List.mem_append_right _ ht)) (by omega))]
    rfl

/-- A program is read from the tokens that spell it. -/
theorem program_reads {p : Program} {ts : List Token} (h : p.Spells ts) (hs : ∀ t ∈ ts, t.Sane) :
    program ts = .ok p [] := by
  obtain ⟨gs,fs⟩ := p
  obtain ⟨us,vs,rfl,hg,hf⟩ := h
  have hends : EndsGlobals vs := by
    intro text ht
    cases hf with
    | nil => exact nofun
    | cons h =>
      cases h with
      | mk hf =>
        refine .of_is hf ?_
        rintro rfl
        simp at ht
  have hglobals : bounded globals (us ++ vs) = .ok gs vs :=
    globals_reads hg (fun t ht => hs t (List.mem_append_left _ ht)) (by simp) hends
  have hfunctions : bounded functions vs = .ok fs [] :=
    functions_reads hf (fun t ht => hs t (List.mem_append_right _ ht)) (Nat.le_refl _)
  unfold program
  rw [bind_ok hglobals,bind_ok hfunctions]
  rfl

end Reader
end BlockScript
