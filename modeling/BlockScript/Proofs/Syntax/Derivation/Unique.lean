import BlockScript.Proofs.Syntax.Derivation.Basic
/-! A list of tokens has at most one derivation. Wherever the grammar leaves a choice, the next
token makes it: two derivations that start at the same place go the same way and stop at the same
place, if neither of them could have gone on. -/
namespace BlockScript.Grammar
variable {xs ys : List Terminal} {r r' ts : List Token}

/-- The next token, if there is one, is none of these. -/
def Avoids (xs : List Terminal) (ts : List Token) : Prop := ∀ t ∈ ts.head?, t.terminal ∉ xs

lemma Avoids.mono (h : Avoids ys ts) (hs : ∀ x ∈ xs, x ∈ ys) : Avoids xs ts :=
  fun t ht hx => h t ht (hs _ hx)

/-- The next token is one of these. -/
def Starts (xs : List Terminal) (ts : List Token) : Prop :=
  ∃ t us, ts = t :: us ∧ t.terminal ∈ xs

lemma Starts.append (h : Starts xs ts) : Starts xs (ts ++ r) := by
  obtain ⟨t,us,rfl,ht⟩ := h
  exact ⟨t,us ++ r,rfl,ht⟩

lemma Starts.mono (h : Starts xs ts) (hs : ∀ x ∈ xs, x ∈ ys) : Starts ys ts := by
  obtain ⟨t,us,rfl,ht⟩ := h
  exact ⟨t,us,rfl,hs _ ht⟩

lemma Avoids.ne (hr : Avoids xs r) (h : Starts xs ts) : r ≠ ts := by
  rintro rfl
  obtain ⟨t,us,rfl,ht⟩ := h
  exact hr t rfl ht

namespace Leaf

lemma token_inj {w w' : Leaf xs} : w.token = w'.token ↔ w = w' := Leaf.ext_iff.symm

lemma cons_inj {w w' : Leaf xs} : w.token :: r = w'.token :: r' ↔ w = w' ∧ r = r' := by
  rw [List.cons.injEq,token_inj]

lemma avoids (w : Leaf xs) (h : ∀ x ∈ xs, x ∉ ys) : Avoids ys (w.token :: ts) := by
  rintro _ ⟨⟩
  exact h _ w.mem

lemma starts (w : Leaf xs) : Starts xs (w.token :: ts) := ⟨_,_,rfl,w.mem⟩

/-- Leaves of alternatives with different terminals are different tokens. -/
lemma clash {w : Leaf xs} {w' : Leaf ys} (he : w.token = w'.token) (h : ∀ x ∈ xs, x ∉ ys) : False :=
  h _ w.mem (he ▸ w'.mem)

end Leaf

/-! ### Expressions -/

/-- The terminals that an expression of a height can go on with. -/
def goesOn : Nat → List Terminal
  | 0 => [.word "(",.word "["]
  | k + 1 => operators k ++ goesOn k

lemma goesOn_succ {k : Nat} : ∀ x ∈ goesOn k, x ∈ goesOn (k + 1) :=
  fun _ hx => List.mem_append_right _ hx

/-- Each operator is of one height only, and is no opening bracket. -/
lemma operators_disjoint {k : Nat} : ∀ x ∈ operators k, x ∉ goesOn k := by
  match k with
  | 0 | 1 | 2 | 3 => decide
  | k + 4 => intro x hx; cases hx

lemma Rest.avoids {k : Nat} (m : Rest k) (hr : Avoids (goesOn (k + 1)) r) :
    Avoids (goesOn k) (m.yield ++ r) := by
  cases m with
  | nil => exact hr.mono goesOn_succ
  | cons op next rest => exact op.avoids operators_disjoint

/-- The terminals that an expression starts with. -/
def opens : List Terminal := [.literal,.name,.word "("]

lemma Primary.starts (p : Primary) : Starts opens p.yield := by
  cases p with
  | literal l | group l | name l => exact l.starts.mono (by decide)

lemma Level.starts {k : Nat} (e : Level k) : Starts opens e.yield := by
  match e with
  | .primary p => exact p.starts
  | .chain first rest => exact first.starts.append

lemma Items.starts (es : Items) : Starts opens es.yield := by
  cases es with
  | one e => exact e.starts
  | cons e c es => exact e.starts.append

mutual
theorem Level.unique {k : Nat} (e e' : Level k) {r r' : List Token} (hr : Avoids (goesOn k) r)
    (hr' : Avoids (goesOn k) r') (h : e.yield ++ r = e'.yield ++ r') : e = e' ∧ r = r' := by
  match e,e' with
  | .primary p,.primary p' =>
    obtain ⟨rfl,rfl⟩ := p.unique p' hr hr' h
    exact ⟨rfl,rfl⟩
  | .chain first rest,.chain first' rest' =>
    simp only [Level.yield,List.append_assoc] at h
    obtain ⟨rfl,hs⟩ := first.unique first' (rest.avoids hr) (rest'.avoids hr') h
    obtain ⟨rfl,rfl⟩ := rest.unique rest' hr hr' hs
    exact ⟨rfl,rfl⟩
termination_by structural e

theorem Rest.unique {k : Nat} (m m' : Rest k) {r r' : List Token} (hr : Avoids (goesOn (k + 1)) r)
    (hr' : Avoids (goesOn (k + 1)) r') (h : m.yield ++ r = m'.yield ++ r') : m = m' ∧ r = r' := by
  match m,m' with
  | .nil,.nil => exact ⟨rfl,h⟩
  | .nil,.cons op _ _ => exact absurd h (hr.ne (op.starts.mono fun _ => List.mem_append_left _))
  | .cons op _ _,.nil =>
    exact absurd h.symm (hr'.ne (op.starts.mono fun _ => List.mem_append_left _))
  | .cons op next rest,.cons op' next' rest' =>
    simp only [Rest.yield,List.cons_append,List.append_assoc,List.cons.injEq,Leaf.token_inj] at h
    obtain ⟨rfl,h⟩ := h
    obtain ⟨rfl,hs⟩ := next.unique next' (rest.avoids hr) (rest'.avoids hr') h
    obtain ⟨rfl,rfl⟩ := rest.unique rest' hr hr' hs
    exact ⟨rfl,rfl⟩
termination_by structural m

theorem Primary.unique (p p' : Primary) {r r' : List Token} (hr : Avoids (goesOn 0) r)
    (hr' : Avoids (goesOn 0) r') (h : p.yield ++ r = p'.yield ++ r') : p = p' ∧ r = r' := by
  match p,p' with
  | .literal t,.literal t' =>
    simp only [Primary.yield,List.cons_append,List.nil_append,List.cons.injEq,Leaf.token_inj] at h
    obtain ⟨rfl,rfl⟩ := h
    exact ⟨rfl,rfl⟩
  | .group o e c,.group o' e' c' =>
    simp only [Primary.yield,List.cons_append,List.append_assoc,List.nil_append,List.cons.injEq,
      Leaf.token_inj] at h
    obtain ⟨rfl,h⟩ := h
    obtain ⟨rfl,hs⟩ := e.unique e' (c.avoids (by decide)) (c'.avoids (by decide)) h
    obtain ⟨rfl,rfl⟩ := Leaf.cons_inj.mp hs
    exact ⟨rfl,rfl⟩
  | .name x s,.name x' s' =>
    simp only [Primary.yield,List.cons_append,List.cons.injEq,Leaf.token_inj] at h
    obtain ⟨rfl,h⟩ := h
    obtain ⟨rfl,rfl⟩ := s.unique s' hr hr' h
    exact ⟨rfl,rfl⟩
  | .literal _,.group .. | .literal _,.name .. | .group ..,.literal _ | .group ..,.name ..
  | .name ..,.literal _ | .name ..,.group .. =>
    exact (Leaf.clash (List.cons.inj h).1 (by decide)).elim
termination_by structural p

theorem Suffix.unique (s s' : Suffix) {r r' : List Token} (hr : Avoids (goesOn 0) r)
    (hr' : Avoids (goesOn 0) r') (h : s.yield ++ r = s'.yield ++ r') : s = s' ∧ r = r' := by
  match s,s' with
  | .none,.none => exact ⟨rfl,h⟩
  | .none,.call o _ _ | .none,.element o _ _ =>
    exact absurd h (hr.ne (o.starts.mono (by decide)))
  | .call o _ _,.none | .element o _ _,.none =>
    exact absurd h.symm (hr'.ne (o.starts.mono (by decide)))
  | .call ..,.element .. | .element ..,.call .. =>
    exact (Leaf.clash (List.cons.inj h).1 (by decide)).elim
  | .call o es c,.call o' es' c' =>
    simp only [Suffix.yield,List.cons_append,List.append_assoc,List.nil_append,List.cons.injEq,
      Leaf.token_inj] at h
    obtain ⟨rfl,h⟩ := h
    obtain ⟨rfl,hs⟩ := es.unique es' (c.avoids (by decide)) (c'.avoids (by decide)) h
    obtain ⟨rfl,rfl⟩ := Leaf.cons_inj.mp hs
    exact ⟨rfl,rfl⟩
  | .element o e c,.element o' e' c' =>
    simp only [Suffix.yield,List.cons_append,List.append_assoc,List.nil_append,List.cons.injEq,
      Leaf.token_inj] at h
    obtain ⟨rfl,h⟩ := h
    obtain ⟨rfl,hs⟩ := e.unique e' (c.avoids (by decide)) (c'.avoids (by decide)) h
    obtain ⟨rfl,rfl⟩ := Leaf.cons_inj.mp hs
    exact ⟨rfl,rfl⟩
termination_by structural s

theorem Arguments.unique (es es' : Arguments) {r r' : List Token}
    (hr : Avoids (opens ++ .word "," :: goesOn 4) r)
    (hr' : Avoids (opens ++ .word "," :: goesOn 4) r') (h : es.yield ++ r = es'.yield ++ r') :
    es = es' ∧ r = r' := by
  match es,es' with
  | .none,.none => exact ⟨rfl,h⟩
  | .none,.some es =>
    exact absurd h (hr.ne (es.starts.append.mono fun _ => List.mem_append_left _))
  | .some es,.none =>
    exact absurd h.symm (hr'.ne (es.starts.append.mono fun _ => List.mem_append_left _))
  | .some es,.some es' =>
    obtain ⟨rfl,rfl⟩ := es.unique es' (hr.mono fun _ => List.mem_append_right _)
      (hr'.mono fun _ => List.mem_append_right _) h
    exact ⟨rfl,rfl⟩
termination_by structural es

theorem Items.unique (es es' : Items) {r r' : List Token} (hr : Avoids (.word "," :: goesOn 4) r)
    (hr' : Avoids (.word "," :: goesOn 4) r') (h : es.yield ++ r = es'.yield ++ r') :
    es = es' ∧ r = r' := by
  match es,es' with
  | .one e,.one e' =>
    obtain ⟨rfl,rfl⟩ := e.unique e' (hr.mono fun _ => List.mem_cons_of_mem _)
      (hr'.mono fun _ => List.mem_cons_of_mem _) h
    exact ⟨rfl,rfl⟩
  | .one e,.cons e' c _ =>
    -- the first expressions stop at the same place, where only one side has a comma
    simp only [Items.yield,List.append_assoc,List.cons_append] at h
    obtain ⟨_,rfl⟩ := e.unique e' (hr.mono fun _ => List.mem_cons_of_mem _)
      (c.avoids (by decide)) h
    exact absurd rfl (hr.ne (c.starts.mono (by decide)))
  | .cons e c _,.one e' =>
    simp only [Items.yield,List.append_assoc,List.cons_append] at h
    obtain ⟨_,rfl⟩ := e.unique e' (c.avoids (by decide))
      (hr'.mono fun _ => List.mem_cons_of_mem _) h
    exact absurd rfl (hr'.ne (c.starts.mono (by decide)))
  | .cons e c es,.cons e' c' es' =>
    simp only [Items.yield,List.append_assoc,List.cons_append] at h
    obtain ⟨rfl,hs⟩ := e.unique e' (c.avoids (by decide)) (c'.avoids (by decide)) h
    obtain ⟨rfl,ht⟩ := Leaf.cons_inj.mp hs
    obtain ⟨rfl,rfl⟩ := es.unique es' hr hr' ht
    exact ⟨rfl,rfl⟩
termination_by structural es
end

lemma Level.unique_before {e e' : Level 4} {w w' : Leaf xs} (hw : ∀ x ∈ xs, x ∉ goesOn 4)
    (h : e.yield ++ w.token :: r = e'.yield ++ w'.token :: r') : e = e' ∧ w = w' ∧ r = r' := by
  obtain ⟨rfl,hr⟩ := e.unique e' (w.avoids hw) (w'.avoids hw) h
  obtain ⟨rfl,rfl⟩ := Leaf.cons_inj.mp hr
  exact ⟨rfl,rfl,rfl⟩

/-! ### Statements -/

lemma Label.unique {a a' : Label} (hr : Avoids [.word ":"] r) (hr' : Avoids [.word ":"] r')
    (h : a.yield ++ r = a'.yield ++ r') : a = a' ∧ r = r' := by
  match a,a' with
  | .none,.none => exact ⟨rfl,h⟩
  | .none,.some c _ => exact absurd h (hr.ne c.starts)
  | .some c _,.none => exact absurd h.symm (hr'.ne c.starts)
  | .some c x,.some c' x' =>
    simp only [Label.yield,List.cons_append,List.nil_append,List.cons.injEq,Leaf.token_inj] at h
    obtain ⟨rfl,rfl,rfl⟩ := h
    exact ⟨rfl,rfl⟩

lemma Initial.unique {v v' : Initial} (hr : Avoids (.word "=" :: goesOn 4) r)
    (hr' : Avoids (.word "=" :: goesOn 4) r') (h : v.yield ++ r = v'.yield ++ r') :
    v = v' ∧ r = r' := by
  match v,v' with
  | .none,.none => exact ⟨rfl,h⟩
  | .none,.some o _ => exact absurd h (hr.ne (o.starts.mono (by decide)))
  | .some o _,.none => exact absurd h.symm (hr'.ne (o.starts.mono (by decide)))
  | .some o e,.some o' e' =>
    simp only [Initial.yield,List.cons_append,List.cons.injEq,Leaf.token_inj] at h
    obtain ⟨rfl,h⟩ := h
    obtain ⟨rfl,rfl⟩ := e.unique e' (hr.mono fun _ => List.mem_cons_of_mem _)
      (hr'.mono fun _ => List.mem_cons_of_mem _) h
    exact ⟨rfl,rfl⟩

lemma Initial.avoids (v : Initial) (ho : .word "=" ∉ xs) (hr : Avoids xs r) :
    Avoids xs (v.yield ++ r) := by
  cases v with
  | none => exact hr
  | some o e => exact o.avoids (by simpa using ho)

lemma Initial.unique_before {v v' : Initial} {s s' : Word ";"}
    (h : v.yield ++ s.token :: r = v'.yield ++ s'.token :: r') : v = v' ∧ s = s' ∧ r = r' := by
  obtain ⟨rfl,hs⟩ := Initial.unique (s.avoids (by decide)) (s'.avoids (by decide)) h
  obtain ⟨rfl,rfl⟩ := Leaf.cons_inj.mp hs
  exact ⟨rfl,rfl,rfl⟩

/-- What a declaration has after its name. -/
lemma Label.unique_before {a a' : Label} {v v' : Initial} {s s' : Word ";"}
    (h : a.yield ++ (v.yield ++ s.token :: r) = a'.yield ++ (v'.yield ++ s'.token :: r')) :
    a = a' ∧ v = v' ∧ s = s' ∧ r = r' := by
  obtain ⟨rfl,hv⟩ := Label.unique (v.avoids (by decide) (s.avoids (by decide)))
    (v'.avoids (by decide) (s'.avoids (by decide))) h
  exact ⟨rfl,Initial.unique_before hv⟩

/-- The terminals that the alternative of a statement starts with. -/
def Statement.opens : Statement → List Terminal
  | declaration .. => [.word "LET"]
  | ifElse .. => [.word "IF"]
  | switch .. => [.word "SWITCH"]
  | loop .. => [.word "WHILE"]
  | ret .. => [.word "RETURN"]
  | expression .. => Grammar.opens

/-- The terminals that statements start with. -/
def blockOpens : List Terminal :=
  [.word "LET",.word "IF",.word "SWITCH",.word "WHILE",.word "RETURN"] ++ opens

lemma Statement.starts (d : Statement) : Starts d.opens d.yield := by
  cases d with
  | declaration l | ifElse l | switch l | loop l | ret l => exact l.starts
  | expression e v s => exact e.starts.append

lemma Statement.starts_block (d : Statement) : Starts blockOpens d.yield := by
  cases d with
  | declaration l | ifElse l | switch l | loop l | ret l => exact l.starts.mono (by decide)
  | expression e v s => exact e.starts.append.mono (by decide)

/-- Statements that start at the same place are of the same alternative. -/
lemma Statement.common {d d' : Statement} (h : d.yield ++ r = d'.yield ++ r') :
    ∃ x ∈ d.opens, x ∈ d'.opens := by
  obtain ⟨t,ts,hts,ht⟩ := d.starts
  obtain ⟨t',ts',hts',ht'⟩ := d'.starts
  rw [hts,hts'] at h
  obtain rfl : t = t' := (List.cons.inj h).1
  exact ⟨_,ht,ht'⟩

lemma Arms.avoids (arms : Arms) (hc : .word "CASE" ∉ xs) (hr : Avoids xs r) :
    Avoids xs (arms.yield ++ r) := by
  cases arms with
  | nil => exact hr
  | cons c => exact c.avoids (by simpa using hc)

lemma Else.avoids (e : Else) (hl : .word "ELSE" ∉ xs) (hr : Avoids xs r) :
    Avoids xs (e.yield ++ r) := by
  cases e with
  | none => exact hr
  | some l => exact l.avoids (by simpa using hl)

mutual
/-- A statement stops by itself. -/
theorem Statement.unique (d d' : Statement) {r r' : List Token}
    (h : d.yield ++ r = d'.yield ++ r') : d = d' ∧ r = r' := by
  -- the first token is common to both, and the six alternatives start with different ones
  have hx := Statement.common h
  cases d with
  | declaration l x a v s =>
    cases d' with
    | declaration l' x' a' v' s' =>
      simp only [Statement.yield,List.cons_append,List.append_assoc,List.nil_append,List.cons.injEq,
        Leaf.token_inj] at h
      obtain ⟨rfl,rfl,h⟩ := h
      obtain ⟨rfl,rfl,rfl,rfl⟩ := Label.unique_before h
      exact ⟨rfl,rfl⟩
    | _ => simp [Statement.opens,Grammar.opens] at hx
  | ifElse i c d b e n =>
    cases d' with
    | ifElse i' c' d' b' e' n' =>
      simp only [Statement.yield,List.cons_append,List.append_assoc,List.nil_append,List.cons.injEq,
        Leaf.token_inj] at h
      obtain ⟨rfl,h⟩ := h
      obtain ⟨rfl,rfl,hb⟩ := Level.unique_before (by decide) h
      obtain ⟨rfl,he⟩ := b.unique b' (e.avoids (by decide) (n.avoids (by decide)))
        (e'.avoids (by decide) (n'.avoids (by decide))) hb
      obtain ⟨rfl,hn⟩ := e.unique e' (n.avoids (by decide)) (n'.avoids (by decide)) he
      obtain ⟨rfl,rfl⟩ := Leaf.cons_inj.mp hn
      exact ⟨rfl,rfl⟩
    | _ => simp [Statement.opens,Grammar.opens] at hx
  | switch s c arms d b n =>
    cases d' with
    | switch s' c' arms' d' b' n' =>
      simp only [Statement.yield,List.cons_append,List.append_assoc,List.nil_append,List.cons.injEq,
        Leaf.token_inj] at h
      obtain ⟨rfl,h⟩ := h
      obtain ⟨rfl,ha⟩ := c.unique c' (arms.avoids (by decide) (d.avoids (by decide)))
        (arms'.avoids (by decide) (d'.avoids (by decide))) h
      obtain ⟨rfl,hd⟩ := arms.unique arms' (d.avoids (by decide)) (d'.avoids (by decide)) ha
      obtain ⟨rfl,hb⟩ := Leaf.cons_inj.mp hd
      obtain ⟨rfl,hn⟩ := b.unique b' (n.avoids (by decide)) (n'.avoids (by decide)) hb
      obtain ⟨rfl,rfl⟩ := Leaf.cons_inj.mp hn
      exact ⟨rfl,rfl⟩
    | _ => simp [Statement.opens,Grammar.opens] at hx
  | loop w c d b n =>
    cases d' with
    | loop w' c' d' b' n' =>
      simp only [Statement.yield,List.cons_append,List.append_assoc,List.nil_append,List.cons.injEq,
        Leaf.token_inj] at h
      obtain ⟨rfl,h⟩ := h
      obtain ⟨rfl,rfl,hb⟩ := Level.unique_before (by decide) h
      obtain ⟨rfl,hn⟩ := b.unique b' (n.avoids (by decide)) (n'.avoids (by decide)) hb
      obtain ⟨rfl,rfl⟩ := Leaf.cons_inj.mp hn
      exact ⟨rfl,rfl⟩
    | _ => simp [Statement.opens,Grammar.opens] at hx
  | ret w e s =>
    cases d' with
    | ret w' e' s' =>
      simp only [Statement.yield,List.cons_append,List.append_assoc,List.nil_append,List.cons.injEq,
        Leaf.token_inj] at h
      obtain ⟨rfl,h⟩ := h
      obtain ⟨rfl,rfl,rfl⟩ := Level.unique_before (by decide) h
      exact ⟨rfl,rfl⟩
    | _ => simp [Statement.opens,Grammar.opens] at hx
  | expression e v s =>
    cases d' with
    | expression e' v' s' =>
      simp only [Statement.yield,List.append_assoc,List.singleton_append] at h
      obtain ⟨rfl,hv⟩ := e.unique e' (v.avoids (by decide) (s.avoids (by decide)))
        (v'.avoids (by decide) (s'.avoids (by decide))) h
      obtain ⟨rfl,rfl,rfl⟩ := Initial.unique_before hv
      exact ⟨rfl,rfl⟩
    | _ => simp [Statement.opens,Grammar.opens] at hx
termination_by structural d

theorem Block.unique (b b' : Block) {r r' : List Token} (hr : Avoids blockOpens r)
    (hr' : Avoids blockOpens r') (h : b.yield ++ r = b'.yield ++ r') : b = b' ∧ r = r' := by
  match b,b' with
  | .nil,.nil => exact ⟨rfl,h⟩
  | .nil,.cons first _ => exact absurd h (hr.ne first.starts_block.append.append)
  | .cons first _,.nil => exact absurd h.symm (hr'.ne first.starts_block.append.append)
  | .cons first rest,.cons first' rest' =>
    simp only [Block.yield,List.append_assoc] at h
    obtain ⟨rfl,hs⟩ := first.unique first' h
    obtain ⟨rfl,rfl⟩ := rest.unique rest' hr hr' hs
    exact ⟨rfl,rfl⟩
termination_by structural b

theorem Arms.unique (arms arms' : Arms) {r r' : List Token}
    (hr : Avoids (.word "CASE" :: blockOpens) r) (hr' : Avoids (.word "CASE" :: blockOpens) r')
    (h : arms.yield ++ r = arms'.yield ++ r') : arms = arms' ∧ r = r' := by
  match arms,arms' with
  | .nil,.nil => exact ⟨rfl,h⟩
  | .nil,.cons c _ _ _ _ => exact absurd h (hr.ne (c.starts.mono (by decide)))
  | .cons c _ _ _ _,.nil => exact absurd h.symm (hr'.ne (c.starts.mono (by decide)))
  | .cons c e o b rest,.cons c' e' o' b' rest' =>
    simp only [Arms.yield,List.cons_append,List.append_assoc,List.cons.injEq,Leaf.token_inj] at h
    obtain ⟨rfl,h⟩ := h
    obtain ⟨rfl,rfl,hb⟩ := Level.unique_before (by decide) h
    obtain ⟨rfl,hs⟩ := b.unique b'
      (rest.avoids (by decide) (hr.mono fun _ => List.mem_cons_of_mem _))
      (rest'.avoids (by decide) (hr'.mono fun _ => List.mem_cons_of_mem _)) hb
    obtain ⟨rfl,rfl⟩ := rest.unique rest' hr hr' hs
    exact ⟨rfl,rfl⟩
termination_by structural arms

theorem Else.unique (e e' : Else) {r r' : List Token} (hr : Avoids (.word "ELSE" :: blockOpens) r)
    (hr' : Avoids (.word "ELSE" :: blockOpens) r') (h : e.yield ++ r = e'.yield ++ r') :
    e = e' ∧ r = r' := by
  match e,e' with
  | .none,.none => exact ⟨rfl,h⟩
  | .none,.some l _ => exact absurd h (hr.ne (l.starts.mono (by decide)))
  | .some l _,.none => exact absurd h.symm (hr'.ne (l.starts.mono (by decide)))
  | .some l b,.some l' b' =>
    simp only [Else.yield,List.cons_append,List.cons.injEq,Leaf.token_inj] at h
    obtain ⟨rfl,h⟩ := h
    obtain ⟨rfl,rfl⟩ := b.unique b' (hr.mono fun _ => List.mem_cons_of_mem _)
      (hr'.mono fun _ => List.mem_cons_of_mem _) h
    exact ⟨rfl,rfl⟩
termination_by structural e
end

/-! ### Programs -/

theorem Global.unique {g g' : Global} (h : g.yield ++ r = g'.yield ++ r') : g = g' ∧ r = r' := by
  match g,g' with
  | .list l x a o b es c s,.list l' x' a' o' b' es' c' s' =>
    simp only [Global.yield,List.cons_append,List.append_assoc,List.nil_append,List.cons.injEq,
      Leaf.token_inj] at h
    obtain ⟨rfl,rfl,h⟩ := h
    obtain ⟨rfl,ho⟩ := Label.unique (o.avoids (by decide)) (o'.avoids (by decide)) h
    simp only [List.cons.injEq,Leaf.token_inj] at ho
    obtain ⟨rfl,rfl,he⟩ := ho
    obtain ⟨rfl,hc⟩ := es.unique es' (c.avoids (by decide)) (c'.avoids (by decide)) he
    simp only [List.cons.injEq,Leaf.token_inj] at hc
    obtain ⟨rfl,rfl,rfl⟩ := hc
    exact ⟨rfl,rfl⟩
  | .mutable l x a v s,.mutable l' x' a' v' s' =>
    simp only [Global.yield,List.cons_append,List.append_assoc,List.nil_append,List.cons.injEq,
      Leaf.token_inj] at h
    obtain ⟨rfl,rfl,h⟩ := h
    obtain ⟨rfl,rfl,rfl,rfl⟩ := Label.unique_before h
    exact ⟨rfl,rfl⟩
  | .immutable l x a o e s,.immutable l' x' a' o' e' s' =>
    simp only [Global.yield,List.cons_append,List.append_assoc,List.nil_append,List.cons.injEq,
      Leaf.token_inj] at h
    obtain ⟨rfl,rfl,h⟩ := h
    obtain ⟨rfl,ho⟩ := Label.unique (o.avoids (by decide)) (o'.avoids (by decide)) h
    obtain ⟨rfl,he⟩ := Leaf.cons_inj.mp ho
    obtain ⟨rfl,rfl,rfl⟩ := Level.unique_before (by decide) he
    exact ⟨rfl,rfl⟩
  | .list ..,.mutable .. | .list ..,.immutable .. | .mutable ..,.list .. | .mutable ..,.immutable ..
  | .immutable ..,.list .. | .immutable ..,.mutable .. =>
    exact (Leaf.clash (List.cons.inj h).1 (by decide)).elim

lemma Parameters.unique {ps ps' : Parameters} (hr : Avoids [.word ","] r)
    (hr' : Avoids [.word ","] r') (h : ps.yield ++ r = ps'.yield ++ r') : ps = ps' ∧ r = r' := by
  induction ps generalizing ps' with
  | one x c y =>
    cases ps' with
    | one =>
      simp only [Parameters.yield,List.cons_append,List.nil_append,List.cons.injEq,
        Leaf.token_inj] at h
      obtain ⟨rfl,rfl,rfl,rfl⟩ := h
      exact ⟨rfl,rfl⟩
    | cons _ _ _ o =>
      have ho : r = o.token :: _ := (List.cons.inj (List.cons.inj (List.cons.inj h).2).2).2
      exact absurd ho (hr.ne o.starts)
  | cons x c y o ps ih =>
    cases ps' with
    | one =>
      have ho : o.token :: _ = r' := (List.cons.inj (List.cons.inj (List.cons.inj h).2).2).2
      exact absurd ho.symm (hr'.ne o.starts)
    | cons =>
      simp only [Parameters.yield,List.cons_append,List.cons.injEq,Leaf.token_inj] at h
      obtain ⟨rfl,rfl,rfl,rfl,h⟩ := h
      obtain ⟨rfl,rfl⟩ := ih h
      exact ⟨rfl,rfl⟩

lemma Parameters.starts (ps : Parameters) : Starts [.name] ps.yield := by
  cases ps with
  | one x | cons x => exact x.starts

lemma Parameters.unique_option {ps ps' : Option Parameters} (hr : Avoids [.name,.word ","] r)
    (hr' : Avoids [.name,.word ","] r')
    (h : ps.elim [] Parameters.yield ++ r = ps'.elim [] Parameters.yield ++ r') :
    ps = ps' ∧ r = r' := by
  match ps,ps' with
  | none,none => exact ⟨rfl,h⟩
  | none,some ps => exact absurd h (hr.ne (ps.starts.append.mono (by decide)))
  | some ps,none => exact absurd h.symm (hr'.ne (ps.starts.append.mono (by decide)))
  | some ps,some ps' =>
    obtain ⟨rfl,rfl⟩ := Parameters.unique (hr.mono fun _ => List.mem_cons_of_mem _)
      (hr'.mono fun _ => List.mem_cons_of_mem _) h
    exact ⟨rfl,rfl⟩

theorem Function.unique {f f' : Function} (h : f.yield ++ r = f'.yield ++ r') :
    f = f' ∧ r = r' := by
  obtain ⟨f,x,o,ps,c,a,d,b,n⟩ := f
  obtain ⟨f',x',o',ps',c',a',d',b',n'⟩ := f'
  simp only [Function.yield,List.cons_append,List.append_assoc,List.nil_append,List.cons.injEq,
    Leaf.token_inj] at h
  obtain ⟨rfl,rfl,rfl,h⟩ := h
  obtain ⟨rfl,hc⟩ := Parameters.unique_option (c.avoids (by decide)) (c'.avoids (by decide)) h
  obtain ⟨rfl,ha⟩ := Leaf.cons_inj.mp hc
  obtain ⟨rfl,hd⟩ := Label.unique (d.avoids (by decide)) (d'.avoids (by decide)) ha
  obtain ⟨rfl,hb⟩ := Leaf.cons_inj.mp hd
  obtain ⟨rfl,hn⟩ := b.unique b' (n.avoids (by decide)) (n'.avoids (by decide)) hb
  obtain ⟨rfl,rfl⟩ := Leaf.cons_inj.mp hn
  exact ⟨rfl,rfl⟩

/-- Items that stop by themselves form one list only, as long as what follows starts no item. -/
lemma unique_flatMap {α : Type} {yield : α → List Token}
    (hone : ∀ {a a' r r'}, yield a ++ r = yield a' ++ r' → a = a' ∧ r = r')
    (hstarts : ∀ a, Starts xs (yield a)) {as as' : List α} (hr : Avoids xs r) (hr' : Avoids xs r')
    (h : as.flatMap yield ++ r = as'.flatMap yield ++ r') : as = as' ∧ r = r' := by
  induction as generalizing as' with
  | nil =>
    cases as' with
    | nil => exact ⟨rfl,h⟩
    | cons a as' =>
      rw [List.flatMap_nil,List.nil_append,List.flatMap_cons] at h
      exact absurd h (hr.ne (hstarts a).append.append)
  | cons a as ih =>
    cases as' with
    | nil =>
      rw [List.flatMap_nil,List.nil_append,List.flatMap_cons] at h
      exact absurd h.symm (hr'.ne (hstarts a).append.append)
    | cons a' as' =>
      rw [List.flatMap_cons,List.flatMap_cons,List.append_assoc,List.append_assoc] at h
      obtain ⟨rfl,hs⟩ := hone h
      obtain ⟨rfl,rfl⟩ := ih hs
      exact ⟨rfl,rfl⟩

def globalOpens : List Terminal := [.word "LIST",.word "VAR",.word "VAL"]

lemma Global.starts (g : Global) : Starts globalOpens g.yield := by
  cases g with
  | list l | mutable l | immutable l => exact l.starts.mono (by decide)

lemma Function.starts (f : Function) : Starts [.word "FUN"] f.yield := by
  obtain ⟨f,_⟩ := f
  exact f.starts

lemma Avoids.nil : Avoids xs [] := by
  intro t ht
  cases ht

lemma Function.avoids_globals (fs : List Function) :
    Avoids globalOpens (fs.flatMap Function.yield) := by
  match fs with
  | [] => exact .nil
  | .mk f .. :: _ => exact f.avoids (by decide)

/-- A list of tokens has at most one derivation. -/
theorem Source.unique {d d' : Source} (h : d.yield = d'.yield) : d = d' := by
  obtain ⟨gs,fs⟩ := d
  obtain ⟨gs',fs'⟩ := d'
  obtain ⟨rfl,hf⟩ := unique_flatMap Global.unique Global.starts (Function.avoids_globals fs)
    (Function.avoids_globals fs') h
  rw [← List.append_nil (fs.flatMap _),← List.append_nil (fs'.flatMap _)] at hf
  obtain ⟨rfl,_⟩ := unique_flatMap Function.unique Function.starts .nil .nil hf
  rfl

end BlockScript.Grammar
