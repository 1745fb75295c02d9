import BlockScript.Proofs.Syntax.Literals
import BlockScript.Proofs.Syntax.Normal
import BlockScript.Proofs.Syntax.Render
/-! Changed tokens and the tree that they spell. -/
namespace BlockScript

/-- A change of tokens that changes no more in a tree than its literals. -/
structure Token.Recasts (g : Token → Token) (f : Literal → Literal) : Prop where
  word : ∀ {t : Token} {w : String}, t.is w = true → w ∈ keywords ++ marks → (g t).is w = true
  name : ∀ {t : Token}, t.isName = true → (g t).isName = true ∧ (g t).text = t.text
  operator : ∀ {t : Token} {op : Operator}, t.operator? = some op → (g t).operator? = some op
  literal : ∀ {t : Token} {v : Literal}, t.literal? = some v → (g t).literal? = some (f v)

section
variable {g : Token → Token} {f : Literal → Literal}

mutual
lemma Expr.Spells.recast {k : Nat} {e : Expr} {ts : List Token} (h : e.Spells k ts)
    (hg : Token.Recasts g f) : (e.mapLiterals f).Spells k (ts.map g) := by
  match h with
  | .primary h => exact .primary (h.recast hg)
  | .chain hl h =>
    rw [List.map_append]
    exact .chain (hl.recast hg) (h.recast hg)

lemma Expr.Tail.recast {k : Nat} {l e : Expr} {ts : List Token} (h : Expr.Tail k l e ts)
    (hg : Token.Recasts g f) : Expr.Tail k (l.mapLiterals f) (e.mapLiterals f) (ts.map g) := by
  match h with
  | .nil => exact .nil
  | .cons ho hk hr h =>
    rw [List.map_cons,List.map_append]
    exact .cons (hg.operator ho) hk (hr.recast hg) (h.recast hg)

lemma Expr.Primary.recast {e : Expr} {ts : List Token} (h : Expr.Primary e ts)
    (hg : Token.Recasts g f) : Expr.Primary (e.mapLiterals f) (ts.map g) := by
  match h with
  | .literal h => exact .literal (hg.literal h)
  | .group ho h hc =>
    simp only [List.map_cons,List.map_append,List.map_nil]
    exact .group (hg.word ho (by decide)) (h.recast hg) (hg.word hc (by decide))
  | .ref hx =>
    obtain ⟨hx,hn⟩ := hg.name hx
    rw [← hn]
    exact .ref hx
  | .element hx ho h hc =>
    obtain ⟨hx,hn⟩ := hg.name hx
    simp only [List.map_cons,List.map_append,List.map_nil]
    rw [← hn]
    exact .element hx (hg.word ho (by decide)) (h.recast hg) (hg.word hc (by decide))
  | .call hx ho h hc =>
    obtain ⟨hx,hn⟩ := hg.name hx
    simp only [List.map_cons,List.map_append,List.map_nil]
    rw [← hn]
    exact .call hx (hg.word ho (by decide)) (h.recast hg) (hg.word hc (by decide))

lemma Expr.Arguments.recast {es : List Expr} {ts : List Token} (h : Expr.Arguments es ts)
    (hg : Token.Recasts g f) : Expr.Arguments (Expr.mapLiteralsAll f es) (ts.map g) := by
  match h with
  | .nil => exact .nil
  | .items h => exact .items (h.recast hg)

lemma Expr.Items.recast {es : List Expr} {ts : List Token} (h : Expr.Items es ts)
    (hg : Token.Recasts g f) : Expr.Items (Expr.mapLiteralsAll f es) (ts.map g) := by
  match h with
  | .one h => exact .one (h.recast hg)
  | .cons h hc hs =>
    rw [List.map_append,List.map_cons]
    exact .cons (h.recast hg) (hg.word hc (by decide)) (hs.recast hg)
end

lemma TypeLabel.recast {a : Option String} {ts : List Token} (h : TypeLabel a ts)
    (hg : Token.Recasts g f) : TypeLabel a (ts.map g) := by
  cases h with
  | none => exact .none
  | some hc hx =>
    obtain ⟨hx,hn⟩ := hg.name hx
    rw [← hn]
    exact .some (hg.word hc (by decide)) hx

lemma Initial.recast {v : Option Expr} {ts : List Token} (h : Initial v ts)
    (hg : Token.Recasts g f) : Initial (v.map (Expr.mapLiterals f)) (ts.map g) := by
  cases h with
  | none => exact .none
  | some ho h => exact .some (hg.word ho (by decide)) (h.recast hg)

lemma Expr.receiver?_mapLiterals (e : Expr) : (e.mapLiterals f).receiver? = e.receiver? := by
  cases e <;> rfl

mutual
lemma Stmt.Spells.recast {s : Stmt} {ts : List Token} (h : s.Spells ts) (hg : Token.Recasts g f) :
    (s.mapLiterals f).Spells (ts.map g) := by
  match h with
  | .expression h hs =>
    rw [List.map_append]
    exact .expression (h.recast hg) (hg.word hs (by decide))
  | .assignment hr hx ho h hs =>
    rw [← Expr.receiver?_mapLiterals (f := f)] at hx
    simp only [List.map_append,List.map_cons,List.map_nil]
    exact .assignment (hr.recast hg) hx (hg.word ho (by decide)) (h.recast hg) (hg.word hs (by decide))
  | .declaration hl hx ha hv hs =>
    obtain ⟨hx,hn⟩ := hg.name hx
    simp only [List.map_append,List.map_cons,List.map_nil]
    rw [← hn]
    exact .declaration (hg.word hl (by decide)) hx (ha.recast hg) (hv.recast hg) (hg.word hs (by decide))
  | .ifOnly hi hc hd ha hn =>
    simp only [List.map_append,List.map_cons,List.map_nil]
    exact .ifOnly (hg.word hi (by decide)) (hc.recast hg) (hg.word hd (by decide)) (ha.recast hg)
      (hg.word hn (by decide))
  | .ifElse hi hc hd ha hl hb hn =>
    simp only [List.map_append,List.map_cons,List.map_nil]
    exact .ifElse (hg.word hi (by decide)) (hc.recast hg) (hg.word hd (by decide)) (ha.recast hg)
      (hg.word hl (by decide)) (hb.recast hg) (hg.word hn (by decide))
  | .switch hs hc h hn =>
    simp only [List.map_append,List.map_cons,List.map_nil]
    exact .switch (hg.word hs (by decide)) (hc.recast hg) (h.recast hg) (hg.word hn (by decide))
  | .loop hw hc hd ha hn =>
    simp only [List.map_append,List.map_cons,List.map_nil]
    exact .loop (hg.word hw (by decide)) (hc.recast hg) (hg.word hd (by decide)) (ha.recast hg)
      (hg.word hn (by decide))
  | .ret hr h hs =>
    simp only [List.map_append,List.map_cons,List.map_nil]
    exact .ret (hg.word hr (by decide)) (h.recast hg) (hg.word hs (by decide))

lemma Stmt.Block.recast {ss : List Stmt} {ts : List Token} (h : Stmt.Block ss ts)
    (hg : Token.Recasts g f) : Stmt.Block (Stmt.mapLiteralsBlock f ss) (ts.map g) := by
  match h with
  | .nil => exact .nil
  | .cons h hs =>
    rw [List.map_append]
    exact .cons (h.recast hg) (hs.recast hg)

lemma Case.Arms.recast {cs : List Case} {ts : List Token} (h : Case.Arms cs ts)
    (hg : Token.Recasts g f) : Case.Arms (Case.mapLiteralsAll f cs) (ts.map g) := by
  match h with
  | .default hd h => exact .default (hg.word hd (by decide)) (h.recast hg)
  | .value hc he ho ha h =>
    simp only [List.map_append,List.map_cons]
    exact .value (hg.word hc (by decide)) (he.recast hg) (hg.word ho (by decide)) (ha.recast hg)
      (h.recast hg)
end

lemma Global.Spells.recast {d : Global} {ts : List Token} (h : d.Spells ts) (hg : Token.Recasts g f) :
    (d.mapLiterals f).Spells (ts.map g) := by
  cases h with
  | list hl hx ha ho hb h hc hs =>
    obtain ⟨hx,hn⟩ := hg.name hx
    simp only [List.map_append,List.map_cons,List.map_nil]
    rw [← hn]
    exact .list (hg.word hl (by decide)) hx (ha.recast hg) (hg.word ho (by decide))
      (hg.word hb (by decide)) (h.recast hg) (hg.word hc (by decide)) (hg.word hs (by decide))
  | mutable hl hx ha hv hs =>
    obtain ⟨hx,hn⟩ := hg.name hx
    simp only [List.map_append,List.map_cons,List.map_nil]
    rw [← hn]
    exact .mutable (hg.word hl (by decide)) hx (ha.recast hg) (hv.recast hg) (hg.word hs (by decide))
  | immutable hl hx ha ho h hs =>
    obtain ⟨hx,hn⟩ := hg.name hx
    simp only [List.map_append,List.map_cons,List.map_nil]
    rw [← hn]
    exact .immutable (hg.word hl (by decide)) hx (ha.recast hg) (hg.word ho (by decide)) (h.recast hg)
      (hg.word hs (by decide))

lemma Function.Parameters.recast {ps : List (String × String)} {ts : List Token}
    (h : Function.Parameters ps ts) (hg : Token.Recasts g f) : Function.Parameters ps (ts.map g) := by
  induction h with
  | one hx hc ht =>
    obtain ⟨hx,hn⟩ := hg.name hx
    obtain ⟨ht,hm⟩ := hg.name ht
    rw [← hn,← hm]
    exact .one hx (hg.word hc (by decide)) ht
  | cons hx hc ht ho _ ih =>
    obtain ⟨hx,hn⟩ := hg.name hx
    obtain ⟨ht,hm⟩ := hg.name ht
    rw [← hn,← hm]
    exact .cons hx (hg.word hc (by decide)) ht (hg.word ho (by decide)) ih

lemma Function.Spells.recast {d : Function} {ts : List Token} (h : d.Spells ts)
    (hg : Token.Recasts g f) : (d.mapLiterals f).Spells (ts.map g) := by
  cases h with
  | @mk _ _ _ ps ts _ _ _ _ _ _ _ hf hx ho hp hc ha hd hb hn =>
    obtain ⟨hx,hname⟩ := hg.name hx
    have hps : (ps = [] ∧ ts.map g = []) ∨ Function.Parameters ps (ts.map g) :=
      hp.imp (fun hp => ⟨hp.1,List.map_eq_nil_iff.mpr hp.2⟩) fun hp => hp.recast hg
    simp only [List.map_append,List.map_cons,List.map_nil]
    rw [← hname]
    exact .mk (hg.word hf (by decide)) hx (hg.word ho (by decide)) hps (hg.word hc (by decide))
      (ha.recast hg) (hg.word hd (by decide)) (hb.recast hg) (hg.word hn (by decide))

lemma Sequence.recast {α : Type} {P : α → List Token → Prop} {r : α → α} {as : List α}
    {ts : List Token} (h : Sequence P as ts) (hP : ∀ a ts, P a ts → P (r a) (ts.map g)) :
    Sequence P (as.map r) (ts.map g) := by
  induction h with
  | nil => exact .nil
  | cons h _ ih =>
    rw [List.map_append]
    exact .cons (hP _ _ h) ih

theorem Program.Spells.recast {p : Program} {ts : List Token} (h : p.Spells ts)
    (hg : Token.Recasts g f) : (p.mapLiterals f).Spells (ts.map g) := by
  obtain ⟨us,vs,rfl,hgs,hfs⟩ := h
  rw [List.map_append]
  exact ⟨_,_,rfl,hgs.recast fun _ _ h => h.recast hg,hfs.recast fun _ _ h => h.recast hg⟩

end

end BlockScript
