import BlockScript.Proofs.Syntax.Sound
import Mathlib.Data.List.Basic
/-! Every expression is read from the tokens that spell it, if what follows does not go on with it. -/
namespace BlockScript

/-- A token whose class goes with its text: brackets are operators and keywords are identifiers. -/
structure Token.Sane (t : Token) : Prop where
  bracket : t.text ∈ ["(",")","]"] → t.kind = .operator
  keyword : t.text ∈ Token.keywords → t.kind = .identifier

namespace Reader
variable {α β : Type}

/-- The next token, if there is one, has another text. -/
def Avoids (text : String) (ts : List Token) : Prop := ∀ t ∈ ts.head?, t.is text = false

lemma Avoids.of_is {t : Token} {text other : String} {ts : List Token} (h : t.is text = true)
    (hne : text ≠ other) : Avoids other (t :: ts) := by
  intro _ ht
  cases ht
  simp only [Token.is,beq_iff_eq,beq_eq_false_iff_ne] at h ⊢
  exact h ▸ hne

lemma accept_true {text : String} {t : Token} {ts : List Token} (h : t.is text = true) :
    accept text (t :: ts) = .ok true ts := by
  rw [accept_eq,if_pos h]

lemma accept_false {text : String} {ts : List Token} (h : Avoids text ts) :
    accept text ts = .ok false ts := by
  cases ts with
  | nil => rfl
  | cons t ts =>
    rw [accept_eq,h t rfl]
    rfl

lemma expect_ok {text : String} {cause : ReadError.Cause} {t : Token} {ts : List Token}
    (h : t.is text = true) : expect text cause (t :: ts) = .ok () ts := by
  unfold expect
  rw [bind_ok (accept_true h)]
  rfl

lemma expectName_ok {cause : ReadError.Cause} {t : Token} {ts : List Token} (h : t.isName = true) :
    expectName cause (t :: ts) = .ok t.text ts := by
  change (if t.isName = true then (do skip; return t.text : Reader String)
    else throw cause) (t :: ts) = _
  rw [if_pos h]
  rfl

lemma acceptOperator_eq (level : Operator.Level) (t : Token) (ts : List Token) :
    acceptOperator level (t :: ts) = match t.operator? with
      | some op => if op.level = level then .ok (some op) ts else .ok none (t :: ts)
      | none => .ok none (t :: ts) := by
  change (if (t.kind == .operator) = true then (match Operator.ofSymbol? t.text with
      | some op => if (op.level == level) = true then (do skip; return some op) else return none
      | none => return none : Reader (Option Operator)) else return none) (t :: ts) = _
  unfold Token.operator?
  by_cases hk : (t.kind == .operator) = true
  · rw [if_pos hk,if_pos hk]
    cases Operator.ofSymbol? t.text with
    | none => rfl
    | some op =>
      by_cases hl : op.level = level
      · simp only [hl,beq_self_eq_true,↓reduceIte]
        rfl
      · simp only [beq_iff_eq,hl,↓reduceIte]
        rfl
  · rw [if_neg hk,if_neg hk]
    rfl

/-- The next token, if there is one, is no operator up to the given height, and opens neither
arguments nor an index. -/
structure Ends (k : Nat) (ts : List Token) : Prop where
  operator : ∀ t ∈ ts.head?, ∀ op, t.operator? = some op → k < op.height
  parenthesis : Avoids "(" ts
  bracket : Avoids "[" ts

lemma Ends.of_le {j k : Nat} {ts : List Token} (h : Ends k ts) (hj : j ≤ k) : Ends j ts :=
  ⟨fun t ht op hop => Nat.lt_of_le_of_lt hj (h.operator t ht op hop),h.parenthesis,h.bracket⟩

lemma Ends.of_is {k : Nat} {t : Token} {text : String} {ts : List Token} (h : t.is text = true)
    (hsymbol : Operator.ofSymbol? text = none) (hp : text ≠ "(") (hb : text ≠ "[") :
    Ends k (t :: ts) := by
  refine ⟨?_,.of_is h hp,.of_is h hb⟩
  rintro _ ⟨⟩ op hop
  simp only [Token.is,beq_iff_eq] at h
  unfold Token.operator? at hop
  rw [h,hsymbol] at hop
  split at hop <;> cases hop

lemma Ends.of_operator {k : Nat} {t : Token} {op : Operator} {ts : List Token}
    (h : t.operator? = some op) (hk : k < op.height) : Ends k (t :: ts) := by
  have hne : ∀ text, Operator.ofSymbol? text = none → Avoids text (t :: ts) := by
    intro text hn _ ht
    cases ht
    unfold Token.operator? at h
    split at h
    · simp only [Token.is,beq_eq_false_iff_ne]
      rintro rfl
      rw [hn] at h
      cases h
    · cases h
  refine ⟨?_,hne _ rfl,hne _ rfl⟩
  rintro _ ⟨⟩ op' hop
  obtain rfl : op = op' := Option.some.inj (h.symm.trans hop)
  exact hk

/-- The level that adds its operators to those of a height. -/
def levelAbove : Nat → Operator.Level
  | 0 => .multiplicative
  | 1 => .additive
  | 2 => .comparison
  | _ => .logical

lemma levelAbove_eq {k : Nat} {op : Operator} (h : op.height = k + 1) : levelAbove k = op.level := by
  unfold Operator.height at h
  generalize op.level = l at h
  match k,l with
  | 0,.multiplicative | 1,.additive | 2,.comparison | 3,.logical => rfl
  | 0,.additive | 0,.comparison | 0,.logical => cases h
  | 1,.multiplicative | 1,.comparison | 1,.logical => cases h
  | 2,.multiplicative | 2,.additive | 2,.logical => cases h
  | k + 3,.multiplicative | k + 3,.additive | k + 3,.comparison => cases h
  | k + 4,.logical => cases h

lemma levelAbove_height (k : Nat) : (levelAbove k).height ≤ k + 1 := by
  match k with
  | 0 | 1 | 2 => exact Nat.le_refl _
  | k + 3 => exact Nat.le_add_left 4 k

/-- The rule for expressions of a height, given the rule for the expressions inside them. -/
def atHeight (expression : Reader Expr) : Nat → Reader Expr
  | 0 => operand expression
  | k + 1 => joined (levelAbove k) (atHeight expression k)

lemma acceptOperator_none {k : Nat} {ts : List Token} (h : Ends (k + 1) ts) :
    acceptOperator (levelAbove k) ts = .ok none ts := by
  cases ts with
  | nil => rfl
  | cons t ts =>
    rw [acceptOperator_eq]
    cases ht : t.operator? with
    | none => rfl
    | some op =>
      have hop := h.operator t rfl op ht
      have hle := levelAbove_height k
      have hne : op.level ≠ levelAbove k := by
        intro he
        rw [Operator.height,he] at hop
        omega
      simp only [hne,↓reduceIte]

/-- Expressions start with a token that neither closes anything nor is a keyword of a statement. -/
structure Starts (t : Token) : Prop where
  closing : t.text ∉ [")","]"]
  keyword : t.text ∈ Token.keywords → t.text ∈ ["NIL","TRUE","FALSE"]

lemma Starts.of_isName {t : Token} (h : t.isName = true) (hs : t.Sane) : Starts t := by
  simp only [Token.isName,Bool.and_eq_true,beq_iff_eq,Bool.not_eq_true'] at h
  refine ⟨fun hc => ?_,fun hk => ?_⟩
  · have := hs.bracket (List.mem_cons_of_mem _ hc)
    rw [h.1] at this
    cases this
  · have := List.contains_iff_mem.mpr hk
    rw [h.2] at this
    cases this

lemma Starts.of_literal {t : Token} {v : Literal} (h : t.literal? = some v) (hs : t.Sane) :
    Starts t := by
  have hop : t.kind ≠ .operator := by
    intro hk
    rw [Token.literal?,hk] at h
    cases h
  refine ⟨fun hc => hop (hs.bracket (List.mem_cons_of_mem _ hc)),fun hk => ?_⟩
  rw [Token.literal?,hs.keyword hk] at h
  simp only [Token.is,beq_iff_eq] at h
  split at h
  · next he => simp [he]
  · split at h
    · next he => simp [he]
    · split at h
      · next he => simp [he]
      · cases h

end Reader

open Reader

lemma Expr.Primary.starts {e : Expr} {ts : List Token} (h : Expr.Primary e ts)
    (hs : ∀ t ∈ ts, t.Sane) : ∃ t us, ts = t :: us ∧ Starts t := by
  cases h with
  | literal h => exact ⟨_,_,rfl,.of_literal h (hs _ List.mem_cons_self)⟩
  | group ho h hc =>
    refine ⟨_,_,rfl,?_⟩
    simp only [Token.is,beq_iff_eq] at ho
    exact ⟨by simp [ho],by rw [ho]; decide⟩
  | ref hx => exact ⟨_,_,rfl,.of_isName hx (hs _ List.mem_cons_self)⟩
  | element hx ho h hc => exact ⟨_,_,rfl,.of_isName hx (hs _ List.mem_cons_self)⟩
  | call hx ho h hc => exact ⟨_,_,rfl,.of_isName hx (hs _ List.mem_cons_self)⟩

lemma Expr.Spells.starts {k : Nat} {e : Expr} {ts : List Token} (h : Expr.Spells k e ts)
    (hs : ∀ t ∈ ts, t.Sane) : ∃ t us, ts = t :: us ∧ Starts t := by
  match h with
  | .primary h => exact h.starts hs
  | .chain hl _ =>
    obtain ⟨t,us,rfl,ht⟩ := hl.starts fun t ht => hs t (List.mem_append_left _ ht)
    exact ⟨t,_,rfl,ht⟩

lemma Expr.Spells.length_pos {k : Nat} {e : Expr} {ts : List Token} (h : Expr.Spells k e ts) :
    0 < ts.length := by
  match h with
  | .primary h => cases h <;> simp
  | .chain hl _ =>
    have := hl.length_pos
    rw [List.length_append]
    omega

namespace Reader

lemma operand_literal {expression : Reader Expr} {t : Token} {v : Literal} {ts : List Token}
    (h : t.literal? = some v) : operand expression (t :: ts) = .ok (.literal v none) ts := by
  have hlit : ∀ {cause : ReadError.Cause}, literal (some v) cause (t :: ts) =
      .ok (.literal v none) ts := rfl
  have hpeek : peek (t :: ts) = .ok (some t) (t :: ts) := rfl
  unfold operand
  rw [bind_ok hpeek]
  unfold Token.literal? at h
  cases hk : t.kind <;> simp only [hk] at h ⊢
  case operator => cases h
  case identifier =>
    split at h
    · next hn => rw [if_pos hn]; cases h; rfl
    · next hn =>
      split at h
      · next ht => rw [if_neg hn,if_pos ht]; cases h; rfl
      · next ht =>
        split at h
        · next hf => rw [if_neg hn,if_neg ht,if_pos hf]; cases h; rfl
        · cases h
  all_goals rw [h]; exact hlit

lemma operand_name {expression : Reader Expr} {x : Token} {ts : List Token} (hx : x.isName = true) :
    operand expression (x :: ts) = named expression x.text ts := by
  have hpeek : peek (x :: ts) = .ok (some x) (x :: ts) := rfl
  simp only [Token.isName,Bool.and_eq_true,beq_iff_eq,Bool.not_eq_true'] at hx
  obtain ⟨hk,hn⟩ := hx
  have hne : ∀ text ∈ Token.keywords, x.is text = false := by
    intro text ht
    simp only [Token.is,beq_eq_false_iff_ne]
    rintro rfl
    rw [List.contains_iff_mem.mpr ht] at hn
    cases hn
  unfold operand
  rw [bind_ok hpeek]
  simp only [hk,hne "NIL" (by decide),hne "TRUE" (by decide),hne "FALSE" (by decide),
    Token.isKeyword,hn,Bool.and_false,Bool.false_eq_true,↓reduceIte]
  rfl

lemma operand_parenthesis {expression : Reader Expr} {o : Token} {ts : List Token}
    (ho : o.is "(" = true) (hs : o.Sane) : operand expression (o :: ts) = (do
      let inner ← expression
      expect ")" .expectedCloseParenthesis
      return .group inner none : Reader Expr) ts := by
  have hpeek : peek (o :: ts) = .ok (some o) (o :: ts) := rfl
  have hk : o.kind = .operator := hs.bracket (by
    simp only [Token.is,beq_iff_eq] at ho
    simp [ho])
  unfold operand
  rw [bind_ok hpeek]
  simp only [hk,ho,↓reduceIte]
  rfl

lemma named_ref {expression : Reader Expr} {x : String} {ts : List Token} (hp : Avoids "(" ts)
    (hb : Avoids "[" ts) : named expression x ts = .ok (.ref x none none) ts := by
  unfold named
  rw [bind_ok (accept_false hp)]
  change (accept "[" >>= _) ts = _
  rw [bind_ok (accept_false hb)]
  rfl

lemma named_element {expression : Reader Expr} {x : String} {o : Token} {ts : List Token}
    (ho : o.is "[" = true) : named expression x (o :: ts) = (do
      let index ← expression
      expect "]" .expectedCloseBracket
      return .element x index none none : Reader Expr) ts := by
  unfold named
  rw [bind_ok (accept_false (.of_is ho (by decide)))]
  change (accept "[" >>= _) (o :: ts) = _
  rw [bind_ok (accept_true ho)]
  rfl

lemma named_call {expression : Reader Expr} {x : String} {o : Token} {ts : List Token}
    (ho : o.is "(" = true) : named expression x (o :: ts) = (do
      return .call x (← arguments expression ")" .expectedCloseParenthesis) none none :
        Reader Expr) ts := by
  unfold named
  rw [bind_ok (accept_true ho)]
  rfl

section
variable {expression : Reader Expr} {closing : String} {cause : ReadError.Cause} {a c o : Token}
  {e : Expr} {es : List Expr} {ahead ts mid rest : List Token}

lemma items_one (he : expression ts = .ok e (c :: rest)) (hc : c.is closing = true) :
    items expression closing cause (a :: ahead) ts = .ok [e] rest := by
  unfold items
  rw [bind_ok he,bind_ok (accept_true hc)]
  rfl

lemma items_cons (he : expression ts = .ok e (o :: mid)) (ho : o.is "," = true)
    (hclosing : closing ∈ [")","]"])
    (hes : items expression closing cause ahead mid = .ok es rest) :
    items expression closing cause (a :: ahead) ts = .ok (e :: es) rest := by
  have hopen : Avoids closing (o :: mid) := .of_is ho (by
    rintro rfl
    simp at hclosing)
  unfold items
  rw [bind_ok he,bind_ok (accept_false hopen)]
  change (expect "," cause >>= _) _ = _
  rw [bind_ok (expect_ok ho),bind_ok hes]
  rfl

lemma arguments_nil (hc : c.is closing = true) :
    arguments expression closing cause (c :: rest) = .ok [] rest := by
  unfold arguments
  rw [bind_ok (accept_true hc)]
  rfl

lemma arguments_items {t : Token} (ht : Starts t) (hclosing : closing ∈ [")","]"])
    (hes : items expression closing cause (t :: ts) (t :: ts) = .ok es rest) :
    arguments expression closing cause (t :: ts) = .ok es rest := by
  have hopen : Avoids closing (t :: ts) := by
    intro _ ht
    cases ht
    simp only [Token.is,beq_eq_false_iff_ne]
    rintro rfl
    exact ht.closing hclosing
  unfold arguments
  rw [bind_ok (accept_false hopen)]
  exact hes

lemma Ends.of_closing {k : Nat} (hc : c.is closing = true) (hclosing : closing ∈ [")","]"]) :
    Ends k (c :: rest) := by
  rcases List.mem_cons.mp hclosing with rfl | hclosing
  · exact .of_is hc rfl (by decide) (by decide)
  · rcases List.mem_cons.mp hclosing with rfl | hclosing
    · exact .of_is hc rfl (by decide) (by decide)
    · cases hclosing

end

end Reader

lemma Expr.Tail.ends {k : Nat} {l e : Expr} {ts rest : List Token} (h : Expr.Tail k l e ts)
    (hr : Ends (k + 1) rest) : Ends k (ts ++ rest) := by
  cases h with
  | nil => exact hr.of_le (Nat.le_succ k)
  | cons ho hk hr h => exact .of_operator ho (by omega)

lemma Expr.Items.length_pos {es : List Expr} {ts : List Token} (h : Expr.Items es ts) :
    0 < ts.length := by
  cases h with
  | one h => exact h.length_pos
  | cons h => rw [List.length_append,List.length_cons]; omega

lemma Expr.Items.starts {es : List Expr} {ts : List Token} (h : Expr.Items es ts)
    (hs : ∀ t ∈ ts, t.Sane) : ∃ t us, ts = t :: us ∧ Starts t := by
  cases h with
  | one h => exact h.starts hs
  | cons h =>
    obtain ⟨t,us,rfl,ht⟩ := h.starts fun t ht => hs t (List.mem_append_left _ ht)
    exact ⟨t,_,rfl,ht⟩

mutual
/-- An expression is read whole where nothing follows that goes on with it. Each expression inside
it is shorter by a token at least, as the bound is. -/
theorem Expr.Spells.reads {k : Nat} {e : Expr} {ts : List Token} (h : Expr.Spells k e ts)
    (hs : ∀ t ∈ ts, t.Sane) {fuel : List Token} (hf : ts.length ≤ fuel.length + 1)
    {rest : List Token} (hr : Ends k rest) :
    atHeight (recursive expressionRule fuel) k (ts ++ rest) = .ok e rest := by
  match h with
  | .primary h => exact h.reads hs hf hr
  | @Expr.Spells.chain k l e ts us hl h =>
    rw [List.length_append] at hf
    have hleft := hl.reads (fun t ht => hs t (List.mem_append_left _ ht))
      (show ts.length ≤ fuel.length + 1 by omega) (h.ends hr)
    rw [List.append_assoc]
    change (atHeight _ k >>= fun l => bounded (operators (levelAbove k) (atHeight _ k) l)) _ = _
    rw [bind_ok hleft]
    exact h.reads (fun t ht => hs t (List.mem_append_right _ ht)) (by omega) (by simp) hr

/-- The operators of a height after an operand are all read. -/
theorem Expr.Tail.reads {k : Nat} {l e : Expr} {ts : List Token} (h : Expr.Tail k l e ts)
    (hs : ∀ t ∈ ts, t.Sane) {fuel : List Token} (hf : ts.length ≤ fuel.length + 1)
    {ahead : List Token} (ha : ts.length ≤ ahead.length) {rest : List Token}
    (hr : Ends (k + 1) rest) :
    operators (levelAbove k) (atHeight (recursive expressionRule fuel) k) l ahead (ts ++ rest) =
      .ok e rest := by
  match h with
  | .nil =>
    cases ahead with
    | nil => rfl
    | cons _ ahead =>
      rw [operators,List.nil_append,bind_ok (acceptOperator_none hr)]
      rfl
  | @Expr.Tail.cons k l r e op o ts us ho hk h' h =>
    simp only [List.length_cons,List.length_append] at hf ha
    cases ahead with
    | nil => simp at ha
    | cons _ ahead =>
      have hop : acceptOperator (levelAbove k) (o :: (ts ++ (us ++ rest))) =
          .ok (some op) (ts ++ (us ++ rest)) := by
        rw [acceptOperator_eq,ho]
        simp only [levelAbove_eq hk,↓reduceIte]
      have hright := h'.reads
        (fun t ht => hs t (List.mem_cons_of_mem _ (List.mem_append_left _ ht)))
        (show ts.length ≤ fuel.length + 1 by omega) (h.ends hr)
      rw [operators,List.cons_append,List.append_assoc,bind_ok hop]
      dsimp only
      rw [bind_ok hright]
      rw [List.length_cons] at ha
      exact h.reads (fun t ht => hs t (List.mem_cons_of_mem _ (List.mem_append_right _ ht)))
        (by omega) (by omega) hr

theorem Expr.Primary.reads {e : Expr} {ts : List Token} (h : Expr.Primary e ts)
    (hs : ∀ t ∈ ts, t.Sane) {fuel : List Token} (hf : ts.length ≤ fuel.length + 1)
    {rest : List Token} (hr : Ends 0 rest) :
    operand (recursive expressionRule fuel) (ts ++ rest) = .ok e rest := by
  match h with
  | .literal h => exact operand_literal h
  | @Expr.Primary.group o e ts c ho h hc =>
    simp only [List.length_cons,List.length_append,List.length_nil] at hf
    have hpos := h.length_pos
    obtain _ | ⟨_,fuel⟩ := fuel
    · simp only [List.length_nil] at hf; omega
    rw [List.length_cons] at hf
    have hinner := h.reads
      (fun t ht => hs t (List.mem_cons_of_mem _ (List.mem_append_left _ ht)))
      (show ts.length ≤ fuel.length + 1 by omega)
      (show Ends 4 (c :: rest) from .of_is hc rfl (by decide) (by decide))
    rw [List.cons_append,operand_parenthesis ho (hs o List.mem_cons_self),List.append_assoc]
    change (atHeight _ 4 >>= fun inner => _) _ = _
    rw [List.singleton_append,bind_ok hinner,bind_ok (expect_ok hc)]
    rfl
  | .ref hx =>
    rw [List.singleton_append,operand_name hx]
    exact named_ref hr.parenthesis hr.bracket
  | @Expr.Primary.element x o i ts c hx ho h hc =>
    simp only [List.length_cons,List.length_append,List.length_nil] at hf
    have hpos := h.length_pos
    obtain _ | ⟨_,fuel⟩ := fuel
    · simp only [List.length_nil] at hf; omega
    rw [List.length_cons] at hf
    have hinner := h.reads
      (fun t ht => hs t (List.mem_cons_of_mem _ (List.mem_cons_of_mem _ (List.mem_append_left _ ht))))
      (show ts.length ≤ fuel.length + 1 by omega)
      (show Ends 4 (c :: rest) from .of_is hc rfl (by decide) (by decide))
    rw [List.cons_append,operand_name hx,List.cons_append,List.append_assoc,named_element ho]
    change (atHeight _ 4 >>= fun inner => _) _ = _
    rw [List.singleton_append,bind_ok hinner,bind_ok (expect_ok hc)]
    rfl
  | @Expr.Primary.call x o es ts c hx ho h hc =>
    simp only [List.length_cons,List.length_append,List.length_nil] at hf
    have hargs : arguments (recursive expressionRule fuel) ")" .expectedCloseParenthesis
        (ts ++ c :: rest) = .ok es rest :=
      h.reads
        (fun t ht => hs t (List.mem_cons_of_mem _ (List.mem_cons_of_mem _ (List.mem_append_left _ ht))))
        (show ts.length ≤ fuel.length by omega) (by simp) hc
    rw [List.cons_append,operand_name hx,List.cons_append,List.append_assoc,named_call ho,
      List.singleton_append,bind_ok hargs]
    rfl

theorem Expr.Arguments.reads {es : List Expr} {ts : List Token} (h : Expr.Arguments es ts)
    {closing : String} {cause : ReadError.Cause} (hs : ∀ t ∈ ts, t.Sane) {fuel : List Token}
    (hf : ts.length ≤ fuel.length) (hclosing : closing ∈ [")","]"]) {c : Token}
    (hc : c.is closing = true) {rest : List Token} :
    arguments (recursive expressionRule fuel) closing cause (ts ++ c :: rest) = .ok es rest := by
  match h with
  | .nil => exact arguments_nil hc
  | .items h =>
    obtain ⟨t,us,hts,ht⟩ := h.starts hs
    have hes : items (recursive expressionRule fuel) closing cause (ts ++ c :: rest)
        (ts ++ c :: rest) = .ok es rest := h.reads hs hf (by simp) hclosing hc
    rw [hts] at hes ⊢
    exact arguments_items ht hclosing hes

theorem Expr.Items.reads {es : List Expr} {ts : List Token} (h : Expr.Items es ts)
    {closing : String} {cause : ReadError.Cause} (hs : ∀ t ∈ ts, t.Sane) {fuel : List Token}
    (hf : ts.length ≤ fuel.length) {ahead : List Token} (ha : ts.length ≤ ahead.length)
    (hclosing : closing ∈ [")","]"]) {c : Token} (hc : c.is closing = true) {rest : List Token} :
    items (recursive expressionRule fuel) closing cause ahead (ts ++ c :: rest) = .ok es rest := by
  have hpos := h.length_pos
  obtain _ | ⟨f,fuel⟩ := fuel
  · simp only [List.length_nil] at hf; omega
  obtain _ | ⟨a,ahead⟩ := ahead
  · simp only [List.length_nil] at ha; omega
  match h with
  | .one h =>
    have hfirst : recursive expressionRule (f :: fuel) (ts ++ c :: rest) = .ok _ (c :: rest) :=
      h.reads hs hf (.of_closing hc hclosing)
    exact items_one hfirst hc
  | @Expr.Items.cons e ts o es us h ho h' =>
    simp only [List.length_append,List.length_cons] at hf ha
    have hpos := h.length_pos
    have hfirst : recursive expressionRule (f :: fuel) (ts ++ o :: (us ++ c :: rest)) =
        .ok e (o :: (us ++ c :: rest)) :=
      h.reads (fun t ht => hs t (List.mem_append_left _ ht))
        (show ts.length ≤ fuel.length + 1 by omega) (.of_is ho rfl (by decide) (by decide))
    have hrest : items (recursive expressionRule (f :: fuel)) closing cause ahead
        (us ++ c :: rest) = .ok es rest :=
      h'.reads (fun t ht => hs t (List.mem_append_right _ (List.mem_cons_of_mem _ ht)))
        (show us.length ≤ (f :: fuel).length by rw [List.length_cons]; omega)
        (show us.length ≤ ahead.length by omega) hclosing hc
    rw [List.append_assoc]
    exact items_cons hfirst ho hclosing hrest
end

/-- An expression is read whole where nothing follows that goes on with it. -/
theorem Reader.expression_reads {e : Expr} {ts rest : List Token} (h : e.Spells 4 ts)
    (hs : ∀ t ∈ ts, t.Sane) (hr : Ends 4 rest) : expression (ts ++ rest) = .ok e rest := by
  obtain ⟨t,us,hts,_⟩ := h.starts hs
  subst hts
  have hf : (t :: us).length ≤ (us ++ rest).length + 1 := by simp
  exact h.reads hs hf hr

lemma Reader.items_reads {es : List Expr} {ts : List Token} (h : Expr.Items es ts)
    (hs : ∀ t ∈ ts, t.Sane) {closing : String} {cause : ReadError.Cause} {ahead : List Token}
    (ha : ts.length ≤ ahead.length) (hclosing : closing ∈ [")","]"]) {c : Token}
    (hc : c.is closing = true) {rest : List Token} :
    items expression closing cause ahead (ts ++ c :: rest) = .ok es rest := by
  have hpos := h.length_pos
  obtain _ | ⟨a,ahead⟩ := ahead
  · simp only [List.length_nil] at ha; omega
  match h with
  | .one h => exact items_one (expression_reads h hs (.of_closing hc hclosing)) hc
  | @Expr.Items.cons e ts o es us h ho h' =>
    simp only [List.length_append,List.length_cons] at ha
    have hrest : items expression closing cause ahead (us ++ c :: rest) = .ok es rest :=
      items_reads h' (fun t ht => hs t (List.mem_append_right _ (List.mem_cons_of_mem _ ht)))
        (show us.length ≤ ahead.length by omega) hclosing hc
    rw [List.append_assoc]
    exact items_cons (expression_reads h (fun t ht => hs t (List.mem_append_left _ ht))
      (.of_is ho rfl (by decide) (by decide))) ho hclosing hrest

/-- Arguments are read up to the token that closes them. -/
theorem Reader.arguments_reads {es : List Expr} {ts : List Token} (h : Expr.Arguments es ts)
    (hs : ∀ t ∈ ts, t.Sane) {closing : String} {cause : ReadError.Cause}
    (hclosing : closing ∈ [")","]"]) {c : Token} (hc : c.is closing = true) {rest : List Token} :
    arguments expression closing cause (ts ++ c :: rest) = .ok es rest := by
  cases h with
  | nil => exact arguments_nil hc
  | items h =>
    obtain ⟨t,us,rfl,ht⟩ := h.starts hs
    exact arguments_items ht hclosing (items_reads h hs (by simp) hclosing hc)

end BlockScript
