import BlockScript.Proofs.Lexing.Literal
import BlockScript.Proofs.Syntax.Derivation.Basic
import BlockScript.Proofs.Syntax.WellFormed
/-! The terminals of the tokens that texts are cut into. -/
namespace BlockScript
open Grammar

lemma Lexer.tokensFrom_spaces (off n : Nat) (cs : List Char) :
    tokensFrom off (List.replicate n ' ' ++ cs) = tokensFrom (off + n) cs := by
  induction n generalizing off with
  | zero => rfl
  | succ n ih =>
    rw [List.replicate_succ,List.cons_append,tokensFrom_blank rfl,ih,Nat.add_right_comm]
    rfl

namespace Lexeme
variable {cs : List Char}

lemma readInteger? (h : Lexeme .integer cs) : ∃ n, Literal.readInteger? cs = some n := by
  cases h with
  | number hs hu =>
    cases hu with
    | integer hw =>
      obtain ⟨b,rfl⟩ : ∃ b, _ = Literal.signText b := hs.elim (⟨false,·⟩) (⟨true,·⟩)
      obtain ⟨c,cs,hc,_⟩ := hw.head
      exact ⟨_,Literal.readInteger?_run b (by simp [hc]) hw.all⟩

lemma readDecimal? (h : Lexeme .decimal cs) : ∃ d, Literal.readDecimal? cs = some d := by
  cases h with
  | number hs hu =>
    cases hu with
    | decimal hw hne hf =>
      obtain ⟨b,rfl⟩ : ∃ b, _ = Literal.signText b := hs.elim (⟨false,·⟩) (⟨true,·⟩)
      obtain ⟨c,cs,hc,_⟩ := hw.head
      exact ⟨_,Literal.readDecimal?_run b (by simp [hc]) hw.all hne hf⟩

lemma readCharacter? (h : Lexeme .character cs) : ∃ c, Literal.readCharacter? cs = some c := by
  have hquote : ∀ inner, Literal.readCharacter? ('\'' :: (inner ++ ['\''])) =
      (Literal.unescape inner).head? := by
    intro inner
    rw [Literal.readCharacter?,Literal.unquote_quoted rfl]
  cases h with
  | number _ hu => cases hu
  | @character c _ hb => exact ⟨c,by simpa [Literal.unescape_plain hb] using hquote [c]⟩
  | @escape e => exact ⟨Literal.unescapeChar e,by simpa [Literal.unescape] using hquote ['\\',e]⟩

end Lexeme

namespace Token
variable {t : Token} {text : String}

/-- The token is cut off some text. -/
def Scannable (t : Token) : Prop := ∃ source ts, Token.scan source = .ok ts ∧ t ∈ ts

/-- The token is cut off some text, or is a comparison that texts are never cut into. -/
def Readable (t : Token) : Prop := t.Scannable ∨ (t.kind = .operator ∧ t.text ∈ ["<=",">="])

lemma Scannable.lexical (h : t.Scannable) : t.Lexical := by
  obtain ⟨source,ts,hts,ht⟩ := h
  exact Lexer.tokensFrom_lexical hts t ht

/-- A lexical token is cut off its own text, with as many spaces before it as its place asks for. -/
lemma Lexical.scannable (h : t.Lexical) : t.Scannable := by
  refine ⟨String.ofList (List.replicate t.offset ' ' ++ t.text.toList),[t],?_,?_⟩
  case refine_2 => exact List.mem_singleton_self t
  have hr : Lexeme.Stops t.kind t.text.toList [] := by
    intro c hc
    cases hc
  have hcut : Lexer.tokensFrom t.offset (t.text.toList ++ []) = _ := Lexer.tokensFrom_lexeme h hr
  rw [List.append_nil,Lexer.tokensFrom] at hcut
  rw [scan,String.toList_ofList,Lexer.tokensFrom_spaces,Nat.zero_add,hcut,String.ofList_toList]
  rfl

/-- The texts of the words in the grammar. -/
def grammarWords : List String :=
  ["LIST","VAR","VAL","FUN","DO","END","IF","ELSE","SWITCH","CASE","DEFAULT","WHILE","RETURN","LET",
    "(",")","[","]",":",";",",","="]

lemma terminal_of_operator (h : t.kind = .operator) : t.terminal = .word t.text := by
  unfold terminal
  rw [h]

lemma Lexical.terminal_word (h : t.Lexical) (hw : t.text ∈ grammarWords) :
    t.terminal = .word t.text := by
  by_cases hk : t.text ∈ keywords
  · have hn : t.text ∉ ["NIL","TRUE","FALSE"] := by
      have hall : ∀ w ∈ grammarWords, w ∉ ["NIL","TRUE","FALSE"] := by decide
      exact hall _ hw
    unfold terminal
    simp only [h.sane.keyword hk,hn,hk,↓reduceIte]
  · apply terminal_of_operator
    have hall : ∀ w ∈ grammarWords, w ∉ keywords → w.toList.length = 1 ∧
        w.toList.all Lexer.isSymbol = true := by decide
    obtain ⟨hl,hc⟩ := hall _ hw hk
    obtain ⟨c,hcs⟩ := List.length_eq_one_iff.mp hl
    rw [hcs,List.all_cons,List.all_nil,Bool.and_true] at hc
    apply h.kind_eq
    rw [hcs]
    exact .single hc

lemma Readable.word (h : t.Readable) (ht : t.is text = true) (hw : text ∈ grammarWords) :
    ∃ w : Word text, w.token = t := by
  simp only [is,beq_iff_eq] at ht
  subst ht
  refine ⟨⟨t,?_⟩,rfl⟩
  rcases h with h | ⟨hk,_⟩
  · exact List.mem_singleton.mpr (h.lexical.terminal_word hw)
  · exact List.mem_singleton.mpr (terminal_of_operator hk)

lemma name_of_isName (h : t.isName = true) : ∃ x : Name, x.token = t := by
  obtain ⟨hk,hn⟩ := isName_spec h
  refine ⟨⟨t,List.mem_singleton.mpr ?_⟩,rfl⟩
  have hl : t.text ∉ ["NIL","TRUE","FALSE"] := by
    have hall : ∀ w ∈ ["NIL","TRUE","FALSE"], w ∈ keywords := by decide
    exact fun hw => hn (hall _ hw)
  unfold terminal
  simp only [hk,hn,hl,↓reduceIte]

lemma literal_of_literal? {v : Literal} (h : t.literal? = some v) :
    ∃ l : Leaf [.literal], l.token = t := by
  refine ⟨⟨t,List.mem_singleton.mpr ?_⟩,rfl⟩
  unfold literal? at h
  unfold terminal
  cases hk : t.kind <;> simp only [hk] at h ⊢
  case operator => cases h
  case identifier =>
    simp only [is,beq_iff_eq] at h
    split_ifs at h <;> simp [*]

lemma operator_of_operator? {op : Operator} {k : Nat} (h : t.operator? = some op)
    (hk : op.height = k + 1) : ∃ o : Leaf (operators k), o.token = t ∧ o.operator = op := by
  obtain ⟨hop,ht⟩ := operator?_spec h
  have hmem : t.terminal ∈ operators k := by
    rw [terminal_of_operator hop,ht]
    match k,op with
    | 0,.multiply | 0,.divide | 0,.power | 1,.add | 1,.subtract | 2,.less | 2,.lessEqual
    | 2,.greater | 2,.greaterEqual | 2,.equal | 2,.notEqual | 3,.and | 3,.or => decide
  refine ⟨⟨t,hmem⟩,rfl,?_⟩
  unfold Leaf.operator
  simp only [ht,Operator.ofSymbol?_symbol,Option.get_some]

/-- Every text that is cut off as a literal has a value. -/
lemma Lexical.literal?_eq (h : t.Lexical) (ht : t.terminal = .literal) :
    t.literal? = some t.value := by
  suffices hv : ∃ v, t.literal? = some v by
    obtain ⟨v,hv⟩ := hv
    rw [value,hv]
    rfl
  unfold Lexical at h
  unfold terminal at ht
  unfold literal?
  cases hk : t.kind <;> simp only [hk] at h ht ⊢
  case operator => cases ht
  case identifier =>
    simp only [is,beq_iff_eq]
    split_ifs at ht ⊢ <;> simp_all
  case integer =>
    obtain ⟨n,hn⟩ := h.readInteger?
    exact ⟨.integer n,by rw [hn,Option.map_some]⟩
  case decimal =>
    obtain ⟨d,hd⟩ := h.readDecimal?
    exact ⟨.decimal d,by rw [hd,Option.map_some]⟩
  case character =>
    obtain ⟨c,hc⟩ := h.readCharacter?
    exact ⟨.character c,by rw [hc,Option.map_some]⟩
  case string => exact ⟨_,rfl⟩

lemma Readable.literal?_eq (h : t.Readable) (ht : t.terminal = .literal) :
    t.literal? = some t.value := by
  rcases h with h | ⟨hk,_⟩
  · exact h.lexical.literal?_eq ht
  · rw [terminal_of_operator hk] at ht
    cases ht

end Token

namespace Grammar

lemma Leaf.is {text : String} (w : Word text) : w.token.is text = true := by
  have ht := Token.text_of_terminal (List.mem_singleton.mp w.mem)
  simp [Token.is,ht]

lemma Leaf.isName (x : Name) : x.token.isName = true := by
  have hx := List.mem_singleton.mp x.mem
  unfold Token.terminal at hx
  split at hx
  · cases hx
  · next hk =>
    split at hx
    · cases hx
    · split at hx
      · cases hx
      · next hn => simp [Token.isName,hk,hn]
  all_goals cases hx

lemma Leaf.operator? {k : Nat} (o : Leaf (operators k)) :
    o.token.operator? = some o.operator := by
  obtain ⟨op,_,ht⟩ := operators_spec o.mem
  have hk : o.token.kind = .operator := by
    have hn : ∀ op : Operator, op.symbol ∉ Token.keywords := by
      intro op
      cases op <;> decide
    have hs := Token.text_of_terminal ht
    unfold Token.terminal at ht
    split at ht
    · next hk => exact hk
    · split_ifs at ht with _ hw
      rw [hs] at hw
      exact absurd hw (hn op)
    all_goals cases ht
  unfold Token.operator? Leaf.operator
  rw [if_pos (by simp [hk]),Option.some_get]

lemma Leaf.operator_height {k : Nat} (o : Leaf (operators k)) : o.operator.height = k + 1 := by
  obtain ⟨op,hop,hk⟩ := o.operator_spec
  unfold Leaf.operator
  simp only [hop,Option.get_some,hk]

end Grammar
end BlockScript
