import BlockScript.Proofs.Lexing.Lexeme
import BlockScript.Proofs.Syntax.Complete.Expression
/-! Texts that are put together from tokens: what they are cut into does not depend on where they
stand, as long as nothing after them goes on with their last token. -/
namespace BlockScript
open Lexer

/-- The class and the text of a token, wherever it stands. -/
abbrev Form := Token.Kind × String

def Token.form (t : Token) : Form := (t.kind,t.text)

def Form.word (w : String) : Form := (.identifier,w)

def Form.mark (s : String) : Form := (.operator,s)

/-- The text of a token is one of its class. -/
def Token.Lexical (t : Token) : Prop := Lexeme t.kind t.text.toList

namespace Lexeme
variable {kind : Token.Kind} {c : Char} {text rest : List Char}

/-- A text belongs to one class only. -/
theorem kind_eq {k : Token.Kind} (h : Lexeme kind text) (h' : Lexeme k text) :
    kind = k := by
  have hr : ∀ k, Stops k text [] := fun _ => nofun
  obtain ⟨c,cs,rfl,_,hc⟩ := cut_eq h (hr kind)
  obtain ⟨d,ds,hd,_,hc'⟩ := cut_eq h' (hr k)
  cases hd
  rw [hc] at hc'
  cases hc'
  rfl

lemma of_keyword {w : String} (h : w ∈ Token.keywords) : Lexeme .identifier w.toList := by
  have hw : ∀ w ∈ Token.keywords, (w.toList.head?.any isNameStart && w.toList.tail.all isNameChar) =
      true := by decide
  have hl := hw w h
  cases hcs : w.toList with
  | nil => rw [hcs] at hl; cases hl
  | cons c cs =>
    rw [hcs,Bool.and_eq_true,List.tail_cons,List.all_eq_true] at hl
    exact .identifier hl.1 hl.2

end Lexeme

lemma Token.Lexical.sane {t : Token} (h : t.Lexical) : t.Sane where
  bracket hb := by
    apply h.kind_eq (k := .operator)
    simp only [List.mem_cons,List.not_mem_nil,or_false] at hb
    rcases hb with hb | hb | hb <;> rw [hb] <;> exact .single (by decide)
  keyword hk := h.kind_eq (.of_keyword hk)

namespace Lexer
variable {off : Nat} {c : Char} {cs text more rest : List Char} {P Q : List Token → Prop}

lemma tokensFrom_blank (hc : isBlank c = true) :
    tokensFrom off (c :: cs) = tokensFrom (off + c.utf8Size) cs := by
  rw [tokensFrom,if_pos hc]

lemma tokensFrom_cut {t : Cut} (hc : isBlank c = false) (h : cut c cs = .ok t) :
    tokensFrom off (c :: cs) = (tokensFrom (off + byteCount t.text) t.rest).map
      (⟨t.kind,String.ofList t.text,off⟩ :: ·) := by
  rw [tokensFrom,if_neg (by rw [hc]; exact Bool.false_ne_true)]
  split
  · next h' => rw [h] at h'; cases h'
  · next h' => rw [h] at h'; cases h'; rfl

lemma tokensFrom_lexeme {kind : Token.Kind} (h : Lexeme kind text)
    (hr : Lexeme.Stops kind text rest) :
    tokensFrom off (text ++ rest) = (tokensFrom (off + byteCount text) rest).map
      (⟨kind,String.ofList text,off⟩ :: ·) := by
  obtain ⟨c,cs,rfl,hb,hc⟩ := Lexeme.cut_eq h hr
  exact tokensFrom_cut hb hc

/-- The tokens of a text are lexical. -/
theorem tokensFrom_lexical {ts : List Token} (h : tokensFrom off cs = .ok ts) :
    ∀ t ∈ ts, t.Lexical := by
  fun_induction tokensFrom off cs generalizing ts with
  | case1 => cases h; exact nofun
  | case2 off c cs hb ih => exact ih h
  | case3 => cases h
  | case4 off c cs hb t hc _ ih =>
    rw [Bool.not_eq_true] at hb
    cases hr : tokensFrom (off + byteCount t.text) t.rest with
    | error e => rw [hr] at h; cases h
    | ok us =>
      rw [hr] at h
      cases h
      intro u hu
      rcases List.mem_cons.mp hu with rfl | hu
      · simpa [Token.Lexical] using (Lexeme.of_cut hb hc).2.1
      · exact ih hr u hu

/-- The characters that names and numbers can go on with. -/
def goesOn (c : Char) : Bool := isNameChar c || c == '.'

/-- What follows goes on with no name and no number. -/
def Clear (rest : List Char) : Prop := ∀ c ∈ rest.head?, goesOn c = false

/-- A symbol that is an operator alone, whatever follows. -/
def isMark (c : Char) : Bool := isSymbol c && operatorPair c == none && c != '-'

/-- Before this text every token but an operator ends. -/
def Opens (more : List Char) : Prop := ∀ rest, Clear rest → Clear (more ++ rest)

lemma Opens.nil : Opens [] := fun _ => id

lemma Opens.cons (hc : goesOn c = false) : Opens (c :: cs) := by
  intro _ _ _ hc
  cases hc
  exact hc

lemma Opens.append (h : Opens text) (hm : Opens more) : Opens (text ++ more) := by
  intro rest hr
  rw [List.append_assoc]
  exact h _ (hm rest hr)

lemma Clear.stops {kind : Token.Kind} (h : Clear rest) (hk : kind ≠ .operator) :
    Lexeme.Stops kind text rest := by
  intro c hc
  obtain ⟨hn,hp⟩ : isNameChar c = false ∧ c ≠ '.' := by
    simpa [goesOn] using h c hc
  have hd : c.isDigit = false := by
    simp only [isNameChar,Char.isAlphanum,Bool.or_eq_false_iff] at hn
    exact hn.1.1.2
  cases kind with
  | identifier => exact hn
  | integer => exact ⟨hd,hp⟩
  | decimal => exact hd
  | character | string => trivial
  | operator => exact absurd rfl hk

/-- The text is cut into tokens of this kind wherever it stands, if what follows is clear. -/
def Writes (text : List Char) (P : List Token → Prop) : Prop :=
  ∀ off rest, Clear rest → ∃ ts off', P ts ∧
    tokensFrom off (text ++ rest) = (tokensFrom off' rest).map (ts ++ ·)

namespace Writes

lemma pure (h : P []) : Writes [] P := by
  intro off rest _
  refine ⟨[],off,h,?_⟩
  change tokensFrom off rest = (tokensFrom off rest).map id
  rw [Except.map_id]
  rfl

lemma imp (h : Writes text P) (hpq : ∀ ts, P ts → Q ts) : Writes text Q := by
  intro off rest hr
  obtain ⟨ts,off',hp,he⟩ := h off rest hr
  exact ⟨ts,off',hpq ts hp,he⟩

lemma bind (h : Writes text P) (ho : Opens more)
    (hm : ∀ us, P us → Writes more fun vs => Q (us ++ vs)) : Writes (text ++ more) Q := by
  intro off rest hr
  obtain ⟨us,mid,hp,hu⟩ := h off (more ++ rest) (ho rest hr)
  obtain ⟨vs,off',hq,hv⟩ := hm us hp mid rest hr
  refine ⟨us ++ vs,off',hq,?_⟩
  rw [List.append_assoc,hu,hv]
  cases tokensFrom off' rest with
  | error e => rfl
  | ok ws => exact congrArg Except.ok (List.append_assoc us vs ws).symm

lemma blank (hc : isBlank c = true) (h : Writes text P) : Writes (c :: text) P := by
  intro off rest hr
  obtain ⟨ts,off',hp,he⟩ := h (off + c.utf8Size) rest hr
  exact ⟨ts,off',hp,by rw [List.cons_append,tokensFrom_blank hc,he]⟩

lemma token {kind : Token.Kind} (h : Lexeme kind text)
    (hs : ∀ rest, Clear rest → Lexeme.Stops kind text (more ++ rest))
    (hm : ∀ off, Writes more fun ts => P (⟨kind,String.ofList text,off⟩ :: ts)) :
    Writes (text ++ more) P := by
  intro off rest hr
  obtain ⟨ts,off',hp,he⟩ := hm off (off + byteCount text) rest hr
  refine ⟨_ :: ts,off',hp,?_⟩
  rw [List.append_assoc,tokensFrom_lexeme h (hs rest hr),he]
  cases tokensFrom off' rest <;> rfl

/-- Any token but an operator. -/
lemma word {kind : Token.Kind} (h : Lexeme kind text) (hk : kind ≠ .operator) (ho : Opens more)
    (hm : ∀ off, Writes more fun ts => P (⟨kind,String.ofList text,off⟩ :: ts)) :
    Writes (text ++ more) P :=
  token h (fun rest hr => (ho rest hr).stops hk) hm

lemma keyword (w : String) (hw : w ∈ Token.keywords) (ho : Opens more)
    (hm : ∀ t : Token, t.is w = true → t.form = .word w → Writes more fun ts => P (t :: ts)) :
    Writes (w.toList ++ more) P :=
  word (.of_keyword hw) (by decide) ho fun off => hm _ (by simp [Token.is]) (by simp [Token.form,Form.word])

lemma mark (c : Char) (hc : isMark c = true)
    (h : ∀ t : Token, t.is (String.ofList [c]) = true → t.form = .mark (String.ofList [c]) →
      Writes more fun ts => P (t :: ts)) : Writes (c :: more) P := by
  simp only [isMark,Bool.and_eq_true,beq_iff_eq,bne_iff_ne] at hc
  obtain ⟨⟨hs,hp⟩,hm⟩ := hc
  refine token (.single hs : Lexeme .operator [c]) (fun rest _ d _ a ha => ?_) fun off => h _ ?_ rfl
  · cases ha
    exact ⟨by simp [hp],fun h => absurd h hm⟩
  · simp [Token.is]

end Writes
end Lexer
end BlockScript
