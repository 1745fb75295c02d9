import BlockScript.Proofs.Lexing.Writing
/-! Texts as tokens with blanks between them. A text is cut into tokens if and only if it can be
written with every token as long as the text allows; it is then written so in one way only. -/
namespace BlockScript
open Lexer

namespace Lexeme
variable {kind : Token.Kind} {text rest blanks : List Char}

/-- A token does not start with a blank. -/
lemma not_blank (h : Lexeme kind text) (hr : Stops kind text rest) :
    ∀ c ∈ (text ++ rest).head?, isBlank c = false := by
  obtain ⟨c,cs,rfl,hb,_⟩ := cut_eq h hr
  rintro _ ⟨⟩
  exact hb

lemma not_all_blank (h : Lexeme kind text) (hr : Stops kind text rest) :
    ¬ ∀ c ∈ blanks ++ (text ++ rest), isBlank c = true := by
  obtain ⟨c,cs,rfl,hb,_⟩ := cut_eq h hr
  intro hall
  have hc := hall c (by simp)
  rw [hb] at hc
  cases hc

end Lexeme

/-- Tokens with blanks before each of them and after the last. -/
inductive Tokenization where
  | last (blanks : List Char)
  | token (blanks : List Char) (kind : Token.Kind) (text : List Char) (more : Tokenization)

namespace Tokenization

/-- The characters, blanks included. -/
def chars : Tokenization → List Char
  | last blanks => blanks
  | token blanks _ text more => blanks ++ (text ++ more.chars)

/-- Only blanks stand between the tokens, and each token is of its class and goes on as far as what
follows it allows. -/
def Maximal : Tokenization → Prop
  | last blanks => ∀ c ∈ blanks, isBlank c = true
  | token blanks kind text more => (∀ c ∈ blanks, isBlank c = true) ∧ Lexeme kind text ∧
    Lexeme.Stops kind text more.chars ∧ more.Maximal

/-- The tokens, each at its byte, of a text that starts at the given byte. -/
def tokensFrom (offset : Nat) : Tokenization → List Token
  | last _ => []
  | token blanks kind text more =>
    ⟨kind,String.ofList text,offset + byteCount blanks⟩ ::
      more.tokensFrom (offset + byteCount blanks + byteCount text)

/-- One more blank in front. -/
def blank (c : Char) : Tokenization → Tokenization
  | last blanks => last (c :: blanks)
  | token blanks kind text more => token (c :: blanks) kind text more

variable {off : Nat} {c : Char} {cs blanks : List Char} {d d' : Tokenization}

lemma chars_blank : (d.blank c).chars = c :: d.chars := by
  cases d <;> rfl

lemma Maximal.blank (hc : isBlank c = true) (h : d.Maximal) : (d.blank c).Maximal := by
  cases d with
  | last blanks => exact List.forall_mem_cons.mpr ⟨hc,h⟩
  | token blanks kind text more => exact ⟨List.forall_mem_cons.mpr ⟨hc,h.1⟩,h.2⟩

lemma tokensFrom_blanks (hb : ∀ c ∈ blanks, isBlank c = true) :
    Lexer.tokensFrom off (blanks ++ cs) = Lexer.tokensFrom (off + byteCount blanks) cs := by
  induction blanks generalizing off with
  | nil => rfl
  | cons c blanks ih =>
    obtain ⟨hc,hb⟩ := List.forall_mem_cons.mp hb
    rw [List.cons_append,Lexer.tokensFrom_blank hc,ih hb,byteCount,Nat.add_assoc]

/-- What is written is cut into the tokens it is written with. -/
lemma Maximal.tokensFrom_eq (h : d.Maximal) :
    Lexer.tokensFrom off d.chars = .ok (d.tokensFrom off) := by
  induction d generalizing off with
  | last blanks =>
    have hblanks : Lexer.tokensFrom off (blanks ++ []) = Lexer.tokensFrom _ [] := tokensFrom_blanks h
    rw [List.append_nil] at hblanks
    rw [chars,hblanks,Lexer.tokensFrom]
    rfl
  | token blanks kind text more ih =>
    obtain ⟨hb,hl,hs,hm⟩ := h
    rw [chars,tokensFrom_blanks hb,Lexer.tokensFrom_lexeme hl hs,ih hm]
    rfl

/-- What is cut into tokens is written with them. -/
lemma exists_of_tokensFrom {ts : List Token} (h : Lexer.tokensFrom off cs = .ok ts) :
    ∃ d : Tokenization, d.Maximal ∧ d.chars = cs := by
  fun_induction Lexer.tokensFrom off cs generalizing ts with
  | case1 => exact ⟨last [],List.forall_mem_nil _,rfl⟩
  | case2 off c cs hc ih =>
    obtain ⟨d,hd,rfl⟩ := ih h
    exact ⟨d.blank c,hd.blank hc,chars_blank⟩
  | case3 => cases h
  | case4 off c cs hc t ht _ ih =>
    rw [Bool.not_eq_true] at hc
    obtain ⟨hcs,hl,hs⟩ := Lexeme.of_cut hc ht
    cases hr : Lexer.tokensFrom (off + byteCount t.text) t.rest with
    | error e => rw [hr] at h; cases h
    | ok us =>
      obtain ⟨d,hd,hchars⟩ := ih hr
      exact ⟨token [] t.kind t.text d,⟨List.forall_mem_nil _,hl,hchars ▸ hs,hd⟩,by rw [chars,hchars,hcs]; rfl⟩

/-- Where a token starts and where it ends is decided by the text. -/
lemma Maximal.unique (h : d.Maximal) (h' : d'.Maximal) (hc : d.chars = d'.chars) : d = d' := by
  induction d generalizing d' with
  | last blanks =>
    cases d' with
    | last blanks' => exact congrArg last hc
    | token blanks' kind text more =>
      obtain ⟨_,hl,hs,_⟩ := h'
      obtain rfl : blanks = _ := hc
      exact absurd h (hl.not_all_blank hs)
  | token blanks kind text more ih =>
    obtain ⟨hb,hl,hs,hm⟩ := h
    cases d' with
    | last blanks' =>
      obtain rfl : _ = blanks' := hc
      exact absurd h' (hl.not_all_blank hs)
    | token blanks' kind' text' more' =>
      obtain ⟨hb',hl',hs',hm'⟩ := h'
      simp only [chars] at hc
      have hblanks : blanks = blanks' := by
        rw [← Lexeme.takeWhile_run hb (hl.not_blank hs),hc,
          Lexeme.takeWhile_run hb' (hl'.not_blank hs')]
      subst hblanks
      -- both tokens are the one that is cut off after the blanks
      obtain ⟨c,cs,rfl,_,hcut⟩ := Lexeme.cut_eq hl hs
      obtain ⟨c',cs',rfl,_,hcut'⟩ := Lexeme.cut_eq hl' hs'
      obtain ⟨rfl,hrest⟩ := List.cons.inj (List.append_cancel_left hc)
      have hsame : cut c (cs ++ more.chars) = cut c (cs' ++ more'.chars) := congrArg (cut c) hrest
      rw [hcut,hcut'] at hsame
      obtain ⟨rfl,htext,hmore⟩ := Cut.mk.inj (Except.ok.inj hsame)
      rw [htext,ih hm hm' hmore]

end Tokenization

/-- A text is cut into tokens if and only if it is a maximal tokenization. It is one in no other way,
and the tokens are those of the tokenization, each at its byte. -/
theorem Token.scan_iff_tokenization (source : String) :
    ((∃ ts, Token.scan source = .ok ts) ↔
      ∃ d : Tokenization, d.Maximal ∧ d.chars = source.toList) ∧
    (∀ d d' : Tokenization, d.Maximal ∧ d.chars = source.toList →
      d'.Maximal ∧ d'.chars = source.toList → d = d') ∧
    ∀ d : Tokenization, d.Maximal ∧ d.chars = source.toList →
      Token.scan source = .ok (d.tokensFrom 0) := by
  have hscan : ∀ d : Tokenization, d.Maximal ∧ d.chars = source.toList →
      Token.scan source = .ok (d.tokensFrom 0) := by
    rintro d ⟨hd,hc⟩
    rw [Token.scan,← hc,hd.tokensFrom_eq]
  refine ⟨⟨?_,?_⟩,fun d d' hd hd' => hd.1.unique hd'.1 (hd.2.trans hd'.2.symm),hscan⟩
  · rintro ⟨ts,hts⟩
    exact Tokenization.exists_of_tokensFrom hts
  · rintro ⟨d,hd⟩
    exact ⟨_,hscan d hd⟩

end BlockScript
