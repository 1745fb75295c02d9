import BlockScript.Proofs.Lexing.Fault
import BlockScript.Proofs.Lexing.Tokenization
/-! Two texts with blanks between them are cut as each of them is alone, the second one as far into the
text as it stands. -/
namespace BlockScript
open Lexer

/-- A token that stands so many bytes further on. -/
def Token.moved (n : Nat) (t : Token) : Token := { t with offset := t.offset + n }

/-- The same fault so many bytes further on. -/
def LexError.moved (n : Nat) (e : LexError) : LexError := { e with offset := e.offset + n }

namespace Lexer
lemma eq_false_of_isBlank {c : Char} {p : Char → Bool}
    (hp : [' ','\t','\r','\n','\x08','\\'].all (!p ·) = true)
    (hc : isBlank c = true) : p c = false := by
  by_contra h
  rw [Bool.not_eq_false] at h
  rw [Lexeme.isBlank_eq_false hp h] at hc
  cases hc

/-- Where a text starts moves its tokens, and the fault in it, and changes nothing else. -/
lemma tokensFrom_add (off n : Nat) (cs : List Char) :
    tokensFrom (off + n) cs = match tokensFrom off cs with
      | .ok ts => .ok (ts.map (Token.moved n))
      | .error e => .error (e.moved n) := by
  fun_induction tokensFrom off cs with
  | case1 off => rw [tokensFrom]; rfl
  | case2 off c cs hc ih => rw [tokensFrom_blank hc,Nat.add_right_comm,ih]
  | case3 off c cs hc f hf =>
    rw [Bool.not_eq_true] at hc
    rw [tokensFrom_fault hc hf,Nat.add_right_comm]
    rfl
  | case4 off c cs hc t ht _ ih =>
    rw [Bool.not_eq_true] at hc
    rw [tokensFrom_cut hc ht,Nat.add_right_comm,ih]
    cases tokensFrom (off + byteCount t.text) t.rest <;> rfl

end Lexer

/-- No token goes on with a blank. -/
lemma Lexeme.Stops.of_blank {kind : Token.Kind} {text cs : List Char}
    (h : ∀ c ∈ cs.head?, isBlank c = true) : Stops kind text cs := by
  intro c hc
  have hb := h c hc
  cases kind with
  | identifier => exact eq_false_of_isBlank (by decide) hb
  | integer => exact ⟨eq_false_of_isBlank (by decide) hb,by rintro rfl; cases hb⟩
  | decimal => exact eq_false_of_isBlank (by decide) hb
  | character | string => trivial
  | operator =>
    rintro a _
    refine ⟨fun hp => ?_,fun _ => eq_false_of_isBlank (by decide) hb⟩
    have hmem := Lexeme.operatorPair_second hp
    simp only [List.mem_cons,List.not_mem_nil,or_false] at hmem
    rcases hmem with rfl | rfl | rfl <;> cases hb

/-- A token that ends in its text ends there as well if blanks and another text are put after it. -/
lemma Lexeme.Stops.append_blank {kind : Token.Kind} {text cs blanks : List Char}
    (h : Stops kind text cs) (hb : ∀ c ∈ blanks, isBlank c = true) (hne : blanks ≠ [])
    (rest : List Char) : Stops kind text (cs ++ (blanks ++ rest)) := by
  cases cs with
  | cons c cs =>
    rintro _ ⟨⟩
    exact h c rfl
  | nil =>
    obtain ⟨b,bs,rfl⟩ := List.exists_cons_of_ne_nil hne
    apply of_blank
    rintro _ ⟨⟩
    exact hb b List.mem_cons_self

namespace Tokenization
variable {d : Tokenization} {off : Nat} {blanks : List Char}

/-- What is written is cut into the same tokens when blanks and other characters stand after it. -/
lemma Maximal.tokensFrom_append (h : d.Maximal) (hb : ∀ c ∈ blanks, isBlank c = true)
    (hne : blanks ≠ []) (rest : List Char) : Lexer.tokensFrom off (d.chars ++ (blanks ++ rest)) =
      (Lexer.tokensFrom (off + byteCount (d.chars ++ blanks)) rest).map (d.tokensFrom off ++ ·) := by
  induction d generalizing off with
  | last before =>
    rw [chars,tokensFrom_blanks h,tokensFrom_blanks hb,byteCount_append,Nat.add_assoc]
    change _ = (Lexer.tokensFrom _ rest).map id
    rw [Except.map_id]
    rfl
  | token before kind text more ih =>
    obtain ⟨hbefore,hl,hs,hm⟩ := h
    rw [chars,List.append_assoc,List.append_assoc,tokensFrom_blanks hbefore,
      tokensFrom_lexeme hl (hs.append_blank hb hne rest),ih hm]
    simp only [byteCount_append,← Nat.add_assoc]
    cases Lexer.tokensFrom _ rest <;> rfl

/-- The classes and the texts of the tokens. -/
def forms : Tokenization → List Form
  | last _ => []
  | token _ kind text more => (kind,String.ofList text) :: more.forms

lemma forms_tokensFrom (d : Tokenization) (off : Nat) :
    (d.tokensFrom off).map Token.form = d.forms := by
  induction d generalizing off with
  | last blanks => rfl
  | token blanks kind text more ih => rw [tokensFrom,List.map_cons,ih,forms,Token.form]

/-- The first token, if there is one, has blanks before it. -/
def Apart : Tokenization → Prop
  | last _ => True
  | token blanks _ _ _ => blanks ≠ []

/-- Only blanks stand around the tokens, and at least one between any two of them. -/
def Spaced : Tokenization → Prop
  | last blanks => ∀ c ∈ blanks, isBlank c = true
  | token blanks _ _ more => (∀ c ∈ blanks, isBlank c = true) ∧ more.Apart ∧ more.Spaced

lemma Spaced.blank_head (h : d.Spaced) (ha : d.Apart) : ∀ c ∈ d.chars.head?, isBlank c = true := by
  cases d with
  | last blanks => exact fun c hc => h c (List.mem_of_mem_head? hc)
  | token blanks kind text more =>
    obtain ⟨b,bs,rfl⟩ := List.exists_cons_of_ne_nil ha
    rintro _ ⟨⟩
    exact h.1 b List.mem_cons_self

/-- Between blanks every token is as long as the text allows. -/
lemma Spaced.maximal (h : d.Spaced) (hl : ∀ f ∈ d.forms, Lexeme f.1 f.2.toList) : d.Maximal := by
  induction d with
  | last blanks => exact h
  | token blanks kind text more ih =>
    obtain ⟨hb,ha,hm⟩ := h
    obtain ⟨hl,hmore⟩ := List.forall_mem_cons.mp hl
    rw [String.toList_ofList] at hl
    exact ⟨hb,hl,.of_blank (hm.blank_head ha),ih hm hmore⟩

end Tokenization

namespace Token

/-- A text that is cut into tokens is cut into the same ones with blanks and another text after it. What
the other text is cut into, or the fault in it, is as many bytes further on as it stands. -/
theorem scan_append {a w : String} {ts : List Token} (ha : scan a = .ok ts)
    (hw : ∀ c ∈ w.toList, isBlank c = true) (hne : w ≠ "") (b : String) :
    scan (a ++ w ++ b) = match scan b with
      | .ok us => .ok (ts ++ us.map (moved (a ++ w).utf8ByteSize))
      | .error e => .error (e.moved (a ++ w).utf8ByteSize) := by
  obtain ⟨d,hd,hda⟩ := Tokenization.exists_of_tokensFrom ha
  obtain rfl : d.tokensFrom 0 = ts := by
    rw [scan,← hda,hd.tokensFrom_eq] at ha
    exact Except.ok.inj ha
  have hsize : byteCount (d.chars ++ w.toList) = (a ++ w).utf8ByteSize := by
    rw [hda,byteCount_eq,← String.toList_append,String.ofList_toList]
  have hw' : w.toList ≠ [] := by
    simpa using hne
  have hmoved := tokensFrom_add 0 (a ++ w).utf8ByteSize b.toList
  rw [scan,String.toList_append,String.toList_append,← hda,List.append_assoc,
    hd.tokensFrom_append hw hw',hsize,hmoved,scan]
  cases Lexer.tokensFrom 0 b.toList <;> rfl

/-- After a blank stand the tokens of another text, as many bytes further on as the text before them
has. -/
theorem scan_append_blank {a b : String} {ts us : List Token} (ha : scan a = .ok ts)
    (hb : scan b = .ok us) :
    scan (a ++ " " ++ b) = .ok (ts ++ us.map (moved (a.utf8ByteSize + 1))) := by
  have hscan := scan_append (w := " ") ha (by simp [isBlank]) (by decide) b
  rw [hb,String.utf8ByteSize_append] at hscan
  exact hscan

lemma Lexical.scan_text {t : Token} (h : t.Lexical) : scan t.text = .ok [{ t with offset := 0 }] := by
  have hcut : Lexer.tokensFrom 0 (t.text.toList ++ []) = _ := tokensFrom_lexeme h nofun
  rw [List.append_nil] at hcut
  rw [scan,hcut,Lexer.tokensFrom,String.ofList_toList]
  rfl

end Token

/-- The tokens of a text with blanks and any text after it are those of the one and of the other, and a
fault in the other is the fault of both. Each token alone is cut off as itself, so tokens that are written
again with any blanks between them are the same. -/
theorem Token.scan_compositional (a : String) (ts : List Token) (ha : scan a = .ok ts) :
    (∀ w b : String, (∀ c ∈ w.toList, isBlank c = true) → w ≠ "" →
      scan (a ++ w ++ b) = match scan b with
        | .ok us => .ok (ts ++ us.map (moved (a ++ w).utf8ByteSize))
        | .error e => .error (e.moved (a ++ w).utf8ByteSize)) ∧
    (∀ t ∈ ts, scan t.text = .ok [{ t with offset := 0 }]) ∧
    ∀ d : Tokenization, d.forms = ts.map Token.form → d.Spaced →
      ∃ us, scan (String.ofList d.chars) = .ok us ∧ us.map Token.form = ts.map Token.form := by
  have hl := tokensFrom_lexical ha
  refine ⟨fun w b hw hne => scan_append ha hw hne b,fun t ht => (hl t ht).scan_text,
    fun d hd hs => ⟨d.tokensFrom 0,?_,(d.forms_tokensFrom 0).trans hd⟩⟩
  have hm : d.Maximal := by
    refine hs.maximal ?_
    rw [hd]
    exact List.forall_mem_map.mpr hl
  rw [scan,String.toList_ofList,hm.tokensFrom_eq]

/-- A minus sign stays alone before a backslash and a digit, and the open quote is found where it is. -/
theorem Token.scan_compositional_minus :
    scan "x -" = .ok [⟨.identifier,"x",0⟩,⟨.operator,"-",2⟩] ∧
    scan "1 'ab'" = .error ⟨.unterminatedCharacter,4⟩ ∧
    scan ("x -" ++ "\\ " ++ "1 'ab'") = .error ⟨.unterminatedCharacter,9⟩ ∧
    scan "-" = .ok [⟨.operator,"-",0⟩] ∧
    ∃ us, scan "x\\\t-" = .ok us ∧ us.map Token.form = [(.identifier,"x"),(.operator,"-")] := by
  have ha : scan "x -" = .ok [⟨.identifier,"x",0⟩,⟨.operator,"-",2⟩] := by decide +kernel
  have hb : scan "1 'ab'" = .error ⟨.unterminatedCharacter,4⟩ := by decide +kernel
  obtain ⟨happend,halone,hspaced⟩ := scan_compositional "x -" _ ha
  have hscan := happend "\\ " "1 'ab'" (by simp [isBlank]) (by decide)
  rw [hb] at hscan
  have hs : (Tokenization.token [] .identifier ['x']
      (.token ['\\','\t'] .operator ['-'] (.last []))).Spaced := by
    simp [Tokenization.Spaced,Tokenization.Apart,isBlank]
  exact ⟨ha,hb,hscan,halone ⟨.operator,"-",2⟩ (by decide),hspaced _ rfl hs⟩

end BlockScript
