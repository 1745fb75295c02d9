import BlockScript.Proofs.Lexing.Writing
import BlockScript.Tree.Render
/-! Literals are read back from their texts. -/
namespace BlockScript
open Lexer

/-- The literals that have a text of their own: a decimal shows its scale by digits after the point. -/
def Literal.WellFormed : Literal → Prop
  | .decimal d => 1 ≤ d.scale
  | _ => True

namespace Literal
variable {cs ds fs : List Char}

/-! ### Numbers -/

lemma natural?_run (hne : ds ≠ []) (hd : ∀ c ∈ ds, c.isDigit = true) :
    natural? ds = some (Nat.ofDigitChars 10 ds 0) := by
  apply if_pos
  simpa using ⟨hne,hd⟩

/-- A minus sign, if there is one. -/
def signText (negative : Bool) : List Char := if negative then ['-'] else []

lemma readInteger?_run (negative : Bool) (hne : ds ≠ []) (hd : ∀ c ∈ ds, c.isDigit = true) :
    readInteger? (signText negative ++ ds) = some (if negative then -(Nat.ofDigitChars 10 ds 0 : Int)
      else Nat.ofDigitChars 10 ds 0) := by
  have hn := natural?_run hne hd
  cases negative with
  | true =>
    simp only [signText,readInteger?,signed?,hn,↓reduceIte,List.singleton_append]
    rfl
  | false =>
    simp only [signText,readInteger?,signed?,Bool.false_eq_true,↓reduceIte,List.nil_append]
    split
    · next rest =>
      have h := hd '-' List.mem_cons_self
      cases h
    · rw [hn]
      rfl

lemma signed_natAbs (n : Int) : (if decide (n < 0) then -(n.natAbs : Int) else n.natAbs) = n := by
  simp only [decide_eq_true_eq]
  split <;> omega

lemma digits_toDigits (n : Nat) : ∀ c ∈ Nat.toDigits 10 n, c.isDigit = true :=
  fun _ => Nat.isDigit_of_mem_toDigits (by decide) (by decide)

/-- The first digit of a positive number is not zero. -/
lemma toDigits_head {n : Nat} (h : 0 < n) : ∃ d ds, Nat.toDigits 10 n = d :: ds ∧ d ≠ '0' := by
  induction n using Nat.strongRecOn with
  | ind n ih =>
    by_cases hn : n < 10
    · refine ⟨n.digitChar,[],Nat.toDigits_of_lt_base hn,?_⟩
      rw [ne_eq,Nat.digitChar_eq_zero]
      omega
    · obtain ⟨d,ds,hd,hz⟩ := ih (n / 10) (by omega) (by omega)
      exact ⟨d,_,by rw [Nat.toDigits_of_base_le (by decide) (by omega),hd]; rfl,hz⟩

lemma whole_toDigits (n : Nat) : Lexeme.Whole (Nat.toDigits 10 n) := by
  rcases Nat.eq_zero_or_pos n with rfl | h
  · rw [Nat.toDigits_zero]
    exact .zero
  · obtain ⟨d,ds,hd,hz⟩ := toDigits_head h
    have hall := digits_toDigits n
    rw [hd,List.forall_mem_cons] at hall
    rw [hd]
    exact .nonzero hall.1 hz hall.2

lemma repr_toList (n : Int) :
    n.repr.toList = signText (decide (n < 0)) ++ Nat.toDigits 10 n.natAbs := by
  cases n with
  | ofNat n =>
    simp [Int.repr,signText]
  | negSucc n =>
    have : Int.negSucc n < 0 := Int.negSucc_lt_zero n
    simp [Int.repr,signText,this]

lemma signText_cases (negative : Bool) : signText negative = [] ∨ signText negative = ['-'] := by
  cases negative
  · exact .inl rfl
  · exact .inr rfl

lemma lexeme_repr (n : Int) : Lexeme .integer n.repr.toList := by
  rw [repr_toList]
  exact .number (signText_cases _) (.integer (whole_toDigits _))

lemma readInteger?_repr (n : Int) : readInteger? n.repr.toList = some n := by
  rw [repr_toList,readInteger?_run _ Nat.toDigits_ne_nil (digits_toDigits _),
    Nat.ofDigitChars_ten_toDigits,signed_natAbs]

lemma ne_point_of_isDigit {c : Char} (h : c.isDigit = true) : (c != '.') = true := by
  rw [bne_iff_ne]
  rintro rfl
  cases h

lemma readDecimal?_run (negative : Bool) (hne : ds ≠ []) (hd : ∀ c ∈ ds, c.isDigit = true)
    (hfe : fs ≠ []) (hf : ∀ c ∈ fs, c.isDigit = true) :
    readDecimal? (signText negative ++ (ds ++ '.' :: fs)) =
      some ⟨if negative then -(Nat.ofDigitChars 10 (ds ++ fs) 0 : Int)
        else Nat.ofDigitChars 10 (ds ++ fs) 0,fs.length⟩ := by
  have hall : ∀ c ∈ signText negative ++ ds, (c != '.') = true := by
    intro c hc
    rcases List.mem_append.mp hc with hc | hc
    · cases negative
      · cases hc
      · cases List.mem_singleton.mp hc; rfl
    · exact ne_point_of_isDigit (hd c hc)
  have hpoint : ∀ c ∈ ('.' :: fs).head?, (c != '.') = false := by
    intro _ hc
    cases hc
    rfl
  have hboth : ∀ c ∈ ds ++ fs, c.isDigit = true := fun c hc =>
    (List.mem_append.mp hc).elim (hd c) (hf c)
  unfold readDecimal?
  rw [← List.append_assoc,Lexeme.takeWhile_run hall hpoint,Lexeme.dropWhile_run hall hpoint]
  simp only [readInteger?_run negative hne hd,natural?_run hfe hf,List.append_assoc,
    readInteger?_run negative (List.append_ne_nil_of_left_ne_nil hne fs) hboth]
  rfl

/-- A decimal is written with one digit before the point at least, and as many after it as its scale
says. -/
lemma render_decimal (d : Decimal) (h : 1 ≤ d.scale) :
    ∃ ds fs, d.render.toList = signText (decide (d.unscaled < 0)) ++ (ds ++ '.' :: fs) ∧
      Lexeme.Whole ds ∧ fs.length = d.scale ∧ (∀ c ∈ fs, c.isDigit = true) ∧
      Nat.ofDigitChars 10 (ds ++ fs) 0 = d.unscaled.natAbs := by
  obtain ⟨k,hk⟩ : ∃ k : Nat, d.scale = k + 1 := ⟨(d.scale - 1).toNat,by omega⟩
  set digits := Nat.toDigits 10 d.unscaled.natAbs with hdigits
  set padded := List.replicate (k + 2 - digits.length) '0' ++ digits with hpadded
  have hdig : ∀ c ∈ padded, c.isDigit = true := by
    intro c hc
    rcases List.mem_append.mp hc with hc | hc
    · rw [List.eq_of_mem_replicate hc]
      rfl
    · exact digits_toDigits _ c hc
  have hlen : padded.length = (k + 2 - digits.length) + digits.length := by
    simp [hpadded]
  refine ⟨padded.take (padded.length - (k + 1)),padded.drop (padded.length - (k + 1)),?_,?_,?_,?_,?_⟩
  · have hs : ¬ d.scale ≤ 0 := by omega
    have hp : d.scale.toNat = k + 1 := by omega
    simp only [Decimal.render,hs,↓reduceIte,hp,String.toList_append,String.toList_ofList,← hdigits,
      ← hpadded]
    congr 1
    by_cases hneg : d.unscaled < 0 <;> simp [hneg,signText]
  · by_cases hshort : digits.length < k + 2
    · have hone : padded.length - (k + 1) = 1 := by omega
      obtain ⟨m,hm⟩ : ∃ m, k + 2 - digits.length = m + 1 := ⟨k + 1 - digits.length,by omega⟩
      rw [hone,hpadded,hm,List.replicate_succ]
      exact .zero
    · have hzero : k + 2 - digits.length = 0 := by omega
      obtain ⟨m,hm⟩ : ∃ m, padded.length - (k + 1) = m + 1 := ⟨digits.length - (k + 2),by omega⟩
      rw [hm]
      rw [hzero,List.replicate_zero,List.nil_append] at hpadded
      rw [hpadded]
      have hw : Lexeme.Whole digits := whole_toDigits _
      exact hw.take (by omega) m
  · rw [List.length_drop,hk]
    omega
  · exact fun c hc => hdig c (List.mem_of_mem_drop hc)
  · rw [List.take_append_drop,hpadded,Nat.ofDigitChars_append,Nat.ofDigitChars_replicate_zero,
      Nat.mul_zero,hdigits,Nat.ofDigitChars_ten_toDigits]

/-! ### Quoted texts -/

/-- Inside quotes a character stands for itself, or a backslash and a letter stand for it. -/
lemma escape_cases (c : Char) :
    (∃ e, escape c = ['\\',e] ∧ isEscape e = true ∧ unescapeChar e = c) ∨
      (escape c = [c] ∧ c ≠ '\'' ∧ c ≠ '"' ∧ c ≠ '\\' ∧ c ≠ '\n' ∧ c ≠ '\r') := by
  unfold escape
  split
  · exact .inl ⟨'b',rfl,rfl,rfl⟩
  · exact .inl ⟨'n',rfl,rfl,rfl⟩
  · exact .inl ⟨'r',rfl,rfl,rfl⟩
  · exact .inl ⟨'t',rfl,rfl,rfl⟩
  · exact .inl ⟨'\'',rfl,rfl,rfl⟩
  · exact .inl ⟨'"',rfl,rfl,rfl⟩
  · exact .inl ⟨'\\',rfl,rfl,rfl⟩
  · next hn hr _ hq hs hb => exact .inr ⟨rfl,hq,hs,hb,hn,hr⟩

lemma unescape_plain {c : Char} (h : c ≠ '\\') : unescape (c :: cs) = c :: unescape cs := by
  rw [unescape]
  · exact fun hc => absurd hc h
  · exact fun _ _ hc => absurd hc h

lemma unescape_escape (c : Char) : unescape (escape c ++ cs) = c :: unescape cs := by
  rcases escape_cases c with ⟨e,he,_,hc⟩ | ⟨he,_,_,hb,_,_⟩
  · rw [he,← hc]
    rfl
  · rw [he]
    exact unescape_plain hb

lemma unescape_flatMap (cs : List Char) : unescape (cs.flatMap escape) = cs := by
  induction cs with
  | nil => rfl
  | cons c cs ih => rw [List.flatMap_cons,unescape_escape,ih]

lemma quoted_flatMap (cs : List Char) : Lexeme.Quoted (cs.flatMap escape) := by
  induction cs with
  | nil => exact .nil
  | cons c cs ih =>
    rw [List.flatMap_cons]
    rcases escape_cases c with ⟨e,he,hs,_⟩ | ⟨he,_,hq,hb,_,_⟩
    · rw [he]
      exact .escape hs ih
    · rw [he]
      exact .plain hq hb ih

lemma lexeme_escape (c : Char) : Lexeme .character ('\'' :: (escape c ++ ['\''])) := by
  rcases escape_cases c with ⟨e,he,hs,_⟩ | ⟨he,hq,_,hb,hn,hr⟩
  · rw [he]
    exact .escape hs
  · rw [he]
    exact .character hq hb hn hr

/-- The text between two quotes. -/
lemma unquote_quoted {q : Char} (hq : q.utf8Size = 1) : unquote (q :: (cs ++ [q])) = cs := by
  cases cs with
  | nil => simp [unquote,hq]
  | cons c cs =>
    simp only [unquote,List.cons_append]
    rw [← List.cons_append,List.getLast?_concat,List.dropLast_concat]
    simp [hq]

/-- The text of a literal is a token that stands for it. -/
theorem WellFormed.render_reads {v : Literal} (h : v.WellFormed) :
    ∃ kind, Lexeme kind v.render.toList ∧ kind ≠ .operator ∧
      ∀ off, Token.literal? ⟨kind,v.render,off⟩ = some v := by
  cases v with
  | nil => exact ⟨.identifier,.of_keyword (by decide),by decide,fun _ => rfl⟩
  | boolean b =>
    cases b with
    | true => exact ⟨.identifier,.of_keyword (w := "TRUE") (by decide),by decide,fun _ => rfl⟩
    | false => exact ⟨.identifier,.of_keyword (w := "FALSE") (by decide),by decide,fun _ => rfl⟩
  | integer n =>
    refine ⟨.integer,lexeme_repr n,by decide,fun off => ?_⟩
    simp only [Token.literal?,render,readInteger?_repr,Option.map_some]
  | decimal d =>
    obtain ⟨ds,fs,hr,hw,hl,hf,hv⟩ := render_decimal d h
    obtain ⟨c,cs,hc,_⟩ := hw.head
    have hfe : fs ≠ [] := by
      rintro rfl
      have h : 1 ≤ d.scale := h
      simp at hl
      omega
    refine ⟨.decimal,?_,by decide,fun off => ?_⟩
    · rw [render,hr]
      exact .number (signText_cases _) (.decimal hw hfe hf)
    · simp only [Token.literal?,render,hr]
      rw [readDecimal?_run _ (by simp [hc]) hw.all hfe hf,hv,signed_natAbs,hl]
      rfl
  | character c =>
    have hr : (character c).render.toList = '\'' :: (escape c ++ ['\'']) := String.toList_ofList
    refine ⟨.character,?_,by decide,fun off => ?_⟩
    · rw [hr]
      exact lexeme_escape c
    · have hu : unescape (escape c) = [c] := by
        simpa using unescape_flatMap [c]
      simp only [Token.literal?,hr,readCharacter?,unquote_quoted (q := '\'') rfl,hu]
      rfl
  | string s =>
    have hr : (string s).render.toList = '"' :: (s.toList.flatMap escape ++ ['"']) :=
      String.toList_ofList
    refine ⟨.string,?_,by decide,fun off => ?_⟩
    · rw [hr]
      exact .string (quoted_flatMap _)
    · simp only [Token.literal?,hr,readString,unquote_quoted (q := '"') rfl,unescape_flatMap,
        String.ofList_toList]

lemma literal?_decimal {t : Token} {d : Decimal} (h : t.literal? = some (.decimal d)) :
    t.kind = .decimal ∧ readDecimal? t.text.toList = some d := by
  unfold Token.literal? at h
  cases hk : t.kind <;> simp only [hk] at h
  case decimal =>
    obtain ⟨e,he,⟨⟩⟩ := Option.map_eq_some_iff.mp h
    exact ⟨rfl,he⟩
  case identifier => split_ifs at h <;> cases h
  all_goals simp at h

/-- A literal that a token stands for has a text of its own. -/
theorem wellFormed_of_token {t : Token} {v : Literal} (ht : t.Lexical) (h : t.literal? = some v) :
    v.WellFormed := by
  cases v with
  | decimal d =>
    obtain ⟨hk,hd⟩ := literal?_decimal h
    unfold Token.Lexical at ht
    rw [hk] at ht
    generalize t.text.toList = cs at ht hd
    cases ht with
    | number hs hu =>
      cases hu with
      | @decimal ds fs hw hfe hf =>
        obtain ⟨b,rfl⟩ : ∃ b, _ = signText b := hs.elim (⟨false,·⟩) (⟨true,·⟩)
        obtain ⟨c,cs,hc,_⟩ := hw.head
        rw [readDecimal?_run b (by simp [hc]) hw.all hfe hf] at hd
        cases hd
        have := List.length_pos_iff.mpr hfe
        simp only [WellFormed]
        omega
  | _ => trivial

end Literal
end BlockScript
