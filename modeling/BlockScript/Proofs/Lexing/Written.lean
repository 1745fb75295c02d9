import BlockScript.Proofs.Lexing.Spelling
import BlockScript.Proofs.Number.Arithmetic
/-! What the text of a literal writes: the number that its digits count, or its characters with each escape
replaced by the one that it denotes. -/
namespace BlockScript
namespace Literal

/-- What stands after a backslash, and the character that it denotes. -/
def escapes : List (Char × Char) :=
  [('b','\x08'),('n','\n'),('r','\r'),('t','\t'),('\'','\''),('"','"'),('\\','\\')]

/-- The characters that a text between quotes denotes. -/
inductive Denotes : List Char → List Char → Prop
  | nil : Denotes [] []
  | plain {c cs ds} (hc : c ≠ '\\') (h : Denotes cs ds) : Denotes (c :: cs) (c :: ds)
  | escape {e c cs ds} (he : (e,c) ∈ escapes) (h : Denotes cs ds) : Denotes ('\\' :: e :: cs) (c :: ds)

/-- The number that a row of digits counts in tens. -/
def count (ds : List Char) : ℕ := Nat.ofDigits 10 (ds.reverse.map fun d => d.toNat - '0'.toNat)

/-- The literal that a text of its class writes. -/
inductive Written : Token.Kind → List Char → Literal → Prop
  | integer {negative ds n} (hne : ds ≠ []) (hd : ∀ c ∈ ds, Char.isDigit c = true)
    (hn : n = if negative then -(count ds : ℤ) else count ds) :
    Written .integer (signText negative ++ ds) (.integer n)
  | decimal {negative ds fs} {d : Decimal} (hne : ds ≠ []) (hd : ∀ c ∈ ds, Char.isDigit c = true)
    (hfe : fs ≠ []) (hf : ∀ c ∈ fs, Char.isDigit c = true) (hs : d.scale = fs.length)
    (hv : d.toRat = if negative then -(count ds + count fs / 10 ^ fs.length : ℚ)
      else count ds + count fs / 10 ^ fs.length) :
    Written .decimal (signText negative ++ (ds ++ '.' :: fs)) (.decimal d)
  | character {cs c} (h : Denotes cs [c]) : Written .character ('\'' :: (cs ++ ['\''])) (.character c)
  | string {cs s} (h : Denotes cs s.toList) : Written .string ('"' :: (cs ++ ['"'])) (.string s)

section
variable {c e : Char} {cs ds fs : List Char} {kind : Token.Kind} {v : Literal}

/-! ### Numbers -/

lemma count_eq (ds : List Char) : count ds = Nat.ofDigitChars 10 ds 0 := by
  induction ds with
  | nil => rfl
  | cons d ds ih =>
    unfold count at ih ⊢
    rw [Lexeme.ofDigitChars_cons_eq,List.reverse_cons,List.map_append,Nat.ofDigits_append,ih,
      List.length_map,List.length_reverse,List.map_singleton,Nat.ofDigits_singleton,Nat.add_comm]

lemma count_append (ds fs : List Char) : count (ds ++ fs) = count ds * 10 ^ fs.length + count fs := by
  simp only [count_eq]
  rw [Nat.ofDigitChars_append,Nat.ofDigitChars_eq_ofDigitChars_zero,Nat.mul_comm]

/-- Digits around a point write the number of all digits at the scale of those behind it. -/
lemma toRat_digits (negative : Bool) (ds fs : List Char) :
    Decimal.toRat ⟨if negative then -(count (ds ++ fs) : ℤ) else count (ds ++ fs),fs.length⟩ =
      if negative then -(count ds + count fs / 10 ^ fs.length : ℚ)
      else count ds + count fs / 10 ^ fs.length := by
  have hpow : (10 : ℚ) ^ fs.length ≠ 0 := by positivity
  have hcount : (count (ds ++ fs) : ℚ) = (count ds + count fs / 10 ^ fs.length) * 10 ^ fs.length := by
    rw [count_append,add_mul,div_mul_cancel₀ _ hpow]
    push_cast
    rfl
  apply Decimal.toRat_of_cast
  rw [zpow_natCast]
  cases negative
  · exact_mod_cast hcount
  · simp only [if_true,Int.cast_neg,Int.cast_natCast,hcount,neg_mul]

/-- At one scale, each number is written by one decimal. -/
lemma eq_of_toRat {a b : Decimal} (hs : a.scale = b.scale) (hv : a.toRat = b.toRat) : a = b := by
  obtain ⟨m,s⟩ := a
  obtain ⟨n,s'⟩ := b
  obtain rfl : s = s' := hs
  have hpow : (10 : ℚ) ^ (-s) ≠ 0 := by positivity
  have hmn : (m : ℚ) = n := mul_right_cancel₀ hpow hv
  rw [Int.cast_inj.mp hmn]

/-! ### Quoted texts -/

lemma unescapeChar_of_mem (he : (e,c) ∈ escapes) : unescapeChar e = c := by
  have hall : ∀ p ∈ escapes, unescapeChar p.1 = p.2 := by decide
  exact hall _ he

lemma mem_escapes (he : Lexer.isEscape e = true) : (e,unescapeChar e) ∈ escapes := by
  have hmem : e ∈ escapes.map Prod.fst := by
    simpa [Lexer.isEscape,escapes,or_assoc] using he
  obtain ⟨⟨e,c⟩,hp,rfl⟩ := List.mem_map.mp hmem
  rwa [unescapeChar_of_mem hp]

/-- What is decoded is what the text denotes. -/
lemma Denotes.unescape_eq (h : Denotes cs ds) : unescape cs = ds := by
  induction h with
  | nil => rfl
  | plain hc h ih => rw [unescape_plain hc,ih]
  | escape he h ih => rw [unescape,unescapeChar_of_mem he,ih]

lemma denotes_quoted (h : Lexeme.Quoted cs) : ∃ ds, Denotes cs ds := by
  induction h with
  | nil => exact ⟨[],.nil⟩
  | @plain c cs hq hb h ih =>
    obtain ⟨ds,hd⟩ := ih
    exact ⟨c :: ds,.plain hb hd⟩
  | @escape e cs he h ih =>
    obtain ⟨ds,hd⟩ := ih
    exact ⟨unescapeChar e :: ds,.escape (mem_escapes he) hd⟩

/-! ### Reading -/

/-- A literal is read as what its text writes. -/
theorem Written.literal?_eq (h : Written kind cs v) (off : ℕ) :
    Token.literal? ⟨kind,String.ofList cs,off⟩ = some v := by
  simp only [Token.literal?,String.toList_ofList]
  cases h with
  | integer hne hd hn =>
    rw [readInteger?_run _ hne hd,hn,count_eq]
    rfl
  | @decimal negative ds fs d hne hd hfe hf hs hv =>
    rw [readDecimal?_run negative hne hd hfe hf,← count_eq]
    have hdec : ⟨if negative then -(count (ds ++ fs) : ℤ) else count (ds ++ fs),fs.length⟩ = d :=
      eq_of_toRat hs.symm ((toRat_digits negative ds fs).trans hv.symm)
    rw [hdec,Option.map_some]
  | character h =>
    rw [readCharacter?,unquote_quoted rfl,h.unescape_eq]
    rfl
  | string h =>
    rw [readString,unquote_quoted rfl,h.unescape_eq,String.ofList_toList]

lemma Written.unique {w : Literal} (h : Written kind cs v) (hw : Written kind cs w) : w = v :=
  Option.some.inj ((hw.literal?_eq 0).symm.trans (h.literal?_eq 0))

/-- Every text of a class of literals writes one. -/
theorem written_of_lexeme (h : Lexeme kind cs) (hi : kind ≠ .identifier) (ho : kind ≠ .operator) :
    ∃ v, Written kind cs v := by
  cases h with
  | identifier => exact absurd rfl hi
  | @number sign _ ds hs hu =>
    obtain ⟨negative,rfl⟩ : ∃ b, sign = signText b := hs.elim (⟨false,·⟩) (⟨true,·⟩)
    cases hu with
    | integer hw =>
      obtain ⟨c,cs,hc,_⟩ := hw.head
      exact ⟨_,.integer (by simp [hc]) hw.all rfl⟩
    | @decimal ds fs hw hfe hf =>
      obtain ⟨c,cs,hc,_⟩ := hw.head
      exact ⟨_,.decimal (by simp [hc]) hw.all hfe hf rfl (toRat_digits negative ds fs)⟩
  | @character c hq hb hn hr => exact ⟨_,.character (.plain hb .nil)⟩
  | @escape e he => exact ⟨_,.character (.escape (mem_escapes he) .nil)⟩
  | string hq =>
    obtain ⟨ds,hd⟩ := denotes_quoted hq
    exact ⟨.string (String.ofList ds),.string (by rwa [String.toList_ofList])⟩
  | pair => exact absurd rfl ho
  | single => exact absurd rfl ho

/-- Nothing is left over of a character once it is decoded. -/
lemma Written.character_alone {cs : List Char} (h : Written .character cs v) :
    ∃ c, v = .character c ∧ unescape (unquote cs) = [c] := by
  cases h with
  | @character cs c h => exact ⟨c,rfl,by rw [unquote_quoted rfl,h.unescape_eq]⟩

end
end Literal
end BlockScript
