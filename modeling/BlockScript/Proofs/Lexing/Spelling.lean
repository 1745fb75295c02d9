import BlockScript.Proofs.Lexing.Literal
import Mathlib.Algebra.Group.Nat.Defs
/-! The spelling of a token that a tree keeps: one for each value of a literal. -/
namespace BlockScript
open Lexer

namespace Token

/-- A zero is spelled without a sign. -/
def spellNumber : List Char → List Char
  | '-' :: cs => if cs.all fun c => c == '0' || c == '.' then cs else '-' :: cs
  | cs => cs

/-- Between quotes every character that has an escape is spelled with it. -/
def spellInside : List Char → List Char
  | [] => []
  | '\\' :: e :: cs => '\\' :: e :: spellInside cs
  | c :: cs => escape c ++ spellInside cs

def spellQuoted : List Char → List Char
  | q :: cs => q :: (spellInside cs.dropLast ++ [q])
  | [] => []

def spelling (t : Token) : String :=
  match t.kind with
  | .identifier | .operator => t.text
  | .integer | .decimal => String.ofList (spellNumber t.text.toList)
  | .character | .string => String.ofList (spellQuoted t.text.toList)

end Token

/-- The class of the token that a literal is written as. -/
def Literal.kind : Literal → Token.Kind
  | nil | boolean _ => .identifier
  | integer _ => .integer
  | decimal _ => .decimal
  | character _ => .character
  | string _ => .string

namespace Lexeme
variable {c : Char} {ds es fs gs : List Char}

/-! ### Runs of digits -/

lemma digit_code (hc : c.isDigit = true) : 48 ≤ c.toNat ∧ c.toNat ≤ 57 := by
  simpa [Char.isDigit,UInt32.le_iff_toNat_le] using hc

lemma digit_lt (hc : c.isDigit = true) : c.toNat - '0'.toNat < 10 := by
  have hd := digit_code hc
  change c.toNat - 48 < 10
  omega

/-- Digits are told apart by their values. -/
lemma digit_inj {e : Char} (hc : c.isDigit = true) (he : e.isDigit = true)
    (hv : c.toNat - '0'.toNat = e.toNat - '0'.toNat) : c = e := by
  have h1 := digit_code hc
  have h2 := digit_code he
  have hv : c.toNat - 48 = e.toNat - 48 := hv
  exact Char.toNat_inj.mp (by omega)

lemma ofDigitChars_cons_eq (c : Char) (cs : List Char) : Nat.ofDigitChars 10 (c :: cs) 0 =
    10 ^ cs.length * (c.toNat - '0'.toNat) + Nat.ofDigitChars 10 cs 0 := by
  rw [Nat.ofDigitChars_cons,Nat.mul_zero,Nat.zero_add]
  exact Nat.ofDigitChars_eq_ofDigitChars_zero

lemma ofDigitChars_lt (hd : ∀ c ∈ ds, c.isDigit = true) :
    Nat.ofDigitChars 10 ds 0 < 10 ^ ds.length := by
  induction ds with
  | nil => exact Nat.one_pos
  | cons c cs ih =>
    obtain ⟨hc,hcs⟩ := List.forall_mem_cons.mp hd
    rw [ofDigitChars_cons_eq,List.length_cons,Nat.pow_succ]
    have h9 : 10 ^ cs.length * (c.toNat - '0'.toNat) ≤ 10 ^ cs.length * 9 :=
      Nat.mul_le_mul_left _ (Nat.le_of_lt_succ (digit_lt hc))
    have := ih hcs
    omega

/-- Runs of one length are told apart by their values. -/
lemma ofDigitChars_inj (hd : ∀ c ∈ ds, c.isDigit = true) (he : ∀ c ∈ es, c.isDigit = true)
    (hl : ds.length = es.length) (hv : Nat.ofDigitChars 10 ds 0 = Nat.ofDigitChars 10 es 0) :
    ds = es := by
  induction ds generalizing es with
  | nil => exact (List.length_eq_zero_iff.mp hl.symm).symm
  | cons c cs ih =>
    cases es with
    | nil => cases hl
    | cons e es =>
      obtain ⟨hc,hcs⟩ := List.forall_mem_cons.mp hd
      obtain ⟨hce,hes⟩ := List.forall_mem_cons.mp he
      have hl : cs.length = es.length := Nat.succ.inj hl
      rw [ofDigitChars_cons_eq,ofDigitChars_cons_eq,← hl] at hv
      have hx := ofDigitChars_lt hcs
      have hy := ofDigitChars_lt hes
      rw [← hl] at hy
      have hpos : 0 < 10 ^ cs.length := Nat.pow_pos (by decide)
      have hhead := congrArg (· / 10 ^ cs.length) hv
      have htail := congrArg (· % 10 ^ cs.length) hv
      simp only [Nat.mul_add_div hpos,Nat.div_eq_of_lt hx,Nat.div_eq_of_lt hy,Nat.add_zero,
        Nat.mul_add_mod,Nat.mod_eq_of_lt hx,Nat.mod_eq_of_lt hy] at hhead htail
      rw [ih hcs hes hl htail,digit_inj hc hce hhead]

lemma le_ofDigitChars (hc : c.isDigit = true) (hz : c ≠ '0') :
    10 ^ ds.length ≤ Nat.ofDigitChars 10 (c :: ds) 0 := by
  have hpos : 1 ≤ c.toNat - '0'.toNat := by
    by_contra hn
    exact hz (digit_inj hc rfl (by omega))
  rw [ofDigitChars_cons_eq]
  exact Nat.le_trans (Nat.le_mul_of_pos_right _ hpos) (Nat.le_add_right _ _)

/-- Without needless zeros in front, a number of as many places is written with as many digits. -/
lemma Whole.length_le (hd : Whole ds) (he : Whole es) (hg : ∀ c ∈ gs, c.isDigit = true)
    (hl : fs.length = gs.length)
    (hv : Nat.ofDigitChars 10 (ds ++ fs) 0 = Nat.ofDigitChars 10 (es ++ gs) 0) :
    ds.length ≤ es.length := by
  cases hd with
  | zero =>
    obtain ⟨e,cs,rfl,_⟩ := he.head
    exact Nat.le_add_left 1 cs.length
  | @nonzero d ds h hz _ =>
    have hle : 10 ^ (ds ++ fs).length ≤ Nat.ofDigitChars 10 (d :: (ds ++ fs)) 0 := le_ofDigitChars h hz
    have hlt := ofDigitChars_lt (List.forall_mem_append.mpr ⟨he.all,hg⟩)
    have hpow := Nat.lt_of_le_of_lt (hle.trans (Nat.le_of_eq hv)) hlt
    have := (Nat.pow_lt_pow_iff_right (by decide)).mp hpow
    simp only [List.length_append,hl] at this
    exact Nat.lt_of_add_lt_add_right this

lemma Whole.unique (hd : Whole ds) (he : Whole es) (hf : ∀ c ∈ fs, c.isDigit = true)
    (hg : ∀ c ∈ gs, c.isDigit = true) (hl : fs.length = gs.length)
    (hv : Nat.ofDigitChars 10 (ds ++ fs) 0 = Nat.ofDigitChars 10 (es ++ gs) 0) : ds = es ∧ fs = gs := by
  have hlen : ds.length = es.length :=
    Nat.le_antisymm (hd.length_le he hg hl hv) (he.length_le hd hf hl.symm hv.symm)
  have happend : ds ++ fs = es ++ gs :=
    ofDigitChars_inj (List.forall_mem_append.mpr ⟨hd.all,hf⟩) (List.forall_mem_append.mpr ⟨he.all,hg⟩)
      (by rw [List.length_append,List.length_append,hlen,hl]) hv
  exact List.append_inj happend hlen

lemma all_zero_iff (hd : ∀ c ∈ ds, c.isDigit = true) :
    (∀ c ∈ ds, c = '0') ↔ Nat.ofDigitChars 10 ds 0 = 0 := by
  have hzeros : Nat.ofDigitChars 10 (List.replicate ds.length '0') 0 = 0 := by
    rw [Nat.ofDigitChars_replicate_zero,Nat.mul_zero]
  constructor
  · intro h
    rw [List.eq_replicate_of_mem h]
    exact hzeros
  · intro h c hc
    have hds : ds = List.replicate ds.length '0' := by
      refine ofDigitChars_inj hd ?_ (List.length_replicate ..).symm (h.trans hzeros.symm)
      intro c hc
      rw [List.eq_of_mem_replicate hc]
      rfl
    rw [hds] at hc
    exact List.eq_of_mem_replicate hc

end Lexeme

namespace Literal
open Token (spellNumber spellInside spellQuoted)
variable {ds fs : List Char}

/-! ### Literals -/

lemma all_zero_or_point (hd : ∀ c ∈ ds, c.isDigit = true) :
    (ds.all fun c => c == '0' || c == '.') = true ↔ ∀ c ∈ ds, c = '0' := by
  simp only [List.all_eq_true,Bool.or_eq_true,beq_iff_eq]
  refine forall₂_congr fun c hc => or_iff_left ?_
  rintro rfl
  exact absurd (hd '.' hc) (by decide)

/-- The sign of a number is spelled as its value has one; a point may stand among the digits. -/
lemma spellNumber_run (negative : Bool) (hne : ds ≠ []) (hd : ∀ c ∈ ds, c.isDigit = true)
    {point : List Char} (hp : point = [] ∨ point = ['.']) (hf : ∀ c ∈ fs, c.isDigit = true) {n : Int}
    (hn : n = if negative then -(Nat.ofDigitChars 10 (ds ++ fs) 0 : Int)
      else Nat.ofDigitChars 10 (ds ++ fs) 0) :
    spellNumber (signText negative ++ (ds ++ (point ++ fs))) =
      signText (decide (n < 0)) ++ (ds ++ (point ++ fs)) := by
  have hdf : ∀ c ∈ ds ++ fs, c.isDigit = true := List.forall_mem_append.mpr ⟨hd,hf⟩
  cases negative with
  | false =>
    obtain ⟨d,ds,rfl⟩ := List.exists_cons_of_ne_nil hne
    have hpos : decide (n < 0) = false := by
      simp [hn]
    rw [hpos]
    simp only [signText,Bool.false_eq_true,↓reduceIte,List.nil_append,List.cons_append]
    rw [spellNumber]
    intro _ h
    obtain rfl := (List.cons.inj h).1
    exact absurd (hd '-' List.mem_cons_self) (by decide)
  | true =>
    have hpoint : (point.all fun c => c == '0' || c == '.') = true := by
      rcases hp with rfl | rfl <;> rfl
    have hzero : ((ds ++ (point ++ fs)).all fun c => c == '0' || c == '.') = true ↔
        Nat.ofDigitChars 10 (ds ++ fs) 0 = 0 := by
      rw [← Lexeme.all_zero_iff hdf,← all_zero_or_point hdf]
      simp only [List.all_append,hpoint,Bool.true_and]
    simp only [signText,↓reduceIte,List.singleton_append,spellNumber]
    by_cases hv : Nat.ofDigitChars 10 (ds ++ fs) 0 = 0
    · have hn : ¬ n < 0 := by
        simp [hn,hv]
      rw [if_pos (hzero.mpr hv),if_neg (by simpa using hn)]
      rfl
    · have hn : n < 0 := by
        simp only [hn,↓reduceIte]
        omega
      rw [if_neg (fun h => hv (hzero.mp h)),if_pos (by simpa using hn)]
      rfl

lemma natAbs_signed (negative : Bool) (n : Nat) : (if negative then -(n : Int) else n).natAbs = n := by
  cases negative <;> simp

lemma spellNumber_integer (negative : Bool) (hw : Lexeme.Whole ds) {n : Int}
    (hn : n = if negative then -(Nat.ofDigitChars 10 ds 0 : Int) else Nat.ofDigitChars 10 ds 0) :
    spellNumber (signText negative ++ ds) = n.repr.toList := by
  obtain ⟨c,cs,hc,_⟩ := hw.head
  have hrun : spellNumber (signText negative ++ (ds ++ ([] ++ []))) =
      signText (decide (n < 0)) ++ (ds ++ ([] ++ [])) :=
    spellNumber_run negative (by simp [hc]) hw.all (.inl rfl) (List.forall_mem_nil _)
      (by rwa [List.append_nil])
  have hv : Nat.ofDigitChars 10 (ds ++ []) 0 =
      Nat.ofDigitChars 10 (Nat.toDigits 10 n.natAbs ++ []) 0 := by
    rw [List.append_nil,List.append_nil,Nat.ofDigitChars_ten_toDigits,hn,natAbs_signed]
  have hds := (hw.unique (whole_toDigits n.natAbs) (List.forall_mem_nil _) (List.forall_mem_nil _) rfl hv).1
  rw [List.append_nil,List.append_nil] at hrun
  rw [hrun,repr_toList,← hds]

lemma spellNumber_decimal (negative : Bool) (hw : Lexeme.Whole ds) (hne : fs ≠ [])
    (hf : ∀ c ∈ fs, c.isDigit = true) {d : Decimal} (hs : d.scale = fs.length)
    (hd : d.unscaled = if negative then -(Nat.ofDigitChars 10 (ds ++ fs) 0 : Int)
      else Nat.ofDigitChars 10 (ds ++ fs) 0) :
    spellNumber (signText negative ++ (ds ++ '.' :: fs)) = d.render.toList := by
  obtain ⟨c,cs,hc,_⟩ := hw.head
  have hrun : spellNumber (signText negative ++ (ds ++ (['.'] ++ fs))) =
      signText (decide (d.unscaled < 0)) ++ (ds ++ (['.'] ++ fs)) :=
    spellNumber_run negative (by simp [hc]) hw.all (.inr rfl) hf hd
  have hscale : 1 ≤ d.scale := by
    have := List.length_pos_iff.mpr hne
    omega
  obtain ⟨es,gs,hr,hw',hl,hg,hv⟩ := render_decimal d hscale
  obtain ⟨rfl,rfl⟩ := hw.unique hw' hf hg (by omega) (by rw [hv,hd,natAbs_signed])
  rw [hr]
  exact hrun

/-! ### Quoted texts -/

lemma escape_unescapeChar {e : Char} (he : isEscape e = true) : escape (unescapeChar e) = ['\\',e] := by
  have hmem : e ∈ ['b','n','r','t','\'','"','\\'] := by
    simpa [isEscape,or_assoc] using he
  simp only [List.mem_cons,List.not_mem_nil,or_false] at hmem
  rcases hmem with rfl | rfl | rfl | rfl | rfl | rfl | rfl <;> rfl

lemma spellInside_plain {c : Char} {cs : List Char} (hb : c ≠ '\\') :
    spellInside (c :: cs) = escape c ++ spellInside cs := by
  rw [spellInside]
  exact fun _ _ h _ => hb h

lemma spellInside_quoted {cs : List Char} (h : Lexeme.Quoted cs) :
    spellInside cs = (unescape cs).flatMap escape := by
  induction h with
  | nil => rfl
  | @plain c cs hq hb h ih =>
    rw [spellInside_plain hb,unescape_plain hb,List.flatMap_cons,ih]
  | @escape e cs he h ih =>
    rw [spellInside,unescape,List.flatMap_cons,escape_unescapeChar he,ih]
    rfl

lemma spellQuoted_concat (q : Char) (cs : List Char) :
    spellQuoted (q :: (cs ++ [q])) = q :: (spellInside cs ++ [q]) := by
  rw [spellQuoted,List.dropLast_concat]

end Literal

open Literal in
/-- A literal is written as its token is spelled. -/
theorem Token.Lexical.spelling_eq {t : Token} {v : Literal} (hl : t.Lexical) (h : t.literal? = some v) :
    t.kind = v.kind ∧ t.spelling = v.render := by
  obtain ⟨kind,text,off⟩ := t
  obtain ⟨cs,rfl⟩ : ∃ cs, text = String.ofList cs := ⟨_,String.ofList_toList.symm⟩
  have hl : Lexeme kind cs := by
    simpa [Token.Lexical] using hl
  simp only [Token.literal?,String.toList_ofList] at h
  simp only [Token.spelling,String.toList_ofList]
  cases hl with
  | identifier hc hs =>
    simp only [Token.is,beq_iff_eq] at h
    split_ifs at h with hnil htrue hfalse <;> cases h
    · exact ⟨rfl,hnil⟩
    · exact ⟨rfl,htrue⟩
    · exact ⟨rfl,hfalse⟩
  | @number sign _ ds hs hu =>
    obtain ⟨b,rfl⟩ : ∃ b, sign = signText b := hs.elim (⟨false,·⟩) (⟨true,·⟩)
    cases hu with
    | integer hw =>
      obtain ⟨c,cs,hc,_⟩ := hw.head
      rw [readInteger?_run b (by simp [hc]) hw.all] at h
      cases h
      exact ⟨rfl,String.toList_inj.mp (by rw [String.toList_ofList,spellNumber_integer b hw rfl,render])⟩
    | @decimal ds fs hw hfe hf =>
      obtain ⟨c,cs,hc,_⟩ := hw.head
      rw [readDecimal?_run b (by simp [hc]) hw.all hfe hf] at h
      cases h
      refine ⟨rfl,String.toList_inj.mp ?_⟩
      rw [String.toList_ofList,render]
      exact spellNumber_decimal b hw hfe hf rfl rfl
  | @character c hq hb hn hr =>
    have hu : unquote ['\'',c,'\''] = [c] := @unquote_quoted [c] '\'' rfl
    simp only [readCharacter?,hu,unescape_plain hb] at h
    cases h
    have hs : spellQuoted ['\'',c,'\''] = '\'' :: (spellInside [c] ++ ['\'']) := spellQuoted_concat '\'' [c]
    rw [hs,spellInside_plain hb]
    exact ⟨rfl,by simp [render,spellInside]⟩
  | @escape e he =>
    have hu : unquote ['\'','\\',e,'\''] = ['\\',e] := @unquote_quoted ['\\',e] '\'' rfl
    simp only [readCharacter?,hu] at h
    cases h
    refine ⟨rfl,?_⟩
    rw [render,escape_unescapeChar he]
    rfl
  | @string cs hq =>
    simp only [readString,unquote_quoted (q := '"') rfl] at h
    cases h
    rw [spellQuoted_concat,spellInside_quoted hq]
    exact ⟨rfl,by simp [render]⟩
  | pair => cases h
  | single => cases h

end BlockScript
