import BlockScript.Token.Lexer
import Mathlib.Data.List.TakeWhile
/-! The texts of the lexical classes. A token is cut off exactly where its text is one of its class
and the next character does not go on with it. -/
namespace BlockScript
open Lexer

/-- The digits of a whole number; a zero in front stands alone. -/
inductive Lexeme.Whole : List Char → Prop
  | zero : Whole ['0']
  | nonzero {d ds} (hd : Char.isDigit d = true) (hz : d ≠ '0')
    (hs : ∀ c ∈ ds, Char.isDigit c = true) : Whole (d :: ds)

/-- A number without its sign. -/
inductive Lexeme.Unsigned : Token.Kind → List Char → Prop
  | integer {ds} (h : Lexeme.Whole ds) : Unsigned .integer ds
  | decimal {ds fs} (h : Lexeme.Whole ds) (hne : fs ≠ []) (hf : ∀ c ∈ fs, Char.isDigit c = true) :
    Unsigned .decimal (ds ++ '.' :: fs)

/-- What stands between the quotes of a string. -/
inductive Lexeme.Quoted : List Char → Prop
  | nil : Quoted []
  | plain {c cs} (hq : c ≠ '"') (hb : c ≠ '\\') (h : Quoted cs) : Quoted (c :: cs)
  | escape {e cs} (he : isEscape e = true) (h : Quoted cs) : Quoted ('\\' :: e :: cs)

/-- A character that starts no token of another class and is not blank. -/
def Lexer.isSymbol (c : Char) : Bool :=
  !isBlank c && !isNameStart c && !c.isDigit && c != '\'' && c != '"'

/-- The texts of each lexical class. -/
inductive Lexeme : Token.Kind → List Char → Prop
  | identifier {c cs} (hc : isNameStart c = true) (hs : ∀ d ∈ cs, isNameChar d = true) :
    Lexeme .identifier (c :: cs)
  | number {sign kind ds} (hs : sign = [] ∨ sign = ['-']) (h : Lexeme.Unsigned kind ds) :
    Lexeme kind (sign ++ ds)
  | character {c} (hq : c ≠ '\'') (hb : c ≠ '\\') (hn : c ≠ '\n') (hr : c ≠ '\r') :
    Lexeme .character ['\'',c,'\'']
  | escape {e} (he : isEscape e = true) : Lexeme .character ['\'','\\',e,'\'']
  | string {cs} (h : Lexeme.Quoted cs) : Lexeme .string ('"' :: (cs ++ ['"']))
  | pair {c d} (h : operatorPair c = some d) : Lexeme .operator [c,d]
  | single {c} (h : isSymbol c = true) : Lexeme .operator [c]

namespace Lexeme
variable {kind : Token.Kind} {c : Char} {cs ds fs text rest : List Char} {t : Cut}

/-- The next character does not go on with the token. -/
def Stops (kind : Token.Kind) (text rest : List Char) : Prop :=
  ∀ c ∈ rest.head?, match kind with
    | .identifier => isNameChar c = false
    | .integer => c.isDigit = false ∧ c ≠ '.'
    | .decimal => c.isDigit = false
    | .operator => ∀ a, text = [a] → operatorPair a ≠ some c ∧ (a = '-' → c.isDigit = false)
    | .character | .string => True

lemma head_dropWhile {p : Char → Bool} : ∀ c ∈ (cs.dropWhile p).head?, p c = false := by
  intro c hc
  have h := List.head?_dropWhile_not p cs
  rw [Option.mem_def.mp hc] at h
  exact h

lemma all_takeWhile {p : Char → Bool} : ∀ c ∈ cs.takeWhile p, p c = true :=
  fun _ => List.mem_takeWhile_imp

lemma takeWhile_run {p : Char → Bool} (hs : ∀ c ∈ cs, p c = true)
    (hr : ∀ c ∈ rest.head?, p c = false) : (cs ++ rest).takeWhile p = cs := by
  rw [List.takeWhile_append_of_pos hs]
  cases rest with
  | nil => exact List.append_nil cs
  | cons c rest => rw [List.takeWhile_cons,if_neg (by simp [hr c rfl]),List.append_nil]

lemma dropWhile_run {p : Char → Bool} (hs : ∀ c ∈ cs, p c = true)
    (hr : ∀ c ∈ rest.head?, p c = false) : (cs ++ rest).dropWhile p = rest := by
  have h := List.takeWhile_append_dropWhile (p := p) (l := cs ++ rest)
  rw [takeWhile_run hs hr] at h
  exact List.append_cancel_left h

lemma any_head_eq_false {p : Char → Bool} (hr : ∀ c ∈ cs.head?, p c = false) :
    cs.head?.any p = false := by
  cases cs with
  | nil => rfl
  | cons c cs => exact hr c rfl

lemma head_of_any_eq_false {p : Char → Bool} (h : ¬ cs.head?.any p = true) :
    ∀ c ∈ cs.head?, p c = false := by
  intro c hc
  rw [Option.mem_def.mp hc] at h
  simpa using h

lemma map_after_ok {front : List Char} {r : Except Fault Cut} (h : r.map (.after front) = .ok t) :
    ∃ u, r = .ok u ∧ t = u.after front := by
  cases r with
  | error e => cases h
  | ok u => cases h; exact ⟨u,rfl,rfl⟩

/-! ### Numbers -/

lemma fraction_whole (hr : ∀ c ∈ rest.head?, c ≠ '.') : fraction rest = .ok ⟨.integer,[],rest⟩ := by
  unfold fraction
  split
  · exact absurd rfl (hr _ rfl)
  · rfl

lemma fraction_point (hne : fs ≠ []) (hf : ∀ c ∈ fs, c.isDigit = true)
    (hr : ∀ c ∈ rest.head?, c.isDigit = false) :
    fraction ('.' :: (fs ++ rest)) = .ok ⟨.decimal,'.' :: fs,rest⟩ := by
  have hhead : (fs ++ rest).head?.any Char.isDigit = true := by
    cases fs with
    | nil => exact absurd rfl hne
    | cons f fs => exact hf f List.mem_cons_self
  simp only [fraction]
  rw [if_pos hhead,takeWhile_run hf hr,dropWhile_run hf hr]

lemma fraction_ok (h : fraction cs = .ok t) :
    (t = ⟨.integer,[],cs⟩ ∧ ∀ c ∈ cs.head?, c ≠ '.') ∨
      ∃ fs rest, cs = '.' :: (fs ++ rest) ∧ t = ⟨.decimal,'.' :: fs,rest⟩ ∧ fs ≠ [] ∧
        (∀ c ∈ fs, c.isDigit = true) ∧ ∀ c ∈ rest.head?, c.isDigit = false := by
  unfold fraction at h
  split at h
  · next rest =>
    split at h
    · next hd =>
      cases h
      refine .inr ⟨_,_,by rw [List.takeWhile_append_dropWhile],rfl,?_,all_takeWhile,head_dropWhile⟩
      cases rest with
      | nil => simp at hd
      | cons d rest => simp_all
    · cases h
  · next hp =>
    cases h
    refine .inl ⟨rfl,?_⟩
    intro c hc hdot
    obtain ⟨rest,rfl⟩ := List.head?_eq_some_iff.mp hc
    exact hp rest (by rw [hdot])

lemma digits_run (h : Whole ds) (hr : ∀ c ∈ rest.head?, c.isDigit = false) :
    digits (ds ++ rest) = (fraction rest).map (.after ds) := by
  cases h with
  | zero =>
    change (if rest.head?.any Char.isDigit = true then _ else _) = _
    rw [if_neg (by rw [any_head_eq_false hr]; exact Bool.false_ne_true)]
    rfl
  | @nonzero d ds hd hz hs =>
    have hall : ∀ c ∈ d :: ds, c.isDigit = true := List.forall_mem_cons.mpr ⟨hd,hs⟩
    unfold digits
    split
    · next heq => exact absurd (List.cons.inj heq).1 hz
    · rw [takeWhile_run hall hr,dropWhile_run hall hr]

lemma digits_ok (hd : ∀ c ∈ cs.head?, c.isDigit = true) (h : digits cs = .ok t) (hne : cs ≠ []) :
    ∃ ds us u, Whole ds ∧ cs = ds ++ us ∧ (∀ c ∈ us.head?, c.isDigit = false) ∧
      fraction us = .ok u ∧ t = u.after ds := by
  unfold digits at h
  split at h
  · next rest =>
    split at h
    · cases h
    · next hz =>
      obtain ⟨u,hu,rfl⟩ := map_after_ok h
      exact ⟨_,rest,u,.zero,rfl,head_of_any_eq_false hz,hu,rfl⟩
  · next hz =>
    obtain ⟨u,hu,rfl⟩ := map_after_ok h
    refine ⟨_,_,u,?_,List.takeWhile_append_dropWhile.symm,head_dropWhile,hu,rfl⟩
    cases cs with
    | nil => exact absurd rfl hne
    | cons d cs =>
      rw [List.takeWhile_cons,if_pos (hd d rfl)]
      exact .nonzero (hd d rfl) (fun h => hz cs (by rw [h])) all_takeWhile

lemma Unsigned.digits_eq (h : Unsigned kind ds) (hr : Stops kind text rest) :
    digits (ds ++ rest) = .ok ⟨kind,ds,rest⟩ := by
  cases h with
  | integer h =>
    rw [digits_run h (fun c hc => (hr c hc).1),fraction_whole (fun c hc => (hr c hc).2)]
    simp [Except.map,Cut.after]
  | @decimal ds fs h hne hf =>
    have hpoint : ∀ c ∈ ('.' :: (fs ++ rest)).head?, c.isDigit = false := by
      intro _ hc
      cases hc
      rfl
    rw [List.append_assoc,List.cons_append,digits_run h hpoint,fraction_point hne hf hr]
    rfl

lemma unsigned_of_digits (hd : ∀ c ∈ cs.head?, c.isDigit = true) (hne : cs ≠ [])
    (h : digits cs = .ok t) :
    cs = t.text ++ t.rest ∧ Unsigned t.kind t.text ∧ ∀ text, Stops t.kind text t.rest := by
  obtain ⟨ds,us,u,hw,rfl,hus,hu,rfl⟩ := digits_ok hd h hne
  rcases fraction_ok hu with ⟨rfl,hp⟩ | ⟨fs,rest,rfl,rfl,hfs,hf,hr⟩
  · simp only [Cut.after,List.append_nil]
    exact ⟨trivial,.integer hw,fun _ c hc => ⟨hus c hc,hp c hc⟩⟩
  · refine ⟨by simp [Cut.after],.decimal hw hfs hf,fun _ => hr⟩

lemma Whole.head (h : Whole ds) : ∃ d es, ds = d :: es ∧ d.isDigit = true := by
  cases h with
  | zero => exact ⟨_,_,rfl,rfl⟩
  | nonzero hd => exact ⟨_,_,rfl,hd⟩

lemma Whole.take (h : Whole ds) (hl : 2 ≤ ds.length) (n : Nat) :
    Whole (ds.take (n + 1)) := by
  cases h with
  | zero => simp at hl
  | nonzero hd hz hs =>
    rw [List.take_succ_cons]
    exact .nonzero hd hz fun c hc => hs c (List.mem_of_mem_take hc)

lemma Whole.all (h : Whole ds) : ∀ c ∈ ds, c.isDigit = true := by
  cases h with
  | zero =>
    intro c hc
    rw [List.mem_singleton.mp hc]
    rfl
  | nonzero hd _ hs => exact List.forall_mem_cons.mpr ⟨hd,hs⟩

lemma Unsigned.head (h : Unsigned kind ds) : ∃ d es, ds = d :: es ∧ d.isDigit = true := by
  cases h with
  | integer h => exact h.head
  | decimal h =>
    obtain ⟨d,es,rfl,hd⟩ := h.head
    exact ⟨d,_,rfl,hd⟩

/-! ### Quoted texts -/

lemma closingQuote_ok (h : closingQuote cs = .ok t) :
    cs = '\'' :: t.rest ∧ t.kind = .character ∧ t.text = ['\''] := by
  unfold closingQuote at h
  split at h <;> cases h
  exact ⟨rfl,rfl,rfl⟩

lemma character_ok (h : Lexer.character cs = .ok t) :
    cs = t.text ++ t.rest ∧ Lexeme t.kind ('\'' :: t.text) ∧ t.kind = .character := by
  unfold Lexer.character at h
  split at h
  · cases h
  · next c rest =>
    split at h
    · cases h
    · next hq =>
      split at h
      · cases h
      · next hnr =>
        split at h
        · next hb =>
          subst hb
          split at h
          · next e rest =>
            split at h
            · next he =>
              obtain ⟨u,hu,rfl⟩ := map_after_ok h
              obtain ⟨rfl,hk,ht⟩ := closingQuote_ok hu
              simp only [Cut.after,hk,ht]
              exact ⟨rfl,.escape he,trivial⟩
            · cases h
          · cases h
        · next hb =>
          obtain ⟨u,hu,rfl⟩ := map_after_ok h
          obtain ⟨rfl,hk,ht⟩ := closingQuote_ok hu
          simp only [Cut.after,hk,ht]
          rw [not_or] at hnr
          exact ⟨rfl,.character hq hb hnr.1 hnr.2,trivial⟩

lemma string_ok (h : Lexer.string cs = .ok t) :
    cs = t.text ++ t.rest ∧ t.kind = .string ∧ ∃ qs, Quoted qs ∧ t.text = qs ++ ['"'] := by
  fun_induction Lexer.string cs generalizing t with
  | case1 => cases h
  | case2 rest => cases h; exact ⟨rfl,rfl,[],.nil,rfl⟩
  | case3 e rest he ih =>
    obtain ⟨u,hu,rfl⟩ := map_after_ok h
    obtain ⟨rfl,hk,qs,hq,ht⟩ := ih hu
    exact ⟨rfl,hk,_,.escape he hq,by simp [Cut.after,ht]⟩
  | case4 => cases h
  | case5 => cases h
  | case6 c rest hq hb hl ih =>
    obtain ⟨u,hu,rfl⟩ := map_after_ok h
    obtain ⟨rfl,hk,qs,hqs,ht⟩ := ih hu
    refine ⟨rfl,hk,c :: qs,.plain hq ?_ hqs,by simp [Cut.after,ht]⟩
    rintro rfl
    cases hr : u.text ++ u.rest with
    | nil => exact hl rfl hr
    | cons e es => exact hb e es rfl hr

lemma Quoted.string_eq (h : Quoted cs) :
    Lexer.string (cs ++ '"' :: rest) = .ok ⟨.string,cs ++ ['"'],rest⟩ := by
  induction h with
  | nil => rfl
  | @plain c cs hq hb h ih =>
    have : Lexer.string (c :: (cs ++ '"' :: rest)) = (Lexer.string (cs ++ '"' :: rest)).map
        (.after [c]) := by
      rw [Lexer.string]
      · exact hq
      · exact fun _ _ h => absurd h hb
      · exact fun h => absurd h hb
    rw [List.cons_append,this,ih]
    rfl
  | @escape e cs he h ih =>
    rw [List.cons_append,List.cons_append,Lexer.string,if_pos he,ih]
    rfl

/-! ### Cutting a token -/

lemma isNameStart_of_isDigit (h : c.isDigit = true) : isNameStart c = false := by
  have hne : c ≠ '@' := by
    rintro rfl
    exact absurd h (by decide)
  have hd : 48 ≤ c.val ∧ c.val ≤ 57 := by simpa [Char.isDigit] using h
  change (c == '@' || (decide (65 ≤ c.val ∧ c.val ≤ 90) ||
    decide (97 ≤ c.val) && decide (c.val ≤ 122))) = false
  grind

lemma isBlank_eq_false {p : Char → Bool}
    (hp : [' ','\t','\r','\n','\x08','\\'].all (!p ·) = true) (h : p c = true) :
    isBlank c = false := by
  by_contra hb
  rw [Bool.not_eq_false] at hb
  have hmem : c ∈ [' ','\t','\r','\n','\x08','\\'] := by
    simpa [isBlank,or_assoc] using hb
  simpa [h] using List.all_eq_true.mp hp c hmem

lemma operatorPair_symbol {d : Char} (h : operatorPair c = some d) :
    isSymbol c = true ∧ c ≠ '-' := by
  unfold operatorPair at h
  split at h
  · next hc => rcases hc with rfl | rfl <;> decide
  · split at h
    · next hc => rcases hc with rfl | rfl <;> decide
    · cases h

lemma operatorPair_second {d : Char} (h : operatorPair c = some d) : d ∈ ['=','&','|'] := by
  unfold operatorPair at h
  split at h
  · cases h
    decide
  · split at h
    · next hc =>
      cases h
      rcases hc with rfl | rfl <;> decide
    · cases h

lemma operator_ok (hc : isSymbol c = true) (hm : ¬ (c = '-' ∧ cs.head?.any Char.isDigit = true)) :
    c :: cs = (operator c cs).text ++ (operator c cs).rest ∧
      Lexeme (operator c cs).kind (operator c cs).text ∧
      Stops (operator c cs).kind (operator c cs).text (operator c cs).rest := by
  unfold operator
  split
  · next d cs =>
    split
    · next hp =>
      refine ⟨rfl,.pair hp,fun _ _ a ha => ?_⟩
      cases ha
    · next hp =>
      refine ⟨rfl,.single hc,?_⟩
      rintro _ ⟨⟩ a ⟨⟩
      exact ⟨hp,fun ha => by simpa [ha] using hm⟩
  · exact ⟨rfl,.single hc,nofun⟩

lemma signed_ok (h : (digits cs).map (.after ['-']) = .ok t)
    (hd : cs.head?.any Char.isDigit = true) :
    '-' :: cs = t.text ++ t.rest ∧ Lexeme t.kind t.text ∧ Stops t.kind t.text t.rest := by
  obtain ⟨u,hu,rfl⟩ := map_after_ok h
  cases cs with
  | nil => cases hd
  | cons d cs =>
    obtain ⟨hcs,hu,hs⟩ := unsigned_of_digits (by intro c hc; cases hc; exact hd) (by simp) hu
    rw [hcs]
    exact ⟨rfl,.number (.inr rfl) hu,hs _⟩

lemma quoted_character_ok (h : (Lexer.character cs).map (.after ['\'']) = .ok t) :
    '\'' :: cs = t.text ++ t.rest ∧ Lexeme t.kind t.text ∧ Stops t.kind t.text t.rest := by
  obtain ⟨u,hu,rfl⟩ := map_after_ok h
  obtain ⟨rfl,hl,hk⟩ := character_ok hu
  refine ⟨rfl,hl,?_⟩
  simp only [Cut.after,hk]
  exact fun _ _ => trivial

lemma quoted_string_ok (h : (Lexer.string cs).map (.after ['"']) = .ok t) :
    '"' :: cs = t.text ++ t.rest ∧ Lexeme t.kind t.text ∧ Stops t.kind t.text t.rest := by
  obtain ⟨u,hu,rfl⟩ := map_after_ok h
  obtain ⟨rfl,hk,qs,hqs,ht⟩ := string_ok hu
  simp only [Cut.after,hk,ht]
  exact ⟨rfl,.string hqs,fun _ _ => trivial⟩

/-- What is cut off is a token, and it ends there. -/
theorem of_cut (hb : isBlank c = false) (h : cut c cs = .ok t) :
    c :: cs = t.text ++ t.rest ∧ Lexeme t.kind t.text ∧ Stops t.kind t.text t.rest := by
  unfold cut at h
  by_cases hn : isNameStart c = true
  · rw [if_pos hn] at h
    cases h
    exact ⟨by simp [name,Cut.after],.identifier hn all_takeWhile,head_dropWhile⟩
  by_cases hd : c.isDigit = true
  · rw [if_neg hn,if_pos hd] at h
    obtain ⟨hcs,hu,hs⟩ := unsigned_of_digits (by intro d hc; cases hc; exact hd) (by simp) h
    exact ⟨hcs,.number (.inl rfl) hu,hs _⟩
  by_cases hm : c = '-' ∧ cs.head?.any Char.isDigit = true
  · rw [if_neg hn,if_neg hd,if_pos hm,hm.1] at h
    rw [hm.1]
    exact signed_ok h hm.2
  by_cases hq : c = '\''
  · rw [if_neg hn,if_neg hd,if_neg hm,if_pos hq,hq] at h
    rw [hq]
    exact quoted_character_ok h
  by_cases hs : c = '"'
  · rw [if_neg hn,if_neg hd,if_neg hm,if_neg hq,if_pos hs,hs] at h
    rw [hs]
    exact quoted_string_ok h
  · rw [if_neg hn,if_neg hd,if_neg hm,if_neg hq,if_neg hs] at h
    cases h
    exact operator_ok (by simp [isSymbol,hb,hn,hd,hq,hs]) hm

lemma cut_single (hc : isSymbol c = true) (hm : ¬ (c = '-' ∧ rest.head?.any Char.isDigit = true)) :
    cut c rest = .ok (operator c rest) := by
  simp only [isSymbol,Bool.and_eq_true,Bool.not_eq_true',bne_iff_ne] at hc
  obtain ⟨⟨⟨⟨_,hn⟩,hd⟩,hq⟩,hs⟩ := hc
  simp only [cut,hn,hd,hm,hq,hs,Bool.false_eq_true,↓reduceIte]

/-- A token is cut off where it ends. -/
theorem cut_eq (h : Lexeme kind text) (hr : Stops kind text rest) :
    ∃ c cs, text = c :: cs ∧ isBlank c = false ∧ cut c (cs ++ rest) = .ok ⟨kind,text,rest⟩ := by
  cases h with
  | @identifier c cs hc hs =>
    refine ⟨c,cs,rfl,isBlank_eq_false (by decide) hc,?_⟩
    simp only [cut,hc,↓reduceIte,name,takeWhile_run hs hr,dropWhile_run hs hr]
    rfl
  | @number sign _ ds hs hd =>
    obtain ⟨d,es,rfl,hdig⟩ := hd.head
    have heq := hd.digits_eq hr
    rcases hs with rfl | rfl
    · refine ⟨d,es,rfl,isBlank_eq_false (by decide) hdig,?_⟩
      simpa only [cut,isNameStart_of_isDigit hdig,hdig,Bool.false_eq_true,↓reduceIte] using! heq
    · refine ⟨'-',d :: es,rfl,rfl,?_⟩
      have hm : '-' = '-' ∧ (d :: es ++ rest).head?.any Char.isDigit = true := ⟨rfl,hdig⟩
      rw [cut,if_neg (by decide),if_neg (by decide),if_pos hm,heq]
      rfl
  | @character c hq hb hn hl =>
    refine ⟨'\'',[c,'\''],rfl,rfl,?_⟩
    have hc : Lexer.character (c :: '\'' :: rest) = .ok ⟨.character,[c,'\''],rest⟩ := by
      simp only [Lexer.character,hq,hb,hn,hl,or_self,↓reduceIte]
      rfl
    change (Lexer.character (c :: '\'' :: rest)).map (Cut.after ['\'']) = _
    rw [hc]
    rfl
  | @escape e he =>
    refine ⟨'\'',['\\',e,'\''],rfl,rfl,?_⟩
    have hc : Lexer.character ('\\' :: e :: '\'' :: rest) =
        .ok ⟨.character,['\\',e,'\''],rest⟩ := by
      change (if isEscape e = true then _ else _) = _
      rw [if_pos he]
      rfl
    change (Lexer.character ('\\' :: e :: '\'' :: rest)).map (Cut.after ['\'']) = _
    rw [hc]
    rfl
  | @string cs hq =>
    refine ⟨'"',cs ++ ['"'],rfl,rfl,?_⟩
    rw [List.append_assoc]
    change (Lexer.string (cs ++ '"' :: rest)).map (Cut.after ['"']) = _
    rw [hq.string_eq]
    rfl
  | @pair c d hp =>
    obtain ⟨hc,hm⟩ := operatorPair_symbol hp
    refine ⟨c,[d],rfl,isBlank_eq_false (by decide) hc,?_⟩
    rw [List.cons_append,cut_single hc (fun h => hm h.1)]
    simp only [operator,hp,↓reduceIte]
    rfl
  | @single c hc =>
    have hm : ¬ (c = '-' ∧ rest.head?.any Char.isDigit = true) := by
      rintro ⟨hc,hd⟩
      rw [any_head_eq_false fun d hd => (hr d hd c rfl).2 hc] at hd
      cases hd
    refine ⟨c,[],rfl,isBlank_eq_false (by decide) hc,?_⟩
    rw [List.nil_append,cut_single hc hm]
    cases rest with
    | nil => rfl
    | cons d rest => rw [operator,if_neg (hr d rfl c rfl).1]

end Lexeme
end BlockScript
