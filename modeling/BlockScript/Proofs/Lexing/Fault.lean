import BlockScript.Proofs.Lexing.Writing
/-! Where a malformed text is at fault: at the first character that no well-formed text has after the
characters before it. -/
namespace BlockScript
namespace Lexer
variable {c : Char} {cs rest : List Char} {cause : LexError.Cause} {f : Fault}
  {scan scan' : List Char → Except Fault Cut}

lemma byteCount_append (cs ds : List Char) : byteCount (cs ++ ds) = byteCount cs + byteCount ds := by
  induction cs with
  | nil => exact (Nat.zero_add _).symm
  | cons c cs ih => rw [List.cons_append,byteCount,byteCount,ih,Nat.add_assoc]

lemma byteCount_eq (cs : List Char) : byteCount cs = (String.ofList cs).utf8ByteSize := by
  induction cs with
  | nil => rfl
  | cons c cs ih =>
    rw [byteCount,ih,String.ofList_cons,String.utf8ByteSize_append,String.utf8ByteSize_singleton]

/-- A scan that is at fault after some characters. These alone can be completed, to a token with
nothing after it; the fault stays whatever follows the character at fault. -/
structure Faulty (scan : List Char → Except Fault Cut) (front : List Char) (f : Fault) : Prop where
  completes : ∃ more t, scan (front ++ more) = .ok t ∧ t.rest = []
  stays : ∀ c ∈ f.rest.head?, ∀ more, scan (front ++ c :: more) = .error ⟨f.cause,c :: more⟩

namespace Faulty
variable {front front' : List Char}

/-- At the end of the text no character is at fault. -/
lemma of_end (h : ∃ more t, scan (front ++ more) = .ok t ∧ t.rest = []) :
    Faulty scan front ⟨cause,[]⟩ := by
  refine ⟨h,?_⟩
  rintro _ ⟨⟩

/-- A scan that goes on as another does, and only changes the token it gives. -/
lemma lift (h : Faulty scan front f) {g : Cut → Cut} (hg : ∀ t, (g t).rest = t.rest)
    (hs : ∀ more, scan' (front' ++ more) = (scan (front ++ more)).map g) : Faulty scan' front' f := by
  obtain ⟨⟨more,t,ht,hrest⟩,hstays⟩ := h
  refine ⟨⟨more,g t,?_,(hg t).trans hrest⟩,fun c hc more => ?_⟩
  · rw [hs,ht]
    rfl
  · rw [hs,hstays c hc]
    rfl

lemma after (h : Faulty scan front f) {xs : List Char}
    (hs : ∀ more, scan' (front' ++ more) = (scan (front ++ more)).map (.after xs)) :
    Faulty scan' front' f :=
  h.lift (g := Cut.after xs) (fun _ => rfl) hs

end Faulty

lemma map_after_error {xs : List Char} {r : Except Fault Cut} (h : r.map (Cut.after xs) = .error f) :
    r = .error f := by
  cases r with
  | ok t => cases h
  | error e => cases h; rfl

/-! ### Numbers -/

lemma fraction_faulty (h : fraction cs = .error f) :
    cs = '.' :: f.rest ∧ Faulty fraction ['.'] f := by
  unfold fraction at h
  split at h
  · next rest =>
    split at h
    · cases h
    · next hd =>
      cases h
      refine ⟨rfl,⟨['0'],⟨.decimal,['.','0'],[]⟩,rfl,rfl⟩,fun c hc more => ?_⟩
      have hn : c.isDigit = false := Lexeme.head_of_any_eq_false hd c hc
      simp [fraction,hn]
  · cases h

/-- A number is at fault after a zero, or after its point. -/
lemma digits_faulty (hd : c.isDigit = true) (h : digits (c :: cs) = .error f) :
    ∃ front, c :: cs = c :: (front ++ f.rest) ∧ Faulty digits (c :: front) f := by
  unfold digits at h
  split at h
  · next rest heq =>
    cases heq
    split at h
    · next hz =>
      cases h
      refine ⟨[],rfl,⟨[],⟨.integer,['0'],[]⟩,rfl,rfl⟩,fun d hd more => ?_⟩
      rw [Option.mem_def.mp hd] at hz
      exact if_pos hz
    · obtain ⟨rfl,hf⟩ := fraction_faulty (map_after_error h)
      exact ⟨['.'],rfl,hf.after fun _ => rfl⟩
  · next hz =>
    obtain ⟨hcs,hf⟩ := fraction_faulty (map_after_error h)
    have hw : Lexeme.Whole ((c :: cs).takeWhile Char.isDigit) := by
      rw [List.takeWhile_cons_of_pos hd]
      exact .nonzero hd (fun h => hz cs (by rw [h])) Lexeme.all_takeWhile
    have hall := List.takeWhile_append_dropWhile (p := Char.isDigit) (l := c :: cs)
    rw [hcs,List.takeWhile_cons_of_pos hd] at hall
    rw [List.takeWhile_cons_of_pos hd] at hw
    have hrun : ∀ more, digits (c :: (cs.takeWhile Char.isDigit ++ ['.']) ++ more) =
        (fraction (['.'] ++ more)).map (Cut.after (c :: cs.takeWhile Char.isDigit)) := by
      intro more
      have hpoint : ∀ c ∈ ('.' :: more).head?, c.isDigit = false := by
        rintro _ ⟨⟩
        rfl
      simpa using Lexeme.digits_run hw hpoint
    exact ⟨cs.takeWhile Char.isDigit ++ ['.'],by rw [← hall]; simp,hf.after hrun⟩

/-! ### Quoted texts -/

lemma closingQuote_faulty (h : closingQuote cs = .error f) :
    cs = f.rest ∧ Faulty closingQuote [] f := by
  unfold closingQuote at h
  split at h
  · cases h
  · next hq =>
    cases h
    refine ⟨rfl,⟨['\''],⟨.character,['\''],[]⟩,rfl,rfl⟩,fun c hc more => ?_⟩
    rw [List.nil_append,closingQuote]
    obtain ⟨rest,rfl⟩ := List.head?_eq_some_iff.mp hc
    exact fun _ h => hq _ (by rw [(List.cons.inj h).1])

lemma character_break (hl : c = '\n' ∨ c = '\r') (cs : List Char) :
    character (c :: cs) = .error ⟨.unterminatedCharacter,c :: cs⟩ := by
  rcases hl with rfl | rfl <;> rfl

lemma character_plain (hq : c ≠ '\'') (hl : ¬(c = '\n' ∨ c = '\r')) (hb : c ≠ '\\')
    (cs : List Char) : character (c :: cs) = (closingQuote cs).map (Cut.after [c]) := by
  simp only [character,hq,hl,hb,↓reduceIte]

lemma character_escape (e : Char) (cs : List Char) :
    character ('\\' :: e :: cs) = if isEscape e = true
      then (closingQuote cs).map (Cut.after ['\\',e]) else .error ⟨.invalidEscape,e :: cs⟩ := rfl

lemma character_faulty (h : character cs = .error f) :
    ∃ front, cs = front ++ f.rest ∧ Faulty character front f := by
  have hfirst : ∃ more t, character ([] ++ more) = .ok t ∧ t.rest = [] :=
    ⟨['a','\''],⟨.character,['a','\''],[]⟩,rfl,rfl⟩
  have hescape : ∃ more t, character (['\\'] ++ more) = .ok t ∧ t.rest = [] :=
    ⟨['n','\''],⟨.character,['\\','n','\''],[]⟩,rfl,rfl⟩
  cases cs with
  | nil =>
    cases h
    exact ⟨[],rfl,.of_end hfirst⟩
  | cons c rest =>
    by_cases hq : c = '\''
    · subst hq
      cases h
      refine ⟨[],rfl,hfirst,?_⟩
      rintro _ ⟨⟩ more
      rfl
    by_cases hl : c = '\n' ∨ c = '\r'
    · rw [character_break hl] at h
      cases h
      refine ⟨[],rfl,hfirst,?_⟩
      rintro _ ⟨⟩ more
      exact character_break hl more
    by_cases hb : c = '\\'
    · subst hb
      cases rest with
      | nil =>
        cases h
        exact ⟨['\\'],rfl,.of_end hescape⟩
      | cons e rest =>
        rw [character_escape] at h
        by_cases he : isEscape e = true
        · rw [if_pos he] at h
          obtain ⟨rfl,hf⟩ := closingQuote_faulty (map_after_error h)
          exact ⟨['\\',e],rfl,hf.after fun more => if_pos he⟩
        · rw [if_neg he] at h
          cases h
          refine ⟨['\\'],rfl,hescape,?_⟩
          rintro _ ⟨⟩ more
          exact if_neg he
    · rw [character_plain hq hl hb] at h
      obtain ⟨rfl,hf⟩ := closingQuote_faulty (map_after_error h)
      exact ⟨[c],rfl,hf.after fun more => character_plain hq hl hb more⟩

lemma string_plain (hq : c ≠ '"') (hb : c ≠ '\\') (cs : List Char) :
    string (c :: cs) = (string cs).map (.after [c]) := by
  rw [string]
  · exact hq
  · exact fun _ _ h => absurd h hb
  · exact fun h => absurd h hb

lemma string_escape {e : Char} (he : isEscape e = true) (cs : List Char) :
    string ('\\' :: e :: cs) = (string cs).map (.after ['\\',e]) := by
  rw [string,if_pos he]

lemma string_faulty (h : string cs = .error f) :
    ∃ front, cs = front ++ f.rest ∧ Faulty string front f := by
  have hescape : ∃ more t, string (['\\'] ++ more) = .ok t ∧ t.rest = [] :=
    ⟨['n','"'],⟨.string,['\\','n','"'],[]⟩,by simp [string,isEscape,Except.map,Cut.after],rfl⟩
  fun_induction string cs generalizing f with
  | case1 =>
    cases h
    exact ⟨[],rfl,.of_end ⟨['"'],⟨.string,['"'],[]⟩,by simp [string],rfl⟩⟩
  | case2 => cases h
  | case3 e rest he ih =>
    obtain ⟨front,rfl,hf⟩ := ih (map_after_error h)
    exact ⟨'\\' :: e :: front,rfl,hf.after fun more => string_escape he (front ++ more)⟩
  | case4 e rest he =>
    cases h
    refine ⟨['\\'],rfl,hescape,?_⟩
    rintro _ ⟨⟩ more
    simp [string,he]
  | case5 =>
    cases h
    exact ⟨['\\'],rfl,.of_end hescape⟩
  | case6 c rest hq hb hl ih =>
    have hbackslash : c ≠ '\\' := by
      rintro rfl
      cases rest with
      | nil => exact hl rfl rfl
      | cons e es => exact hb e es rfl rfl
    obtain ⟨front,rfl,hf⟩ := ih (map_after_error h)
    exact ⟨c :: front,rfl,hf.after fun more => string_plain hq hbackslash (front ++ more)⟩

/-! ### Tokens and texts -/

lemma cut_faulty (h : cut c cs = .error f) : ∃ front, cs = front ++ f.rest ∧ Faulty (cut c) front f := by
  unfold cut at h
  split at h
  · cases h
  · next hn =>
    split at h
    · next hd =>
      obtain ⟨front,heq,hf⟩ := digits_faulty hd h
      refine ⟨front,(List.cons.inj heq).2,hf.lift (g := id) (fun _ => rfl) fun more => ?_⟩
      rw [cut,if_neg hn,if_pos hd,Except.map_id]
      rfl
    · next hd =>
      split at h
      · next hm =>
        obtain ⟨rfl,hm⟩ := hm
        cases cs with
        | nil => cases hm
        | cons d ds =>
          have hdig : d.isDigit = true := hm
          obtain ⟨front,heq,hf⟩ := digits_faulty hdig (map_after_error h)
          have hsign : ∀ more, cut '-' (d :: front ++ more) =
              (digits (d :: front ++ more)).map (Cut.after ['-']) := by
            intro more
            have hc : '-' = '-' ∧ (d :: front ++ more).head?.any Char.isDigit = true := ⟨rfl,hdig⟩
            rw [cut,if_neg hn,if_neg hd,if_pos hc]
          exact ⟨d :: front,heq,hf.after hsign⟩
      · split at h
        · next hq =>
          subst hq
          obtain ⟨front,rfl,hf⟩ := character_faulty (map_after_error h)
          exact ⟨front,rfl,hf.after fun _ => rfl⟩
        · split at h
          · next hs =>
            subst hs
            obtain ⟨front,rfl,hf⟩ := string_faulty (map_after_error h)
            exact ⟨front,rfl,hf.after fun _ => rfl⟩
          · cases h

lemma tokensFrom_fault {off : Nat} (hc : isBlank c = false) (h : cut c cs = .error f) :
    tokensFrom off (c :: cs) =
      .error ⟨f.cause,off + (byteCount (c :: cs) - byteCount f.rest)⟩ := by
  rw [tokensFrom,if_neg (by rw [hc]; exact Bool.false_ne_true)]
  split
  · next h' => rw [h] at h'; cases h'; rfl
  · next h' => rw [h] at h'; cases h'

/-- The characters before the offset of an error start a text without one, and the character at the
offset keeps the error whatever follows it. No token is at fault at its first character, so those
before it are complete. -/
lemma tokensFrom_error {off : Nat} {e : LexError} (h : tokensFrom off cs = .error e) :
    ∃ front back, front ≠ [] ∧ cs = front ++ back ∧ off + byteCount front = e.offset ∧
      (∃ more ts, tokensFrom off (front ++ more) = .ok ts) ∧
      ∀ c ∈ back.head?, ∀ more, tokensFrom off (front ++ c :: more) = .error e := by
  fun_induction tokensFrom off cs with
  | case1 => cases h
  | case2 off c cs hc ih =>
    obtain ⟨front,back,_,rfl,hoff,⟨more,ts,hts⟩,hstays⟩ := ih h
    refine ⟨c :: front,back,List.cons_ne_nil c front,rfl,?_,⟨more,ts,?_⟩,fun d hd more => ?_⟩
    · rw [← hoff,byteCount,Nat.add_assoc]
    · rw [List.cons_append,tokensFrom_blank hc,hts]
    · rw [List.cons_append,tokensFrom_blank hc,hstays d hd more]
  | case3 off c cs hc f hf =>
    rw [Bool.not_eq_true] at hc
    cases h
    obtain ⟨front,rfl,⟨more,t,ht,hrest⟩,hstays⟩ := cut_faulty hf
    have hbytes : ∀ rest, byteCount (c :: (front ++ rest)) - byteCount rest =
        byteCount (c :: front) := by
      intro rest
      rw [← List.cons_append,byteCount_append,Nat.add_sub_cancel]
    refine ⟨c :: front,f.rest,List.cons_ne_nil c front,rfl,by rw [hbytes],⟨more,?_⟩,
      fun d hd more => ?_⟩
    · exact ⟨_,by rw [List.cons_append,tokensFrom_cut hc ht,hrest,tokensFrom]; rfl⟩
    · rw [List.cons_append,tokensFrom_fault hc (hstays d hd more),hbytes,hbytes]
  | case4 off c cs hc t ht _ ih =>
    rw [Bool.not_eq_true] at hc
    obtain ⟨hcs,hl,hs⟩ := Lexeme.of_cut hc ht
    cases hr : tokensFrom (off + byteCount t.text) t.rest with
    | ok us => rw [hr] at h; cases h
    | error e' =>
      rw [hr] at h
      cases h
      obtain ⟨front,back,hne,hrest,hoff,⟨more,ts,hts⟩,hstays⟩ := ih hr
      have hstops : ∀ more, Lexeme.Stops t.kind t.text (front ++ more) := by
        intro more
        cases front with
        | nil => exact absurd rfl hne
        | cons d front =>
          rw [hrest] at hs
          exact hs
      have htokens : ∀ more, tokensFrom off (t.text ++ front ++ more) =
          (tokensFrom (off + byteCount t.text) (front ++ more)).map
            (⟨t.kind,String.ofList t.text,off⟩ :: ·) := by
        intro more
        rw [List.append_assoc,tokensFrom_lexeme hl (hstops more)]
      refine ⟨t.text ++ front,back,List.append_ne_nil_of_right_ne_nil _ hne,?_,?_,⟨more,?_⟩,
        fun d hd more => ?_⟩
      · rw [hcs,hrest,List.append_assoc]
      · rw [byteCount_append,← Nat.add_assoc,hoff]
      · exact ⟨_,by rw [htokens,hts]; rfl⟩
      · rw [htokens,hstays d hd more]
        rfl

end Lexer

/-- A text without tokens is at fault at the first character that no text with tokens has there. What
is before the offset is a whole number of characters and can be completed; with the next character,
if there is one, every text has the same error. -/
theorem Token.scan_error_offset (source : String) (e : LexError) (h : Token.scan source = .error e) :
    ∃ front back : String, front ++ back = source ∧ front.utf8ByteSize = e.offset ∧
      (∃ more ts, Token.scan (front ++ more) = .ok ts) ∧
      ∀ c ∈ back.toList.head?, ∀ more, Token.scan (front.push c ++ more) = .error e := by
  obtain ⟨front,back,_,hsource,hoff,⟨more,ts,hts⟩,hstays⟩ := Lexer.tokensFrom_error h
  refine ⟨String.ofList front,String.ofList back,?_,?_,⟨String.ofList more,ts,?_⟩,fun c hc more => ?_⟩
  · rw [← String.ofList_append,← hsource,String.ofList_toList]
  · rw [← Lexer.byteCount_eq,← hoff,Nat.zero_add]
  · rw [Token.scan,← String.ofList_append,String.toList_ofList,hts]
  · rw [String.toList_ofList] at hc
    have := hstays c hc more.toList
    simpa [Token.scan] using this

theorem Token.scan_error_offset_escape :
    Token.scan "x = \"é\\q\";" = .error ⟨.invalidEscape,8⟩ ∧
    ∃ front back : String, front ++ back = "x = \"é\\q\";" ∧ front.utf8ByteSize = 8 ∧
      (∃ more ts, Token.scan (front ++ more) = .ok ts) ∧
      ∀ c ∈ back.toList.head?, ∀ more,
        Token.scan (front.push c ++ more) = .error ⟨.invalidEscape,8⟩ := by
  have hscan : Token.scan "x = \"é\\q\";" = .error ⟨.invalidEscape,8⟩ := by decide +kernel
  exact ⟨hscan,Token.scan_error_offset _ _ hscan⟩

end BlockScript
