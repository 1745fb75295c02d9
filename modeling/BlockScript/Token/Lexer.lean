import BlockScript.Token.Basic
/-! Cutting a text into tokens: each takes the longest run of characters that its class admits, and
the characters between tokens are blank. -/
namespace BlockScript

/-- What is wrong with a token. -/
inductive LexError.Cause where
  | leadingZero
  | trailingPoint
  | invalidEscape
  | emptyCharacter
  | unterminatedCharacter
  | unterminatedString
  deriving DecidableEq, Repr

/-- A malformed token, and the byte of the first character that no token continues with. -/
structure LexError where
  cause : LexError.Cause
  offset : Nat
  deriving DecidableEq, Repr

def LexError.Cause.message : LexError.Cause → String
  | .leadingZero => "Leading zero in integer literal"
  | .trailingPoint => "Expected digit after decimal point"
  | .invalidEscape => "Invalid escape sequence"
  | .emptyCharacter => "Empty character literal"
  | .unterminatedCharacter => "Unterminated character literal"
  | .unterminatedString => "Unterminated string"

def LexError.message (e : LexError) : String := s!"offset {e.offset}: {e.cause.message}"

namespace Lexer

/-- Outside quotes a backslash is blank too, and so is a backspace. -/
def isBlank (c : Char) : Bool :=
  c == ' ' || c == '\t' || c == '\r' || c == '\n' || c == '\x08' || c == '\\'

/-- Names are made of ASCII letters and digits. -/
def isNameStart (c : Char) : Bool := c == '@' || c.isAlpha

def isNameChar (c : Char) : Bool := c.isAlphanum || c == '_' || c == '-'

/-- The characters a backslash stands before inside quotes. -/
def isEscape (c : Char) : Bool :=
  c == 'b' || c == 'n' || c == 'r' || c == 't' || c == '\'' || c == '"' || c == '\\'

/-- The bytes of a text. -/
def byteCount : List Char → Nat
  | [] => 0
  | c :: cs => c.utf8Size + byteCount cs

/-- A failed token: its cause and the input from the offending character on. -/
structure Fault where
  cause : LexError.Cause
  rest : List Char
  deriving DecidableEq, Repr

/-- A token at the front of the input: its class, its text, and the input after it. -/
structure Cut where
  kind : Token.Kind
  text : List Char
  rest : List Char
  deriving DecidableEq, Repr

/-- The same cut with more text in front. -/
def Cut.after (front : List Char) (cut : Cut) : Cut := { cut with text := front ++ cut.text }

/-- The longest name. -/
def name (cs : List Char) : Cut :=
  ⟨.identifier, cs.takeWhile isNameChar, cs.dropWhile isNameChar⟩

/-- What may follow the whole part of a number: a point and digits, or something else. -/
def fraction (cs : List Char) : Except Fault Cut :=
  match cs with
  | '.' :: rest =>
    if (rest.head?.any Char.isDigit) then
      .ok ⟨.decimal, '.' :: rest.takeWhile Char.isDigit, rest.dropWhile Char.isDigit⟩
    else .error ⟨.trailingPoint, rest⟩
  | _ => .ok ⟨.integer, [], cs⟩

/-- A number without its sign; a zero in front stands alone. -/
def digits (cs : List Char) : Except Fault Cut :=
  match cs with
  | '0' :: rest =>
    if rest.head?.any Char.isDigit then .error ⟨.leadingZero, rest⟩
    else (fraction rest).map (.after ['0'])
  | _ => (fraction (cs.dropWhile Char.isDigit)).map (.after (cs.takeWhile Char.isDigit))

/-- The closing quote of a character. -/
def closingQuote (cs : List Char) : Except Fault Cut :=
  match cs with
  | '\'' :: rest => .ok ⟨.character, ['\''], rest⟩
  | _ => .error ⟨.unterminatedCharacter, cs⟩

/-- A character after its opening quote: one character or escape on the same line. -/
def character (cs : List Char) : Except Fault Cut :=
  match cs with
  | [] => .error ⟨.unterminatedCharacter, []⟩
  | c :: rest =>
    if c = '\'' then .error ⟨.emptyCharacter, cs⟩
    else if c = '\n' ∨ c = '\r' then .error ⟨.unterminatedCharacter, cs⟩
    else if c = '\\' then
      match rest with
      | e :: rest' =>
        if isEscape e then (closingQuote rest').map (.after [c, e])
        else .error ⟨.invalidEscape, rest⟩
      | [] => .error ⟨.invalidEscape, []⟩
    else (closingQuote rest).map (.after [c])

/-- A string after its opening quote. -/
def string : List Char → Except Fault Cut
  | [] => .error ⟨.unterminatedString, []⟩
  | '"' :: rest => .ok ⟨.string, ['"'], rest⟩
  | '\\' :: e :: rest =>
    if isEscape e then (string rest).map (.after ['\\', e])
    else .error ⟨.invalidEscape, e :: rest⟩
  | ['\\'] => .error ⟨.invalidEscape, []⟩
  | c :: rest => (string rest).map (.after [c])

/-- The second character of a two-character operator. -/
def operatorPair (c : Char) : Option Char :=
  if c = '!' ∨ c = '=' then some '=' else if c = '&' ∨ c = '|' then some c else none

/-- Any character is an operator; four pairs are one as well. -/
def operator (c : Char) (rest : List Char) : Cut :=
  match rest with
  | d :: rest' => if operatorPair c = some d then ⟨.operator, [c, d], rest'⟩ else ⟨.operator, [c], rest⟩
  | [] => ⟨.operator, [c], []⟩

/-- The token that starts with `c`. A minus sign belongs to the number right after it. -/
def cut (c : Char) (rest : List Char) : Except Fault Cut :=
  if isNameStart c then .ok ((name rest).after [c])
  else if c.isDigit then digits (c :: rest)
  else if c = '-' ∧ rest.head?.any Char.isDigit then (digits rest).map (.after [c])
  else if c = '\'' then (character rest).map (.after [c])
  else if c = '"' then (string rest).map (.after [c])
  else .ok (operator c rest)

theorem length_dropWhile_le (p : Char → Bool) (cs : List Char) :
    (cs.dropWhile p).length ≤ cs.length := (List.dropWhile_sublist p).length_le

theorem fraction_length {cs : List Char} {t : Cut} (h : fraction cs = .ok t) :
    t.rest.length ≤ cs.length := by
  unfold fraction at h
  split at h
  · rename_i rest
    split at h <;> cases h
    have := length_dropWhile_le Char.isDigit rest
    simp only [List.length_cons]
    omega
  · cases h
    exact Nat.le_refl _

/-- Adding text in front leaves what follows alone. -/
theorem rest_of_map_after {front : List Char} {r : Except Fault Cut} {t : Cut}
    (h : r.map (.after front) = .ok t) : ∃ u, r = .ok u ∧ t.rest = u.rest := by
  cases r with
  | error e => cases h
  | ok u => cases h; exact ⟨u, rfl, rfl⟩

theorem digits_length {c : Char} {rest : List Char} {t : Cut} (hc : c.isDigit)
    (h : digits (c :: rest) = .ok t) : t.rest.length ≤ rest.length := by
  unfold digits at h
  split at h
  · rename_i heq
    cases heq
    split at h
    · cases h
    · obtain ⟨u, hu, hr⟩ := rest_of_map_after h
      exact hr ▸ fraction_length hu
  · obtain ⟨u, hu, hr⟩ := rest_of_map_after h
    have := fraction_length hu
    simp only [List.dropWhile_cons, hc, ite_true] at this
    exact hr ▸ Nat.le_trans this (length_dropWhile_le _ _)

theorem closingQuote_length {cs : List Char} {t : Cut} (h : closingQuote cs = .ok t) :
    t.rest.length ≤ cs.length := by
  unfold closingQuote at h
  split at h <;> cases h
  simp

theorem character_length {cs : List Char} {t : Cut} (h : character cs = .ok t) :
    t.rest.length ≤ cs.length := by
  unfold character at h
  split at h
  · cases h
  · split at h
    · cases h
    · split at h
      · cases h
      · split at h
        · split at h
          · split at h
            · obtain ⟨u, hu, hr⟩ := rest_of_map_after h
              have := closingQuote_length hu
              simp only [List.length_cons, hr]
              omega
            · cases h
          · cases h
        · obtain ⟨u, hu, hr⟩ := rest_of_map_after h
          have := closingQuote_length hu
          simp only [List.length_cons, hr]
          omega

theorem string_length {cs : List Char} {t : Cut} (h : string cs = .ok t) :
    t.rest.length ≤ cs.length := by
  fun_induction string cs generalizing t with
  | case1 => cases h
  | case2 rest => cases h; simp
  | case3 e rest he ih =>
    obtain ⟨u, hu, hr⟩ := rest_of_map_after h
    have := ih hu
    simp only [List.length_cons, hr]
    omega
  | case4 => cases h
  | case5 => cases h
  | case6 c rest _ _ _ ih =>
    obtain ⟨u, hu, hr⟩ := rest_of_map_after h
    have := ih hu
    simp only [List.length_cons, hr]
    omega

/-- A token takes at least one character off the input. -/
theorem cut_length {c : Char} {rest : List Char} {t : Cut} (h : cut c rest = .ok t) :
    t.rest.length ≤ rest.length := by
  unfold cut at h
  split at h
  · cases h
    exact length_dropWhile_le _ _
  · split at h
    · rename_i hd
      exact digits_length hd h
    · split at h
      · rename_i hd
        obtain ⟨u, hu, hr⟩ := rest_of_map_after h
        cases rest with
        | nil => simp at hd
        | cons d ds =>
          have := digits_length (by simpa using hd.2) hu
          simp only [List.length_cons, hr]
          omega
      · split at h
        · obtain ⟨u, hu, hr⟩ := rest_of_map_after h
          exact hr ▸ character_length hu
        · split at h
          · obtain ⟨u, hu, hr⟩ := rest_of_map_after h
            exact hr ▸ string_length hu
          · cases h
            unfold operator
            split
            · split <;> simp
            · simp

/-- The tokens of an input that starts at the given byte. -/
def tokensFrom (offset : Nat) : List Char → Except LexError (List Token)
  | [] => .ok []
  | c :: cs =>
    if isBlank c then tokensFrom (offset + c.utf8Size) cs
    else
      match h : cut c cs with
      | .error fault =>
        .error ⟨fault.cause, offset + (byteCount (c :: cs) - byteCount fault.rest)⟩
      | .ok t =>
        have := cut_length h
        (tokensFrom (offset + byteCount t.text) t.rest).map
          (⟨t.kind, String.ofList t.text, offset⟩ :: ·)
termination_by cs => cs.length
decreasing_by all_goals simp_wf; try omega

end Lexer

/-- The tokens of a text, or its first malformed token. -/
def Token.scan (source : String) : Except LexError (List Token) :=
  Lexer.tokensFrom 0 source.toList

end BlockScript
