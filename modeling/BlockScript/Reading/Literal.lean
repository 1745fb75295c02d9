import BlockScript.Tree.Basic
/-! The values that the texts of literal tokens stand for. -/
namespace BlockScript.Literal

/-- A run of digits, at least one. -/
def natural? (cs : List Char) : Option Nat :=
  if !cs.isEmpty && cs.all Char.isDigit then some (Nat.ofDigitChars 10 cs 0) else none

/-- A sign in front of a reading. -/
def signed? (reading : List Char → Option Int) (cs : List Char) : Option Int :=
  match cs with
  | '-' :: rest => (reading rest).map (- ·)
  | _ => reading cs

def readInteger? (cs : List Char) : Option Int :=
  signed? (fun ds => (natural? ds).map Int.ofNat) cs

/-- Digits with at most one point among them; the scale is the number of digits after it. -/
def readDecimal? (cs : List Char) : Option Decimal :=
  let whole := cs.takeWhile (· != '.')
  match cs.dropWhile (· != '.') with
  | [] => (readInteger? whole).map fun n => ⟨n, 0⟩
  | _ :: places => do
    let _ ← readInteger? whole
    let _ ← natural? places
    let unscaled ← readInteger? (whole ++ places)
    return ⟨unscaled, places.length⟩

/-- The text between quotes, each of one byte; nothing if there is no such text. -/
def unquote (cs : List Char) : List Char :=
  match cs with
  | first :: second :: rest =>
    let inner := second :: rest
    if first.utf8Size = 1 ∧ (inner.getLast?.any fun c => c.utf8Size = 1) then inner.dropLast else []
  | _ => []

/-- The character that a backslash and this one stand for. -/
def unescapeChar (c : Char) : Char :=
  match c with
  | 'b' => '\x08'
  | 'n' => '\n'
  | 'r' => '\r'
  | 't' => '\t'
  | c => c

/-- A text with each escape replaced by its character; a backslash at the end stands for itself. -/
def unescape : List Char → List Char
  | [] => []
  | ['\\'] => ['\\']
  | '\\' :: c :: rest => unescapeChar c :: unescape rest
  | c :: rest => c :: unescape rest

def readCharacter? (cs : List Char) : Option Char := (unescape (unquote cs)).head?

def readString (cs : List Char) : String := String.ofList (unescape (unquote cs))

end BlockScript.Literal
