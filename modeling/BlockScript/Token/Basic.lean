/-! Tokens: a lexical class, the exact text, and the byte where it starts. -/
namespace BlockScript

/-- The lexical class of a token; keywords are identifiers. -/
inductive Token.Kind where
  | identifier
  | integer
  | decimal
  | character
  | string
  | operator
  deriving DecidableEq, Repr

structure Token where
  kind : Token.Kind
  text : String
  offset : Nat
  deriving DecidableEq, Repr

namespace Token

/-- The words with a grammatical role. -/
def keywords : List String :=
  ["LIST", "VAR", "VAL", "FUN", "DO", "END", "IF", "ELSE", "SWITCH", "CASE", "DEFAULT", "WHILE",
    "RETURN", "LET", "NIL", "TRUE", "FALSE"]

/-- The byte after the token. -/
def stop (t : Token) : Nat := t.offset + t.text.utf8ByteSize

def isKeyword (t : Token) : Bool := t.kind == .identifier && keywords.contains t.text

/-- A name is an identifier that is no keyword. -/
def isName (t : Token) : Bool := t.kind == .identifier && !keywords.contains t.text

/-- Words and punctuation are recognised by their text alone. -/
def is (t : Token) (text : String) : Bool := t.text == text

end Token
end BlockScript
