/-! Static types and which values may be stored where. -/
namespace BlockScript

/-- A static type. `any` and `comparable` are targets of an assignment only: no literal has them. -/
inductive Ty where
  | any
  | nil
  | comparable
  | boolean
  | integer
  | decimal
  | character
  | string
  | list (element : Ty)
  deriving DecidableEq, Repr

namespace Ty

/-- The types that have a name; list types have none. -/
def ofName? : String → Option Ty
  | "Any" => some any
  | "Nil" => some nil
  | "Comparable" => some comparable
  | "Boolean" => some boolean
  | "Integer" => some integer
  | "Decimal" => some decimal
  | "Character" => some character
  | "String" => some string
  | _ => none

def render : Ty → String
  | any => "Any"
  | nil => "Nil"
  | comparable => "Comparable"
  | boolean => "Boolean"
  | integer => "Integer"
  | decimal => "Decimal"
  | character => "Character"
  | string => "String"
  | list element => "List<" ++ element.render ++ ">"

def element? : Ty → Option Ty
  | list element => some element
  | _ => none

/-- The four scalar types with an order. -/
def isOrdered : Ty → Bool
  | integer | decimal | character | string => true
  | _ => false

/-- `any` takes every type and `comparable` the ordered ones; another target takes only itself. -/
def accepts (target source : Ty) : Bool :=
  match target with
  | any => true
  | comparable => source.isOrdered
  | _ => target == source

end Ty

/-- What a call needs and gives. -/
structure Signature where
  parameters : List Ty
  result : Ty
  deriving DecidableEq, Repr

end BlockScript
