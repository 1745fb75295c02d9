import BlockScript.Number.Round
/-! Magnitudes with a 53-bit significand, and the 32-bit power they serve. -/
namespace BlockScript

/-- The magnitude `significand * 2 ^ exponent`. -/
structure Binary where
  significand : Nat
  exponent : Int
  deriving DecidableEq, Repr

namespace Binary
open Round (twoTo)

/-- The bits of a significand after its first. -/
def precision : Int := 52

/-- The smallest exponent; magnitudes below the normal range lose bits instead. -/
def minExponent : Int := -1074

/-- The binary logarithm of a positive quotient, rounded down. -/
def floorLog (num den : Nat) : Int :=
  let n := Nat.log2 num
  let d := Nat.log2 den
  if num * twoTo d < den * twoTo n then n - d - 1 else n - d

/-- The magnitude nearest to num / den; a tie goes to the even significand. -/
def nearest (num den : Nat) : Binary :=
  let exponent := max (floorLog num den - precision) minExponent
  ⟨Round.halfEven (num * twoTo (-exponent).toNat) (den * twoTo exponent.toNat), exponent⟩

/-- The whole part of a magnitude. -/
def floor (b : Binary) : Nat :=
  b.significand * twoTo b.exponent.toNat / twoTo (-b.exponent).toNat

/-- Magnitudes from `2 ^ 1024` on count as infinite. -/
def isFinite (b : Binary) : Bool := b.floor < twoTo 1024

end Binary

namespace Power

def minInt32 : Int := -2147483648
def maxInt32 : Int := 2147483647

def fitsInt32 (n : Int) : Bool := minInt32 ≤ n && n ≤ maxInt32

/-- The nearest value of the 32-bit range. -/
def saturate (n : Int) : Int := max minInt32 (min n maxInt32)

/-- Past this exponent a power of two or more is infinite, and its reciprocal rounds to zero. -/
def maxExponent : Nat := 1100

/-- The magnitude of a power; `none` stands for an infinite one. -/
def magnitude? (base : Nat) (exponent : Int) : Option Binary :=
  let raised := Nat.pow base (min exponent.natAbs maxExponent)
  if 0 ≤ exponent then
    let power := Binary.nearest raised 1
    if power.isFinite then some power else none
  else if raised = 0 then none
  else some (Binary.nearest 1 raised)

/-- A power rounded to 53 bits, cut to its whole part and brought into the 32-bit range. Only an odd
power of a negative base is negative, and zero to a negative power is positive. -/
def toInt32 (base exponent : Int) : Int :=
  let negative := base < 0 && exponent % 2 == 1
  match magnitude? base.natAbs exponent with
  | some power => saturate (if negative then -power.floor else power.floor)
  | none => if negative then minInt32 else maxInt32

end Power
end BlockScript
