import BlockScript.Number.Round
/-! Decimal numbers as an integer and a count of fraction digits, with the scale every operation gives. -/
namespace BlockScript

/-- The number `unscaled * 10 ^ (-scale)`; several pairs write the same number. -/
structure Decimal where
  unscaled : Int
  scale : Int
  deriving DecidableEq, Repr

namespace Decimal
open Round (tenTo twoTo)

/-- The first `k` from the given one on with `n < 10 ^ k`. -/
def countFrom (n k : Nat) : Nat :=
  if n < tenTo k then k else countFrom n (k + 1)
termination_by n - k
decreasing_by
  have : k < tenTo k := Nat.lt_pow_self (by decide)
  omega

/-- The number of decimal digits; zero has one. As `10 ^ 643 < 2 ^ 2136`, a number of more than b bits
has more than 643 * b / 2136 digits, and hardly ever two more. -/
def digitCount (n : Nat) : Nat := countFrom n (Nat.log2 n * 643 / 2136 + 1)

/-- The unscaled integer at a scale that is at least the number's own. Zero is zero at every scale. -/
def unscaledAt (d : Decimal) (scale : Int) : Int :=
  if d.unscaled = 0 then 0 else d.unscaled * tenTo (scale - d.scale).toNat

/-- The same number written with a larger scale. -/
def extendTo (d : Decimal) (scale : Int) : Decimal :=
  ⟨d.unscaledAt scale, scale⟩

/-- The place of the first digit: a nonzero number of magnitude m is at least `10 ^ (m - 1)` and
less than `10 ^ m`, its sign apart. -/
def magnitude (d : Decimal) : Int := digitCount d.unscaled.natAbs - d.scale

/-- Numbers are ordered by value, whatever their scales. Numbers of one magnitude differ in scale by
no more than in digits, so only these are written at a common scale. -/
def compare (a b : Decimal) : Ordering :=
  if a.unscaled.sign ≠ b.unscaled.sign then Ord.compare a.unscaled.sign b.unscaled.sign
  else if a.unscaled = 0 then .eq
  else if a.magnitude = b.magnitude then
    let scale := max a.scale b.scale
    Ord.compare (a.unscaledAt scale) (b.unscaledAt scale)
  else if 0 < a.unscaled then Ord.compare a.magnitude b.magnitude
  else Ord.compare b.magnitude a.magnitude

/-- Two decimals are equal when they write the same number. -/
def equal (a b : Decimal) : Bool := a.compare b == .eq

def isZero (d : Decimal) : Bool := d.unscaled == 0

def neg (d : Decimal) : Decimal := ⟨-d.unscaled, d.scale⟩

/-- The most zeros that adding zero appends. -/
def maxExtension : Int := 15

/-- Adding a zero of a larger scale extends the other operand, by a bounded number of digits. -/
def plusZero (a zero : Decimal) : Decimal :=
  a.extendTo (a.scale + min (max (zero.scale - a.scale) 0) maxExtension)

/-- The exact sum; except beside a zero, its scale is the larger one. -/
def add (a b : Decimal) : Decimal :=
  if b.isZero then a.plusZero b
  else if a.isZero then b.plusZero a
  else
    let scale := max a.scale b.scale
    ⟨a.unscaledAt scale + b.unscaledAt scale, scale⟩

/-- The exact difference at the larger scale. -/
def sub (a b : Decimal) : Decimal :=
  let scale := max a.scale b.scale
  ⟨a.unscaledAt scale - b.unscaledAt scale, scale⟩

/-- A positive number without its trailing zeros, and how many there were. There are fewer than
`2 ^ level`; their number is found bit by bit. -/
def stripZeros : Nat → Nat → Nat × Nat
  | 0, n => (n, 0)
  | level + 1, n =>
    let count := twoTo level
    if n % tenTo count = 0 then
      let (rest, more) := stripZeros level (n / tenTo count)
      (rest, count + more)
    else stripZeros level n

/-- The number with the fewest unscaled digits; zero has scale zero. -/
def normalize (d : Decimal) : Decimal :=
  if d.isZero then ⟨0, 0⟩
  else
    let n := d.unscaled.natAbs
    let (digits, zeros) := stripZeros (Nat.log2 (digitCount n) + 1) n
    ⟨d.unscaled.sign * digits, d.scale - zeros⟩

/-- The largest scale at which the number one is recognised as a factor. -/
def maxUnitScale : Int := 38

/-- One, written with no more digits than a factor is examined for. -/
def isUnit (d : Decimal) : Bool :=
  0 ≤ d.scale && d.scale ≤ maxUnitScale && d.unscaled == tenTo d.scale.toNat

/-- The exact product; a factor one leaves the other factor, normalized. -/
def mul (a b : Decimal) : Decimal :=
  if a.isUnit then b.normalize
  else if b.isUnit then a.normalize
  else ⟨a.unscaled * b.unscaled, a.scale + b.scale⟩

/-- The fewest zeros that make the numerator as large as the denominator. -/
def leadingShift (num den : Nat) : Nat :=
  let shift := digitCount den - digitCount num
  if num * tenTo shift < den then shift + 1 else shift

/-- The digits to which a quotient is computed before it is rounded to a scale. -/
def quotientDigits : Nat := 100

/-- How many zeros the numerator gets, so that the whole quotient has `quotientDigits` digits or
all it has of its own. -/
def quotientShift (num den : Nat) : Nat :=
  let shift := leadingShift num den
  shift + (quotientDigits - digitCount (num * tenTo shift / den))

/-- The quotient of two nonzero decimals to `quotientDigits` digits. -/
def quotient (a b : Decimal) : Decimal :=
  let num := a.unscaled.natAbs
  let den := b.unscaled.natAbs
  let shift := quotientShift num den
  let digits := Round.byNextDigit (num * tenTo shift) den
  ⟨a.unscaled.sign * b.unscaled.sign * digits, a.scale - b.scale + shift⟩

/-- The nearest decimal of the given scale; a tie goes to the even digit. A number with fewer digits
than are dropped is less than a tenth of the last place. -/
def roundTo (d : Decimal) (scale : Int) : Decimal :=
  if d.scale ≤ scale then d.extendTo scale
  else
    let dropped := (d.scale - scale).toNat
    if digitCount d.unscaled.natAbs < dropped then ⟨0, scale⟩
    else ⟨d.unscaled.sign * Round.halfEven d.unscaled.natAbs (tenTo dropped), scale⟩

/-- The quotient at the dividend's scale. Equal unscaled integers divide to a power of ten, and a
divisor one changes nothing. -/
def div (a b : Decimal) : Decimal :=
  if a.isZero || b.isUnit then a
  else if a.unscaled = b.unscaled then roundTo ⟨1, a.scale - b.scale⟩ a.scale
  else roundTo (a.quotient b) a.scale

/-- Plain notation: all fraction digits of the scale, at least one digit before the point, and a
zero for each digit a negative scale stands for. -/
def render (d : Decimal) : String :=
  let sign := if d.unscaled < 0 then "-" else ""
  let digits := Nat.toDigits 10 d.unscaled.natAbs
  if d.scale ≤ 0 then
    sign ++ String.ofList (digits ++ List.replicate (-d.scale).toNat '0')
  else
    let places := d.scale.toNat
    let padded := List.replicate (places + 1 - digits.length) '0' ++ digits
    let whole := padded.length - places
    sign ++ String.ofList (padded.take whole ++ '.' :: padded.drop whole)

end Decimal
end BlockScript
