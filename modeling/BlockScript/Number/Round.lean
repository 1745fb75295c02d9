/-! Quotients of naturals rounded to a neighbouring integer, and the powers they are scaled by. -/
namespace BlockScript.Round

/-- A power of ten moves the point of a decimal. -/
def tenTo (n : Nat) : Nat := Nat.pow 10 n

/-- A power of two moves the point of a binary number. -/
def twoTo (n : Nat) : Nat := Nat.pow 2 n

/-- The integer nearest to num / den; a tie goes to the even neighbour. -/
def halfEven (num den : Nat) : Nat :=
  let whole := num / den
  let twice := 2 * (num % den)
  if twice < den ∨ (twice = den ∧ whole % 2 = 0) then whole else whole + 1

/-- The integer chosen by the first digit after the point alone; five and more round up. -/
def byNextDigit (num den : Nat) : Nat :=
  let tenths := 10 * num / den
  if 5 ≤ tenths % 10 then tenths / 10 + 1 else tenths / 10

/-- An integer that divides is left alone. -/
theorem halfEven_mul (k den : Nat) (h : 0 < den) : halfEven (k * den) den = k := by
  simp [halfEven, Nat.mul_div_cancel _ h, h]

/-- Rounding moves a quotient by less than one. -/
theorem halfEven_bounds (num den : Nat) :
    num / den ≤ halfEven num den ∧ halfEven num den ≤ num / den + 1 := by
  simp only [halfEven]
  split <;> omega

end BlockScript.Round
