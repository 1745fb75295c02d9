import BlockScript.Number.Round
import Mathlib
/-! Rounding of rationals to integers: to the nearest with ties to even, by the next digit alone, and the
two of them one after the other. -/
namespace BlockScript

/-- An integer nearest to a number; of two that are as near, the even one. -/
structure IsHalfEven (x : ℚ) (n : ℤ) : Prop where
  near : |x - n| ≤ 1 / 2
  tie : |x - n| = 1 / 2 → Even n

/-- The second number lies among the same integers as the first: none of them is passed on the way. -/
def Hugs (x y : ℚ) : Prop := ∀ m : ℤ, (m ≤ x → m ≤ y) ∧ (x ≤ m → y ≤ m)

section
variable {x y : ℚ} {m n : ℤ}

lemma IsHalfEven.of_eq (h : x = n) : IsHalfEven x n := by
  constructor <;> simp [h]

lemma IsHalfEven.add_low {f : ℚ} (hf : 0 ≤ f) (h : 2 * f ≤ 1) (he : 2 * f = 1 → Even n) :
    IsHalfEven (n + f) n := by
  constructor
  · rw [add_sub_cancel_left,abs_of_nonneg hf]
    linarith
  · rw [add_sub_cancel_left,abs_of_nonneg hf]
    exact fun ht => he (by linarith)

lemma IsHalfEven.add_high {f : ℚ} (hf : f < 1) (h : 1 ≤ 2 * f) (he : 2 * f = 1 → Even (n + 1)) :
    IsHalfEven (n + f) (n + 1) := by
  have habs : |n + f - ((n + 1 : ℤ) : ℚ)| = 1 - f := by
    rw [Int.cast_add,Int.cast_one,add_sub_add_left_eq_sub,abs_sub_comm,abs_of_pos (by linarith)]
  constructor
  · rw [habs]
    linarith
  · rw [habs]
    exact fun ht => he (by linarith)

lemma IsHalfEven.neg (h : IsHalfEven x n) : IsHalfEven (-x) (-n) := by
  have habs : |-x - ((-n : ℤ) : ℚ)| = |x - n| := by
    rw [Int.cast_neg,← abs_neg (x - n)]
    ring_nf
  constructor
  · rw [habs]
    exact h.near
  · rw [habs]
    exact fun ht => (h.tie ht).neg

/-- There is one such integer. -/
theorem IsHalfEven.unique (hm : IsHalfEven x m) (hn : IsHalfEven x n) : m = n := by
  by_contra hne
  wlog hlt : m < n
  · exact this hn hm (Ne.symm hne) (by omega)
  have hm' := abs_le.mp hm.near
  have hn' := abs_le.mp hn.near
  have hsucc : (m : ℚ) + 1 ≤ n := by
    exact_mod_cast hlt
  have hnm : (n : ℚ) = m + 1 := by
    linarith
  -- both are at one half from the number, and one of them is odd
  have htm : |x - m| = 1 / 2 := by
    rw [show x - m = 1 / 2 by linarith]
    norm_num
  have htn : |x - n| = 1 / 2 := by
    rw [show x - n = -(1 / 2) by linarith]
    norm_num
  have hem := hm.tie htm
  have hen := hn.tie htn
  have hz : n = m + 1 := by
    exact_mod_cast hnm
  rw [hz,Int.even_add_one] at hen
  exact hen hem

lemma Hugs.refl (x : ℚ) : Hugs x x := fun _ => ⟨id,id⟩

lemma Hugs.neg (h : Hugs x y) : Hugs (-x) (-y) := by
  intro m
  have hm := h (-m)
  push_cast at hm
  constructor
  · intro hx
    linarith [hm.2 (by linarith)]
  · intro hx
    linarith [hm.1 (by linarith)]

/-- A number is rounded to one of the integers next to every number that it hugs. -/
theorem Hugs.floor_or_ceil (h : Hugs x y) (hn : IsHalfEven y n) : n = ⌊x⌋ ∨ n = ⌈x⌉ := by
  have hlow := (h ⌊x⌋).1 (Int.floor_le x)
  have hhigh := (h ⌈x⌉).2 (Int.le_ceil x)
  have hnear := abs_le.mp hn.near
  have hl : ⌊x⌋ < n + 1 := by
    have : (⌊x⌋ : ℚ) < n + 1 := by linarith
    exact_mod_cast this
  have hh : n < ⌈x⌉ + 1 := by
    have : (n : ℚ) < ⌈x⌉ + 1 := by linarith
    exact_mod_cast this
  have := Int.ceil_le_floor_add_one x
  omega

/-- Rounding passes no integer. -/
lemma IsHalfEven.le_of_le (h : IsHalfEven x n) (hm : (m : ℚ) ≤ x) : m ≤ n := by
  have hfloor : m ≤ ⌊x⌋ := Int.le_floor.mpr hm
  have hceil := Int.floor_le_ceil x
  rcases (Hugs.refl x).floor_or_ceil h with hn | hn <;> omega

lemma IsHalfEven.ge_of_ge (h : IsHalfEven x n) (hm : x ≤ m) : n ≤ m := by
  have hceil : ⌈x⌉ ≤ m := Int.ceil_le.mpr hm
  have hfloor := Int.floor_le_ceil x
  rcases (Hugs.refl x).floor_or_ceil h with hn | hn <;> omega

end

namespace Round
variable {den : ℕ}

theorem isHalfEven_halfEven (num : ℕ) (hden : 0 < den) : IsHalfEven (num / den) (halfEven num den) := by
  have hd : (0 : ℚ) < den := by
    exact_mod_cast hden
  have hlt : num % den < den := Nat.mod_lt num hden
  have hnum : (num : ℚ) / den = ((num / den : ℕ) : ℤ) + (num % den : ℕ) / den := by
    rw [Int.cast_natCast,div_eq_iff hd.ne',add_mul,div_mul_cancel₀ _ hd.ne']
    exact_mod_cast (Nat.div_add_mod' num den).symm
  have htwice : 2 * ((num % den : ℕ) / den : ℚ) = (2 * (num % den) : ℕ) / den := by
    rw [Nat.cast_mul,mul_div_assoc,Nat.cast_ofNat]
  have htie (h : 2 * ((num % den : ℕ) / den : ℚ) = 1) : 2 * (num % den) = den := by
    rw [htwice,div_eq_one_iff_eq hd.ne'] at h
    exact_mod_cast h
  rw [hnum]
  unfold halfEven
  dsimp only
  split
  · next h =>
    apply IsHalfEven.add_low
    · positivity
    · rw [htwice,div_le_one hd]
      exact_mod_cast (by omega : 2 * (num % den) ≤ den)
    · intro ht
      have := htie ht
      exact_mod_cast (Nat.even_iff.mpr (by omega) : Even (num / den))
  · next h =>
    rw [Int.natCast_add]
    apply IsHalfEven.add_high
    · rw [div_lt_one hd]
      exact_mod_cast hlt
    · rw [htwice,one_le_div hd]
      exact_mod_cast (by omega : den ≤ 2 * (num % den))
    · intro ht
      have := htie ht
      exact_mod_cast (Nat.even_iff.mpr (by omega) : Even (num / den + 1))

/-- The next digit is zero where the quotient is whole, and leads to one of the two integers next to it
otherwise. -/
lemma byNextDigit_cases (num den : ℕ) :
    byNextDigit num den = num / den ∨ (byNextDigit num den = num / den + 1 ∧ ¬den ∣ num) := by
  have hten : 10 * num / den / 10 = num / den := by
    rw [Nat.div_div_eq_div_mul,Nat.mul_comm den,Nat.mul_div_mul_left _ _ (by decide)]
  unfold byNextDigit
  dsimp only
  rw [hten]
  split
  · next h =>
    refine .inr ⟨rfl,?_⟩
    rintro ⟨k,rfl⟩
    rcases Nat.eq_zero_or_pos den with rfl | hpos
    · simp at h
    · rw [← Nat.mul_assoc,Nat.mul_comm 10,Nat.mul_assoc,Nat.mul_div_cancel_left _ hpos] at h
      omega
  · exact .inl rfl

/-- Rounded by the next digit, a quotient passes no multiple of a whole number. -/
lemma hugs_byNextDigit (num : ℕ) (hden : 0 < den) {c : ℕ} (hc : 0 < c) :
    Hugs (num / den / c) (byNextDigit num den / c) := by
  have hd : (0 : ℚ) < den := by
    exact_mod_cast hden
  have hc' : (0 : ℚ) < c := by
    exact_mod_cast hc
  intro m
  rw [le_div_iff₀ hc',le_div_iff₀ hc',le_div_iff₀ hd,div_le_iff₀ hc',div_le_iff₀ hc',div_le_iff₀ hd]
  have hle : num / den ≤ byNextDigit num den := by
    rcases byNextDigit_cases num den with h | ⟨h,_⟩ <;> omega
  constructor
  · intro h
    have hm : m * c * den ≤ (num : ℤ) := by
      exact_mod_cast h
    have hdiv : m * c ≤ (num : ℤ) / den := (Int.le_ediv_iff_mul_le (by omega)).mpr hm
    have hnat : (num : ℤ) / den = (num / den : ℕ) := rfl
    have : m * c ≤ (byNextDigit num den : ℤ) := by
      omega
    exact_mod_cast this
  · intro h
    have hm : (num : ℤ) ≤ m * c * den := by
      exact_mod_cast h
    have : (byNextDigit num den : ℤ) ≤ m * c := by
      have hdiv : (num : ℤ) / den ≤ m * c := by
        apply Int.ediv_le_of_le_mul (by omega)
        exact hm
      have hnat : (num : ℤ) / den = (num / den : ℕ) := rfl
      rcases byNextDigit_cases num den with hb | ⟨hb,hndvd⟩
      · omega
      · -- a quotient that is not whole is less than an integer that it does not pass
        have hne : (num : ℤ) / den ≠ m * c := by
          intro he
          apply hndvd
          have hmul : (num : ℤ) / den * den ≤ num := Int.ediv_mul_le _ (by omega)
          rw [he] at hmul
          have heq : (num : ℤ) = m * c * den := le_antisymm hm hmul
          exact Int.natCast_dvd_natCast.mp ⟨m * c,by rw [heq,Int.mul_comm]⟩
        omega
    exact_mod_cast this

end Round
end BlockScript
