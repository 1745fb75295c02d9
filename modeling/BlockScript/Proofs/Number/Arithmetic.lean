import BlockScript.Proofs.Number.Division
/-! Sums, differences and products of decimals are exact: each shortcut gives the number that the general
rule gives, at another scale. -/
namespace BlockScript.Decimal
open Round (tenTo twoTo)

section
variable {a b d : Decimal} {s : ℤ}

/-- Decimals are equal if they write the same number. -/
theorem equal_iff_toRat (a b : Decimal) : a.equal b = true ↔ a.toRat = b.toRat := by
  have ha : a.scale ≤ max a.scale b.scale := le_max_left ..
  have hb : b.scale ≤ max a.scale b.scale := le_max_right ..
  have hpow : (10 : ℚ) ^ max a.scale b.scale ≠ 0 := by positivity
  rw [equal_iff ha hb,← Int.cast_inj (α := ℚ),cast_unscaledAt ha,cast_unscaledAt hb,
    mul_left_inj' hpow]

lemma toRat_of_cast {u : ℤ} {x : ℚ} (h : (u : ℚ) = x * 10 ^ s) : toRat ⟨u,s⟩ = x := by
  rw [toRat,h,mul_assoc,← zpow_add₀ (by norm_num),add_neg_cancel,zpow_zero,mul_one]

lemma toRat_extendTo (h : d.scale ≤ s) : (d.extendTo s).toRat = d.toRat :=
  toRat_of_cast (cast_unscaledAt h)

lemma toRat_of_isZero (h : d.isZero = true) : d.toRat = 0 := by
  rw [isZero,beq_iff_eq] at h
  rw [toRat,h,Int.cast_zero,zero_mul]

/-! ### Sums and differences -/

lemma toRat_plusZero (a zero : Decimal) : (a.plusZero zero).toRat = a.toRat := by
  apply toRat_extendTo
  unfold maxExtension
  omega

/-- Beside a zero as well, a sum is exact. -/
theorem toRat_add (a b : Decimal) : (a.add b).toRat = a.toRat + b.toRat := by
  unfold add
  dsimp only
  split
  · next h => rw [toRat_plusZero,toRat_of_isZero h,add_zero]
  · split
    · next h => rw [toRat_plusZero,toRat_of_isZero h,zero_add]
    · apply toRat_of_cast
      rw [Int.cast_add,cast_unscaledAt (le_max_left ..),cast_unscaledAt (le_max_right ..),add_mul]

theorem toRat_sub (a b : Decimal) : (a.sub b).toRat = a.toRat - b.toRat := by
  apply toRat_of_cast
  rw [Int.cast_sub,cast_unscaledAt (le_max_left ..),cast_unscaledAt (le_max_right ..),sub_mul]

/-! ### Products -/

/-- The zeros that are stripped are those that were there. -/
lemma stripZeros_mul (level n : ℕ) :
    (stripZeros level n).1 * tenTo (stripZeros level n).2 = n := by
  induction level generalizing n with
  | zero => exact Nat.mul_one n
  | succ level ih =>
    rw [stripZeros]
    dsimp only
    split
    · next h =>
      rw [tenTo_add,Nat.mul_comm (tenTo (twoTo level)),← Nat.mul_assoc,ih]
      exact Nat.div_mul_cancel (Nat.dvd_of_mod_eq_zero h)
    · exact ih n

lemma toRat_normalize (d : Decimal) : d.normalize.toRat = d.toRat := by
  unfold normalize
  dsimp only
  split
  · next h => rw [toRat_of_isZero h,toRat,Int.cast_zero,zero_mul]
  · have hstrip := stripZeros_mul (Nat.log2 (digitCount d.unscaled.natAbs) + 1) d.unscaled.natAbs
    generalize stripZeros _ _ = stripped at hstrip
    obtain ⟨digits,zeros⟩ := stripped
    have hu : (d.unscaled : ℚ) = (d.unscaled.sign * digits : ℤ) * 10 ^ zeros := by
      rw [cast_eq_sign d.unscaled,← hstrip,Nat.cast_mul,cast_tenTo,Int.cast_mul,Int.cast_natCast,
        mul_assoc]
    apply toRat_of_cast
    rw [toRat_mul_pow,sub_sub_cancel_left,zpow_neg,zpow_natCast]
    exact (eq_mul_inv_iff_mul_eq₀ (by positivity)).mpr hu.symm

/-- A factor one, and the zeros that go with it, do not change a product. -/
theorem toRat_mul (a b : Decimal) : (a.mul b).toRat = a.toRat * b.toRat := by
  unfold mul
  split
  · next h => rw [toRat_normalize,toRat_of_isUnit h,one_mul]
  · split
    · next h => rw [toRat_normalize,toRat_of_isUnit h,mul_one]
    · rw [toRat,toRat,toRat,Int.cast_mul,neg_add,zpow_add₀ (by norm_num)]
      ring

end
end BlockScript.Decimal
