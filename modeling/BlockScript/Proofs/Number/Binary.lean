import BlockScript.Number.Binary
import BlockScript.Proofs.Number.Rounding
/-! Rounding to 53 bits. The places of a rounded number are the multiples of its last bit, and none of
them is passed: a whole number of no more bits stays as it is, and a longer one stays long. -/
namespace BlockScript
namespace Binary
open Round (twoTo)

/-- The number that is written. -/
def toRat (b : Binary) : ℚ := b.significand * 2 ^ b.exponent

variable {b b' : Binary} {x y : ℚ} {e k : ℤ} {num den n : ℕ}

lemma cast_twoTo (k : ℕ) : (twoTo k : ℚ) = 2 ^ k := by
  rw [twoTo,Nat.pow_eq,Nat.cast_pow,Nat.cast_ofNat]

lemma zpow_eq_div (k : ℤ) : (2 : ℚ) ^ k = twoTo k.toNat / twoTo (-k).toNat := by
  have hk : k = (k.toNat : ℤ) - ((-k).toNat : ℤ) := by
    omega
  rw [cast_twoTo,cast_twoTo,← zpow_natCast,← zpow_natCast,← zpow_sub₀ (by norm_num),← hk]

lemma floor_eq (b : Binary) : (b.floor : ℤ) = ⌊b.toRat⌋ := by
  rw [toRat,zpow_eq_div,← mul_div_assoc,← Nat.cast_mul,Rat.floor_natCast_div_natCast]
  rfl

/-! ### The first bit -/

lemma log_eq (hx : 0 < x) (hl : 2 ^ k ≤ x) (hu : x < 2 ^ (k + 1)) : Int.log 2 x = k := by
  have hlow : k ≤ Int.log 2 x := (Int.zpow_le_iff_le_log Nat.one_lt_two hx).mp (by exact_mod_cast hl)
  have hup : Int.log 2 x < k + 1 := (Int.lt_zpow_iff_log_lt Nat.one_lt_two hx).mp (by exact_mod_cast hu)
  omega

lemma log2_bounds (hn : 0 < n) :
    (2 : ℚ) ^ (Nat.log2 n : ℤ) ≤ n ∧ (n : ℚ) < 2 ^ ((Nat.log2 n : ℤ) + 1) := by
  rw [← Nat.cast_succ,zpow_natCast,zpow_natCast]
  exact ⟨by exact_mod_cast Nat.log2_self_le hn.ne',by exact_mod_cast Nat.lt_log2_self⟩

/-- The logarithm of a quotient is the difference of the logarithms, or one less. -/
lemma floorLog_eq (hn : 0 < num) (hd : 0 < den) : floorLog num den = Int.log 2 (num / den : ℚ) := by
  have hd' : (0 : ℚ) < den := by
    exact_mod_cast hd
  have hx : (0 : ℚ) < num / den := by
    positivity
  obtain ⟨hnl,hnu⟩ := log2_bounds hn
  obtain ⟨hdl,hdu⟩ := log2_bounds hd
  have hlt : num * twoTo (Nat.log2 den) < den * twoTo (Nat.log2 num) ↔
      (num / den : ℚ) < 2 ^ ((Nat.log2 num : ℤ) - Nat.log2 den) := by
    rw [zpow_sub₀ (by norm_num),zpow_natCast,zpow_natCast,← cast_twoTo,← cast_twoTo,
      div_lt_div_iff₀ hd' (by exact_mod_cast Nat.pow_pos (by decide)),mul_comm (twoTo _ : ℚ)]
    exact_mod_cast Iff.rfl
  unfold floorLog
  dsimp only
  generalize (Nat.log2 num : ℤ) = i at *
  generalize (Nat.log2 den : ℤ) = j at *
  rw [eq_comm]
  split
  · next h =>
    refine log_eq hx ?_ (by rw [sub_add_cancel]; exact hlt.mp h)
    calc (2 : ℚ) ^ (i - j - 1) = 2 ^ i / 2 ^ (j + 1) := by rw [sub_sub,zpow_sub₀ (by norm_num)]
      _ ≤ num / den := by gcongr
  · next h =>
    refine log_eq hx (not_lt.mp fun hl => h (hlt.mpr hl)) ?_
    calc (num / den : ℚ) < 2 ^ (i + 1) / 2 ^ j := by gcongr
      _ = 2 ^ (i - j + 1) := by rw [← zpow_sub₀ (by norm_num),sub_add_eq_add_sub]

/-! ### Rounding -/

/-- The number of 53 bits nearest to a positive number, fewer bits where the exponent is smallest; a tie
goes to the even significand. -/
structure IsNearest (x : ℚ) (b : Binary) : Prop where
  exponent : b.exponent = max (Int.log 2 x - precision) minExponent
  rounded : IsHalfEven (x * 2 ^ (-b.exponent)) b.significand

theorem isNearest_nearest (hn : 0 < num) (hd : 0 < den) : IsNearest (num / den) (nearest num den) := by
  have hexp : (nearest num den).exponent = max (floorLog num den - precision) minExponent := rfl
  refine ⟨by rw [hexp,floorLog_eq hn hd],?_⟩
  have hscaled : (num / den : ℚ) * 2 ^ (-(nearest num den).exponent) =
      (num * twoTo (-(nearest num den).exponent).toNat : ℕ) /
        (den * twoTo (nearest num den).exponent.toNat : ℕ) := by
    rw [zpow_eq_div,neg_neg,div_mul_div_comm,Nat.cast_mul,Nat.cast_mul]
  rw [hscaled]
  exact Round.isHalfEven_halfEven _ (Nat.mul_pos hd (Nat.pow_pos (by decide)))

lemma IsNearest.unique (h : IsNearest x b) (h' : IsNearest x b') : b = b' := by
  have he : b.exponent = b'.exponent := h.exponent.trans h'.exponent.symm
  have hs := h'.rounded
  rw [← he] at hs
  cases b
  cases b'
  cases he
  cases Int.ofNat.inj (h.rounded.unique hs)
  rfl

/-- The multiples of a power of two. -/
def OnGrid (e : ℤ) (x : ℚ) : Prop := ∃ m : ℤ, x = m * 2 ^ e

lemma onGrid_mul (m : ℤ) (h : e ≤ k) : OnGrid e (m * 2 ^ k) := by
  refine ⟨m * 2 ^ (k - e).toNat,?_⟩
  have hk : k = ((k - e).toNat : ℤ) + e := by
    omega
  rw [Int.cast_mul,Int.cast_pow,Int.cast_ofNat,mul_assoc,← zpow_natCast,← zpow_add₀ (by norm_num),← hk]

lemma onGrid_zpow (h : e ≤ k) : OnGrid e (2 ^ k) := by
  simpa using onGrid_mul 1 h

lemma onGrid_int (m : ℤ) (h : e ≤ 0) : OnGrid e m := by
  simpa using onGrid_mul m h

namespace IsNearest

lemma le_of_le (h : IsNearest x b) (hy : OnGrid b.exponent y) (hle : y ≤ x) : y ≤ b.toRat := by
  obtain ⟨m,rfl⟩ := hy
  have hm : (m : ℚ) ≤ x * 2 ^ (-b.exponent) := by
    rw [zpow_neg]
    exact (le_mul_inv_iff₀ (by positivity)).mpr hle
  have hs : (m : ℚ) ≤ b.significand := by
    exact_mod_cast h.rounded.le_of_le hm
  rw [toRat]
  gcongr

lemma ge_of_ge (h : IsNearest x b) (hy : OnGrid b.exponent y) (hge : x ≤ y) : b.toRat ≤ y := by
  obtain ⟨m,rfl⟩ := hy
  have hm : x * 2 ^ (-b.exponent) ≤ m := by
    rw [zpow_neg]
    exact (mul_inv_le_iff₀ (by positivity)).mpr hge
  have hs : (b.significand : ℚ) ≤ m := by
    exact_mod_cast h.rounded.ge_of_ge hm
  rw [toRat]
  gcongr

lemma exponent_le (h : IsNearest x b) (hx : 0 < x) (hlt : x < 2 ^ k) (hk : -1021 ≤ k) :
    b.exponent ≤ k - 53 := by
  have hlog : Int.log 2 x < k := (Int.lt_zpow_iff_log_lt Nat.one_lt_two hx).mp (by exact_mod_cast hlt)
  rw [h.exponent,precision,minExponent]
  omega

/-- A power of two in the normal range that is not above a number is not above it when it is rounded. -/
lemma zpow_le_toRat (h : IsNearest x b) (hx : 0 < x) (hle : 2 ^ k ≤ x) (hk : -1022 ≤ k) :
    2 ^ k ≤ b.toRat := by
  have hlog : k ≤ Int.log 2 x := (Int.zpow_le_iff_le_log Nat.one_lt_two hx).mp (by exact_mod_cast hle)
  have hpow : (2 : ℚ) ^ Int.log 2 x ≤ x := by
    exact_mod_cast Int.zpow_log_le_self Nat.one_lt_two hx
  have hexp : b.exponent ≤ Int.log 2 x := by
    rw [h.exponent,precision,minExponent]
    omega
  calc (2 : ℚ) ^ k ≤ 2 ^ Int.log 2 x := zpow_le_zpow_right₀ (by norm_num) hlog
    _ ≤ b.toRat := h.le_of_le (onGrid_zpow hexp) hpow

/-- A whole number of up to 53 bits is left as it is. -/
lemma toRat_of_int {m : ℤ} (h : IsNearest m b) (hm : 0 < m) (hlt : m < 2 ^ 53) : b.toRat = m := by
  have hx : (0 : ℚ) < m := by
    exact_mod_cast hm
  have hexp : b.exponent ≤ 53 - 53 := h.exponent_le hx (by exact_mod_cast hlt) (by decide)
  have hgrid : OnGrid b.exponent m := onGrid_int m (by omega)
  exact le_antisymm (h.ge_of_ge hgrid le_rfl) (h.le_of_le hgrid le_rfl)

/-- What is too small for the smallest exponent is rounded to zero. -/
lemma of_tiny (hx : 0 < x) (hlt : x < 2 ^ (-1075 : ℤ)) : IsNearest x ⟨0,minExponent⟩ := by
  have hlog : Int.log 2 x < -1075 :=
    (Int.lt_zpow_iff_log_lt Nat.one_lt_two hx).mp (by exact_mod_cast hlt)
  refine ⟨?_,?_⟩
  · change (-1074 : ℤ) = max (Int.log 2 x - 52) (-1074)
    omega
  · have hscaled : x * 2 ^ (-minExponent) < 1 / 2 :=
      calc x * 2 ^ (-minExponent) < 2 ^ (-1075 : ℤ) * 2 ^ (-minExponent) := by gcongr
        _ = 2 ^ (-1 : ℤ) := by rw [← zpow_add₀ (by norm_num)]; rfl
        _ = 1 / 2 := by norm_num
    have habs : |x * 2 ^ (-minExponent) - ((0 : ℕ) : ℤ)| = x * 2 ^ (-minExponent) := by
      rw [Nat.cast_zero,Int.cast_zero,sub_zero,abs_of_pos (by positivity)]
    constructor
    · rw [habs]
      exact hscaled.le
    · intro h
      rw [habs] at h
      exact absurd h hscaled.ne

end IsNearest
end Binary
end BlockScript
