import BlockScript.Proofs.Number.Binary
import BlockScript.Value.Operation
/-! The power of two whole numbers is the exact power, cut to its whole part and brought into 32 bits: that
it is rounded to 53 bits on the way does not show. A power that is whole is kept or stays out of range, and
any other is no more than one half. -/
namespace BlockScript
open Binary

namespace Power

/-- The whole part, toward zero. -/
def truncate (x : ℚ) : ℤ := if 0 ≤ x then ⌊x⌋ else ⌈x⌉

/-- A positive number rounded to 53 bits, or infinite. -/
inductive Rounds (x : ℚ) : Option Binary → Prop
  | finite {p : Binary} (h : IsNearest x p) (hf : p.isFinite = true) : Rounds x (some p)
  | infinite {p : Binary} (h : IsNearest x p) (hf : p.isFinite = false) : Rounds x none

section
variable {base : ℕ} {b e m : ℤ} {x : ℚ} {p : Binary}

lemma isFinite_iff : p.isFinite = true ↔ p.toRat < 2 ^ (1024 : ℤ) := by
  have hpow : (2 : ℚ) ^ (1024 : ℤ) = (Round.twoTo 1024 : ℤ) := by
    rw [Int.cast_natCast,cast_twoTo]
    rfl
  rw [isFinite,decide_eq_true_eq,hpow,← Int.floor_lt,← floor_eq,Int.ofNat_lt]

lemma isFinite_eq_false (h : IsNearest x p) (hx : 0 < x) (hle : 2 ^ (1024 : ℤ) ≤ x) :
    p.isFinite = false := by
  rw [Bool.eq_false_iff,ne_eq,isFinite_iff,not_lt]
  exact h.zpow_le_toRat hx hle (by decide)

lemma isFinite_of_le_one (h : IsNearest x p) (hx : 0 < x) (hle : x ≤ 1) : p.isFinite = true := by
  have hexp : p.exponent ≤ 1 - 53 := h.exponent_le hx (hle.trans_lt (by norm_num)) (by decide)
  have hgrid : OnGrid p.exponent (1 : ℤ) := onGrid_int 1 (by omega)
  rw [Int.cast_one] at hgrid
  rw [isFinite_iff]
  exact (h.ge_of_ge hgrid hle).trans_lt (one_lt_zpow₀ (by norm_num) (by decide))

lemma le_floor_of_infinite (hf : p.isFinite = false) : 2 ^ 53 ≤ (p.floor : ℤ) := by
  rw [Bool.eq_false_iff,ne_eq,isFinite_iff,not_lt] at hf
  have hpow : (2 : ℚ) ^ (53 : ℤ) ≤ 2 ^ (1024 : ℤ) := zpow_le_zpow_right₀ (by norm_num) (by decide)
  rw [floor_eq]
  exact Int.le_floor.mpr (by exact_mod_cast hpow.trans hf)

/-! ### Rounded powers -/

/-- Past the largest exponent the powers of one stay, and all others are as large as can be told. -/
lemma capped (hb : 0 < base) (k : ℕ) : Nat.pow base (min k maxExponent) = base ^ k ∨
    ((2 : ℚ) ^ maxExponent ≤ base ^ k ∧
      (2 : ℚ) ^ maxExponent ≤ (Nat.pow base (min k maxExponent) : ℕ)) := by
  by_cases hk : k ≤ maxExponent
  · rw [min_eq_left hk]
    exact .inl rfl
  · have hk : maxExponent ≤ k := Nat.le_of_not_le hk
    rw [min_eq_right hk]
    obtain rfl | hb : base = 1 ∨ 2 ≤ base := by
      omega
    · exact .inl (by simp)
    · have htwo : (2 : ℚ) ≤ base := by
        exact_mod_cast hb
      refine .inr ⟨?_,?_⟩
      · calc (2 : ℚ) ^ maxExponent ≤ 2 ^ k := pow_le_pow_right₀ (by norm_num) hk
          _ ≤ base ^ k := by gcongr
      · rw [Nat.pow_eq,Nat.cast_pow]
        gcongr

lemma large_of_maxExponent (h : (2 : ℚ) ^ maxExponent ≤ x) : (2 : ℚ) ^ (1024 : ℤ) ≤ x := by
  refine le_trans ?_ h
  rw [← zpow_natCast]
  exact zpow_le_zpow_right₀ (by norm_num) (by decide)

lemma tiny_of_maxExponent (h : (2 : ℚ) ^ maxExponent ≤ x) : 1 / x < (2 : ℚ) ^ (-1075 : ℤ) := by
  have hpow : (2 : ℚ) ^ (1075 : ℤ) < x := by
    refine lt_of_lt_of_le ?_ h
    rw [← zpow_natCast]
    exact zpow_lt_zpow_right₀ (by norm_num) (by decide)
  rw [zpow_neg,← one_div]
  gcongr

lemma rounds_power (hb : 0 < base) (k : ℕ) : Rounds ((base : ℚ) ^ k) (magnitude? base k) := by
  have hnear {n : ℕ} (hn : 0 < n) : IsNearest n (nearest n 1) := by
    simpa using isNearest_nearest hn Nat.one_pos
  have hround : IsNearest ((base : ℚ) ^ k) (nearest (base ^ k) 1) := by
    simpa using hnear (Nat.pow_pos hb : 0 < base ^ k)
  have hcap := capped hb k
  have hraised : 0 < Nat.pow base (min k maxExponent) := Nat.pow_pos hb
  unfold magnitude?
  dsimp only
  rw [if_pos (Int.natCast_nonneg k),Int.natAbs_natCast]
  generalize Nat.pow base (min k maxExponent) = raised at *
  rcases hcap with rfl | ⟨hexact,hlarge⟩
  · split
    · next hf => exact .finite hround hf
    · next hf => exact .infinite hround (Bool.eq_false_iff.mpr hf)
  · rw [isFinite_eq_false (hnear hraised) (by exact_mod_cast hraised) (large_of_maxExponent hlarge)]
    exact .infinite hround (isFinite_eq_false hround (by positivity) (large_of_maxExponent hexact))

lemma rounds_reciprocal (hb : 0 < base) {k : ℕ} (hk : 0 < k) :
    Rounds (1 / (base : ℚ) ^ k) (magnitude? base (-k)) := by
  have hcap := capped hb k
  have hraised : 0 < Nat.pow base (min k maxExponent) := Nat.pow_pos hb
  unfold magnitude?
  dsimp only
  rw [if_neg (by omega),Int.natAbs_neg,Int.natAbs_natCast]
  generalize Nat.pow base (min k maxExponent) = raised at *
  have hround : IsNearest (1 / raised) (nearest 1 raised) := by
    simpa using isNearest_nearest Nat.one_pos hraised
  rw [if_neg hraised.ne']
  rcases hcap with rfl | ⟨hexact,hlarge⟩
  · rw [Nat.cast_pow] at hround
    have hle : (1 : ℚ) / base ^ k ≤ 1 := by
      rw [div_le_one (by positivity)]
      exact one_le_pow₀ (by exact_mod_cast hb)
    exact .finite hround (isFinite_of_le_one hround (by positivity) hle)
  · -- Both reciprocals are too small to be told from zero.
    have hpos : (0 : ℚ) < raised := by
      exact_mod_cast hraised
    rw [hround.unique (.of_tiny (by positivity) (tiny_of_maxExponent hlarge))]
    exact .finite (.of_tiny (by positivity) (tiny_of_maxExponent hexact)) (by decide +kernel)

/-- The power of a positive number is the exact power, rounded. -/
theorem magnitude?_rounds (hb : 0 < base) (e : ℤ) : Rounds ((base : ℚ) ^ e) (magnitude? base e) := by
  by_cases he : 0 ≤ e
  · obtain ⟨k,rfl⟩ := Int.eq_ofNat_of_zero_le he
    rw [zpow_natCast]
    exact rounds_power hb k
  · obtain ⟨k,rfl⟩ : ∃ k : ℕ, e = -k := ⟨e.natAbs,by omega⟩
    rw [zpow_neg,zpow_natCast,← one_div]
    exact rounds_reciprocal hb (by omega)

/-! ### The whole part -/

/-- A power is whole, or no more than one half. -/
lemma whole_or_small (hb : 0 < base) (e : ℤ) :
    (∃ m : ℤ, (base : ℚ) ^ e = m) ∨ (base : ℚ) ^ e ≤ 1 / 2 := by
  by_cases he : 0 ≤ e
  · obtain ⟨k,rfl⟩ := Int.eq_ofNat_of_zero_le he
    exact .inl ⟨(base ^ k : ℕ),by push_cast; rw [zpow_natCast]⟩
  · obtain rfl | hb : base = 1 ∨ 2 ≤ base := by
      omega
    · exact .inl ⟨1,by simp⟩
    · have htwo : (2 : ℚ) ≤ base := by
        exact_mod_cast hb
      refine .inr ?_
      calc (base : ℚ) ^ e ≤ base ^ (-1 : ℤ) := zpow_le_zpow_right₀ (by linarith) (by omega)
        _ ≤ 1 / 2 := by rw [zpow_neg_one,← one_div]; gcongr

/-- Rounding keeps the whole part of such a number, but for one that has more than 53 bits already. -/
lemma floor_rounded (h : IsNearest x p) (hx : 0 < x) (hw : (∃ m : ℤ, x = m) ∨ x ≤ 1 / 2) :
    ((p.floor : ℤ) = ⌊x⌋ ∧ ⌊x⌋ < 2 ^ 53) ∨ (2 ^ 53 ≤ (p.floor : ℤ) ∧ 2 ^ 53 ≤ ⌊x⌋) := by
  rw [floor_eq]
  rcases hw with ⟨m,rfl⟩ | hle
  · rw [Int.floor_intCast]
    have hm : 0 < m := by
      exact_mod_cast hx
    by_cases hlt : m < 2 ^ 53
    · rw [h.toRat_of_int hm hlt,Int.floor_intCast]
      exact .inl ⟨rfl,hlt⟩
    · have hlarge : (2 : ℚ) ^ (53 : ℤ) ≤ p.toRat :=
        h.zpow_le_toRat hx (by exact_mod_cast not_lt.mp hlt) (by decide)
      exact .inr ⟨Int.le_floor.mpr (by exact_mod_cast hlarge),not_lt.mp hlt⟩
  · have hexp : p.exponent ≤ 0 - 53 := h.exponent_le hx (hle.trans_lt (by norm_num)) (by decide)
    have hgrid : OnGrid p.exponent (2 ^ (-1 : ℤ)) := onGrid_zpow (by omega)
    have hsmall : p.toRat ≤ 2 ^ (-1 : ℤ) := h.ge_of_ge hgrid (hle.trans_eq (by norm_num))
    have hfloor : ⌊x⌋ = 0 := Int.floor_eq_zero_iff.mpr ⟨hx.le,hle.trans_lt (by norm_num)⟩
    have hpos : 0 ≤ p.toRat := by
      rw [toRat]
      positivity
    have hfloor' : ⌊p.toRat⌋ = 0 := Int.floor_eq_zero_iff.mpr ⟨hpos,hsmall.trans_lt (by norm_num)⟩
    exact .inl ⟨hfloor'.trans hfloor.symm,by rw [hfloor]; decide⟩

lemma truncate_pos (hx : 0 < x) : truncate x = ⌊x⌋ := if_pos hx.le

lemma truncate_neg (hx : 0 < x) : truncate (-x) = -⌊x⌋ := by
  rw [truncate,if_neg (by linarith),Int.ceil_neg]

/-- Only an odd power of a negative number is negative. -/
lemma zpow_eq_signed (b e : ℤ) : (b : ℚ) ^ e =
    if (b < 0 && e % 2 == 1) = true then -(b.natAbs : ℚ) ^ e else (b.natAbs : ℚ) ^ e := by
  by_cases hb : b < 0
  · have hcast : (b : ℚ) = -b.natAbs := by
      rw [Nat.cast_natAbs,abs_of_neg hb,Int.cast_neg,neg_neg]
    rw [hcast]
    by_cases he : e % 2 = 1
    · rw [if_pos (by simp [hb,he])]
      exact (Int.odd_iff.mpr he).neg_zpow _
    · rw [if_neg (by simp [he])]
      exact (Int.even_iff.mpr (by omega)).neg_zpow _
  · have hcast : (b : ℚ) = b.natAbs := by
      rw [Nat.cast_natAbs,abs_of_nonneg (not_lt.mp hb)]
    rw [if_neg (by simp [hb]),← hcast]

lemma truncate_signed (negative : Bool) (hx : 0 < x) :
    truncate (if negative = true then -x else x) = if negative = true then -⌊x⌋ else ⌊x⌋ := by
  cases negative
  · exact truncate_pos hx
  · exact truncate_neg hx

/-- Numbers of more than 53 bits are all out of the range. -/
lemma saturate_large (negative : Bool) (hm : 2 ^ 53 ≤ m) :
    saturate (if negative = true then -m else m) = if negative = true then minInt32 else maxInt32 := by
  cases negative
  · simp only [saturate,minInt32,maxInt32,Bool.false_eq_true,↓reduceIte]
    omega
  · simp only [saturate,minInt32,maxInt32,↓reduceIte]
    omega

/-- The power of a number that is not zero is the exact power, truncated and brought into the range. -/
theorem toInt32_eq (hb : b ≠ 0) (e : ℤ) : toInt32 b e = saturate (truncate ((b : ℚ) ^ e)) := by
  have hpos : 0 < b.natAbs := Int.natAbs_pos.mpr hb
  have hx : (0 : ℚ) < (b.natAbs : ℚ) ^ e := by
    have : (0 : ℚ) < b.natAbs := by exact_mod_cast hpos
    positivity
  have hr := magnitude?_rounds hpos e
  have hw := whole_or_small hpos e
  rw [zpow_eq_signed,truncate_signed _ hx]
  unfold toInt32
  dsimp only
  generalize (b < 0 && e % 2 == 1) = negative
  generalize (b.natAbs : ℚ) ^ e = x at *
  generalize magnitude? b.natAbs e = r at *
  cases hr with
  | @finite p h hf =>
    rcases floor_rounded h hx hw with ⟨hfloor,_⟩ | ⟨hlarge,hexact⟩
    · simp only [hfloor]
    · rw [saturate_large negative hexact]
      exact saturate_large negative hlarge
  | @infinite p h hf =>
    have hinfinite := le_floor_of_infinite hf
    obtain ⟨_,hexact⟩ := (floor_rounded h hx hw).resolve_left fun hsmall => by omega
    rw [saturate_large negative hexact]

/-! ### Both operands in the range -/

lemma truncate_int (m : ℤ) : truncate m = m := by
  rw [truncate,Int.floor_intCast,Int.ceil_intCast,ite_self]

lemma truncate_small (h : |x| < 1) : truncate x = 0 := by
  obtain ⟨hl,hu⟩ := abs_lt.mp h
  rw [truncate]
  split
  · next hx => exact Int.floor_eq_zero_iff.mpr ⟨hx,hu⟩
  · next hx => exact Int.ceil_eq_zero_iff.mpr ⟨hl,(not_le.mp hx).le⟩

lemma fitsInt32_iff_mem (n : ℤ) : fitsInt32 n = true ↔ n ∈ Set.Icc (-2 ^ 31) (2 ^ 31 - 1) := by
  rw [fitsInt32,Bool.and_eq_true,decide_eq_true_eq,decide_eq_true_eq]
  rfl

lemma saturate_eq (n : ℤ) : saturate n = max (-2 ^ 31) (min n (2 ^ 31 - 1)) := rfl

lemma saturate_of_mem (h : m ∈ Set.Icc (-2 ^ 31) (2 ^ 31 - 1)) : saturate m = m := by
  rw [saturate_eq,min_eq_left h.2,max_eq_right h.1]

lemma zero_raised (he : e ≠ 0) : Nat.pow 0 (min e.natAbs maxExponent) = 0 :=
  Nat.zero_pow (lt_min (Int.natAbs_pos.mpr he) (by decide))

lemma toInt32_zero_pos (he : 0 < e) : toInt32 0 e = 0 := by
  have hfinite : (nearest 0 1).isFinite = true := by
    decide +kernel
  have hfloor : (nearest 0 1).floor = 0 := by
    decide +kernel
  have hmagnitude : magnitude? 0 e = some (nearest 0 1) := by
    simp only [magnitude?,zero_raised he.ne',if_pos he.le,hfinite,if_true]
  simp only [toInt32,Int.natAbs_zero,hmagnitude,hfloor]
  rfl

lemma toInt32_zero_neg (he : e < 0) : toInt32 0 e = 2 ^ 31 - 1 := by
  have hmagnitude : magnitude? 0 e = none := by
    simp only [magnitude?,zero_raised he.ne,if_neg he.not_ge,if_true]
  simp only [toInt32,Int.natAbs_zero,hmagnitude]
  rfl

/-- A power with no denominator is a power of integers, brought into the range. -/
lemma toInt32_nonneg (b : ℤ) (he : 0 ≤ e) : toInt32 b e = saturate (b ^ e.toNat) := by
  by_cases hb : b = 0
  · subst hb
    obtain rfl | he : e = 0 ∨ 0 < e := by
      omega
    · decide +kernel
    · rw [toInt32_zero_pos he,zero_pow (by omega)]
      rfl
  · have hpow : (b : ℚ) ^ e = (b ^ e.toNat : ℤ) := by
      rw [Int.cast_pow,← zpow_natCast,Int.toNat_of_nonneg he]
    rw [toInt32_eq hb,hpow,truncate_int]

/-- Only one and minus one have reciprocals with a whole part. -/
lemma truncate_reciprocal (hb : 1 < |b|) (he : e < 0) : truncate ((b : ℚ) ^ e) = 0 := by
  apply truncate_small
  rw [abs_zpow]
  exact zpow_lt_one_of_neg₀ (by exact_mod_cast hb) he

lemma toInt32_neg (hb : b ≠ 0) (he : e < 0) : toInt32 b e = truncate ((b : ℚ) ^ e) := by
  rw [toInt32_eq hb]
  apply saturate_of_mem
  by_cases habs : 1 < |b|
  · rw [truncate_reciprocal habs he]
    decide
  · obtain rfl | rfl | rfl := Int.abs_le_one_iff.mp (not_lt.mp habs)
    · exact absurd rfl hb
    · rw [Int.cast_one,one_zpow]
      decide +kernel
    · rw [Int.cast_neg,Int.cast_one]
      rcases Int.even_or_odd e with he | he
      · rw [he.neg_one_zpow]
        decide +kernel
      · rw [he.neg_one_zpow]
        decide +kernel

end
end Power

namespace Value
open Power

/-- Operands outside 32 bits are refused, the base first. The result is otherwise the exact power, cut toward
zero and brought into 32 bits; zero to a negative power is the largest number. -/
theorem power_exact (b e : ℤ) :
    (b ∉ Set.Icc (-2 ^ 31) (2 ^ 31 - 1) →
      power (.integer b) (.integer e) = .error (.narrowing b)) ∧
    (b ∈ Set.Icc (-2 ^ 31) (2 ^ 31 - 1) → e ∉ Set.Icc (-2 ^ 31) (2 ^ 31 - 1) →
      power (.integer b) (.integer e) = .error (.narrowing e)) ∧
    (b ∈ Set.Icc (-2 ^ 31) (2 ^ 31 - 1) → e ∈ Set.Icc (-2 ^ 31) (2 ^ 31 - 1) →
      ∃ r, power (.integer b) (.integer e) = .ok (.integer r) ∧
        (0 ≤ e → r = max (-2 ^ 31) (min (b ^ e.toNat) (2 ^ 31 - 1))) ∧
        (b = 0 → e < 0 → r = 2 ^ 31 - 1) ∧
        (b ≠ 0 → e < 0 → r = truncate ((b : ℚ) ^ e)) ∧
        (1 < |b| → e < 0 → r = 0)) := by
  simp only [power,Bool.not_eq_true',← Bool.not_eq_true,fitsInt32_iff_mem]
  refine ⟨fun hb => if_pos hb,fun hb he => ?_,fun hb he => ?_⟩
  · rw [if_neg (not_not_intro hb),if_pos he]
  · rw [if_neg (not_not_intro hb),if_neg (not_not_intro he)]
    refine ⟨toInt32 b e,rfl,toInt32_nonneg b,?_,toInt32_neg,fun hb he => ?_⟩
    · rintro rfl he
      exact toInt32_zero_neg he
    · have hne : b ≠ 0 := by
        rintro rfl
        simp at hb
      rw [toInt32_neg hne he,truncate_reciprocal hb he]

theorem power_exact_at_bounds :
    power (.integer (2 ^ 31)) (.integer (2 ^ 32)) = .error (.narrowing (2 ^ 31)) ∧
    power (.integer 2) (.integer (2 ^ 32)) = .error (.narrowing (2 ^ 32)) ∧
    power (.integer 0) (.integer 0) = .ok (.integer 1) ∧
    power (.integer 2) (.integer 31) = .ok (.integer (2 ^ 31 - 1)) ∧
    power (.integer (-2)) (.integer 31) = .ok (.integer (-2 ^ 31)) ∧
    power (.integer 0) (.integer (-2 ^ 31)) = .ok (.integer (2 ^ 31 - 1)) ∧
    power (.integer (-1)) (.integer (-3)) = .ok (.integer (-1)) ∧
    power (.integer 7) (.integer (-2 ^ 31)) = .ok (.integer 0) := by
  refine ⟨(power_exact _ _).1 (by norm_num),(power_exact _ _).2.1 (by norm_num) (by norm_num),
    ?_,?_,?_,?_,?_,?_⟩
  · obtain ⟨r,hr,h,_⟩ := (power_exact 0 0).2.2 (by norm_num) (by norm_num)
    rw [hr,h (by decide)]
    rfl
  · obtain ⟨r,hr,h,_⟩ := (power_exact 2 31).2.2 (by norm_num) (by norm_num)
    rw [hr,h (by decide)]
    rfl
  · obtain ⟨r,hr,h,_⟩ := (power_exact (-2) 31).2.2 (by norm_num) (by norm_num)
    rw [hr,h (by decide)]
    rfl
  · obtain ⟨r,hr,_,h,_⟩ := (power_exact 0 (-2 ^ 31)).2.2 (by norm_num) (by norm_num)
    rw [hr,h rfl (by norm_num)]
  · obtain ⟨r,hr,_,_,h,_⟩ := (power_exact (-1) (-3)).2.2 (by norm_num) (by norm_num)
    rw [hr,h (by decide) (by decide)]
    norm_num [truncate]
  · obtain ⟨r,hr,_,_,_,h⟩ := (power_exact 7 (-2 ^ 31)).2.2 (by norm_num) (by norm_num)
    rw [hr,h (by decide) (by norm_num)]

end Value
end BlockScript
