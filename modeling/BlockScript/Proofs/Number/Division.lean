import BlockScript.Proofs.Number.Compare
import BlockScript.Proofs.Number.Rounding
import BlockScript.Value.Operation
/-! The quotient of two decimals as a rational number, and what is left of it at the dividend's scale. It is
rounded twice: by the next digit to a hundred digits, and half to even to the scale. -/
namespace BlockScript
namespace Decimal
open Round (tenTo byNextDigit halfEven)

/-- The number that is written. -/
def toRat (d : Decimal) : ℚ := d.unscaled * 10 ^ (-d.scale)

section
variable {d : Decimal} {s : ℤ}

lemma cast_tenTo (k : ℕ) : (tenTo k : ℚ) = 10 ^ k := by
  rw [tenTo,Nat.pow_eq,Nat.cast_pow,Nat.cast_ofNat]

lemma toRat_mul_pow (d : Decimal) (s : ℤ) : d.toRat * 10 ^ s = d.unscaled * 10 ^ (s - d.scale) := by
  rw [toRat,mul_assoc,← zpow_add₀ (by norm_num),neg_add_eq_sub]

lemma cast_unscaledAt (h : d.scale ≤ s) : (d.unscaledAt s : ℚ) = d.toRat * 10 ^ s := by
  have hs : ((s - d.scale).toNat : ℤ) = s - d.scale := Int.toNat_of_nonneg (by omega)
  rw [unscaledAt_eq,toRat_mul_pow,Int.cast_mul,Int.cast_natCast,cast_tenTo,← hs,zpow_natCast,hs]

lemma toRat_of_isUnit (h : d.isUnit = true) : d.toRat = 1 := by
  simp only [isUnit,Bool.and_eq_true,decide_eq_true_eq,beq_iff_eq] at h
  obtain ⟨⟨hs,_⟩,hu⟩ := h
  have hn : (d.scale.toNat : ℤ) = d.scale := Int.toNat_of_nonneg hs
  rw [toRat,hu,Int.cast_natCast,cast_tenTo,← zpow_natCast,hn,← zpow_add₀ (by norm_num),add_neg_cancel,
    zpow_zero]

/-! ### To a scale -/

lemma lt_tenTo_digitCount (n : ℕ) : n < tenTo (digitCount n) := by
  rcases eq_or_ne n 0 with rfl | hn
  · exact tenTo_pos _
  · have := (lt_digitCount_iff hn (k := digitCount n)).not
    omega

lemma isHalfEven_sign (u : ℤ) {den : ℕ} (hden : 0 < den) :
    IsHalfEven (u / den) (u.sign * halfEven u.natAbs den) := by
  have hu := Round.isHalfEven_halfEven u.natAbs hden
  rcases lt_trichotomy u 0 with h | h | h
  · have hcast : (u : ℚ) / den = -(u.natAbs / den) := by
      rw [Nat.cast_natAbs,abs_of_neg h,Int.cast_neg,neg_div,neg_neg]
    rw [Int.sign_eq_neg_one_of_neg h,neg_one_mul,hcast]
    exact hu.neg
  · rw [h,Int.sign_zero,Int.zero_mul,Int.cast_zero,zero_div]
    exact IsHalfEven.of_eq Int.cast_zero.symm
  · have hcast : (u : ℚ) / den = u.natAbs / den := by
      rw [Nat.cast_natAbs,abs_of_pos h]
    rw [Int.sign_eq_one_of_pos h,one_mul,hcast]
    exact hu

@[simp] lemma roundTo_scale (d : Decimal) (s : ℤ) : (d.roundTo s).scale = s := by
  unfold roundTo
  dsimp only
  split
  · rfl
  · split <;> rfl

/-- A decimal is rounded to a scale half to even. -/
theorem isHalfEven_roundTo (d : Decimal) (s : ℤ) :
    IsHalfEven (d.toRat * 10 ^ s) (d.roundTo s).unscaled := by
  unfold roundTo
  dsimp only
  split
  · next h => exact IsHalfEven.of_eq (cast_unscaledAt h).symm
  · next h =>
    have hs : s - d.scale = -((d.scale - s).toNat : ℤ) := by
      omega
    have hd : d.toRat * 10 ^ s = d.unscaled / tenTo (d.scale - s).toNat := by
      rw [toRat_mul_pow,hs,zpow_neg,zpow_natCast,cast_tenTo,div_eq_mul_inv]
    rw [hd]
    generalize (d.scale - s).toNat = dropped at *
    split
    · next hlt =>
      -- with fewer digits than are dropped, the number is less than a tenth
      have hsmall : 10 * d.unscaled.natAbs < tenTo dropped := by
        obtain ⟨k,rfl⟩ := Nat.exists_eq_add_of_lt hlt
        have hu := lt_tenTo_digitCount d.unscaled.natAbs
        have hk := tenTo_le_tenTo (Nat.le_add_right (digitCount d.unscaled.natAbs) k)
        rw [tenTo_add _ 1]
        change _ < _ * 10
        omega
      have hpos : (0 : ℚ) < tenTo dropped := by
        exact_mod_cast tenTo_pos dropped
      have habs : |(d.unscaled : ℚ) / tenTo dropped| < 1 / 10 := by
        rw [abs_div,abs_of_pos hpos,div_lt_iff₀ hpos,← Int.cast_abs,← Nat.cast_natAbs]
        have : (10 * d.unscaled.natAbs : ℚ) < tenTo dropped := by
          exact_mod_cast hsmall
        linarith
      constructor
      · rw [Int.cast_zero,sub_zero]
        linarith
      · rw [Int.cast_zero,sub_zero]
        intro ht
        linarith
    · exact isHalfEven_sign d.unscaled (tenTo_pos dropped)

lemma roundTo_self (d : Decimal) : d.roundTo d.scale = d := by
  rw [roundTo,if_pos (Int.le_refl _),extendTo,unscaledAt_scale]

end

/-! ### A hundred digits -/

section
variable {num den : ℕ}

lemma le_leadingShift (hnum : num ≠ 0) (hden : den ≠ 0) : den ≤ num * tenTo (leadingShift num den) := by
  unfold leadingShift
  dsimp only
  split
  · apply Nat.le_of_lt
    apply lt_of_digitCount_lt hden (Nat.mul_ne_zero hnum (tenTo_pos _).ne')
    rw [digitCount_mul_tenTo hnum]
    omega
  · next h => exact Nat.le_of_not_lt h

/-- The whole quotient has a hundred digits. -/
lemma le_quotientShift (hnum : num ≠ 0) (hden : den ≠ 0) :
    tenTo 99 ≤ num * tenTo (quotientShift num den) / den := by
  have hle := le_leadingShift hnum hden
  unfold quotientShift
  dsimp only
  generalize leadingShift num den = shift at *
  have hq : num * tenTo shift / den ≠ 0 := (Nat.div_pos hle (Nat.pos_of_ne_zero hden)).ne'
  generalize hmore : quotientDigits - digitCount (num * tenTo shift / den) = more
  have hdigits : 99 < digitCount (num * tenTo shift / den * tenTo more) := by
    rw [digitCount_mul_tenTo hq,← hmore]
    unfold quotientDigits
    omega
  rw [lt_digitCount_iff (Nat.mul_ne_zero hq (tenTo_pos _).ne')] at hdigits
  calc tenTo 99 ≤ num * tenTo shift / den * tenTo more := hdigits
    _ ≤ num * tenTo shift * tenTo more / den := by
      rw [Nat.le_div_iff_mul_le (Nat.pos_of_ne_zero hden),Nat.mul_right_comm]
      exact Nat.mul_le_mul_right _ (Nat.div_mul_le_self ..)
    _ = num * tenTo (shift + more) / den := by rw [tenTo_add,Nat.mul_assoc]

end

/-- A long division: the quotient of two whole numbers, of a hundred digits at least, with a sign and a
scale. -/
structure Long where
  sign : ℤ
  num : ℕ
  den : ℕ
  scale : ℤ
  sign_eq : sign = 1 ∨ sign = -1
  den_pos : 0 < den
  long : tenTo 99 ≤ num / den

namespace Long
variable (l : Long)

/-- The exact quotient. -/
def exact : ℚ := l.sign * (l.num / l.den) * 10 ^ (-l.scale)

/-- The quotient rounded by the next digit. -/
def cut : Decimal := ⟨l.sign * byNextDigit l.num l.den,l.scale⟩

lemma le_quot : (10 : ℚ) ^ 99 ≤ l.num / l.den := by
  have hd : (0 : ℚ) < l.den := by
    exact_mod_cast l.den_pos
  have hmul := (Nat.le_div_iff_mul_le l.den_pos).mp l.long
  rw [← cast_tenTo,le_div_iff₀ hd]
  exact_mod_cast hmul

lemma abs_exact : |l.exact| = l.num / l.den * 10 ^ (-l.scale) := by
  have hs : |(l.sign : ℚ)| = 1 := by
    rcases l.sign_eq with h | h <;> simp [h]
  rw [exact,abs_mul,abs_mul,hs,one_mul,abs_of_nonneg (by positivity),abs_of_nonneg (by positivity)]

/-- A quotient of no more than a hundred digits is left as it is. -/
lemma toRat_cut {n k : ℤ} (hn : |n| < 10 ^ 100) (h : l.exact = n * 10 ^ k) : l.cut.toRat = l.exact := by
  have hd : (0 : ℚ) < l.den := by
    exact_mod_cast l.den_pos
  have hquot : (l.num : ℚ) / l.den = n.natAbs * 10 ^ (k + l.scale) := by
    have habs := l.abs_exact
    rw [h,abs_mul,abs_of_nonneg (by positivity : (0 : ℚ) ≤ 10 ^ k),zpow_neg,← Int.cast_abs,
      ← Nat.cast_natAbs] at habs
    rw [zpow_add₀ (by norm_num),← mul_assoc,habs,mul_assoc,inv_mul_cancel₀ (by positivity),mul_one]
  have hk : 0 ≤ k + l.scale := by
    by_contra hneg
    have hpow : (10 : ℚ) ^ (k + l.scale) ≤ 10 ^ (-1 : ℤ) :=
      zpow_le_zpow_right₀ (by norm_num) (by omega)
    rw [Int.abs_eq_natAbs] at hn
    have hn' : (n.natAbs : ℚ) < 10 ^ 100 := by
      exact_mod_cast (by omega : n.natAbs < 10 ^ 100)
    have hlt : (l.num : ℚ) / l.den < 10 ^ 99 :=
      calc (l.num : ℚ) / l.den = n.natAbs * 10 ^ (k + l.scale) := hquot
        _ ≤ n.natAbs * 10 ^ (-1 : ℤ) := by gcongr
        _ < 10 ^ 100 * 10 ^ (-1 : ℤ) := by gcongr
        _ = 10 ^ 99 := by norm_num
    exact absurd l.le_quot (not_le.mpr hlt)
  have hdvd : l.den ∣ l.num := by
    refine ⟨n.natAbs * tenTo (k + l.scale).toNat,?_⟩
    have hkn : ((k + l.scale).toNat : ℤ) = k + l.scale := Int.toNat_of_nonneg hk
    rw [← hkn,zpow_natCast,← cast_tenTo,div_eq_iff hd.ne'] at hquot
    rw [Nat.mul_comm]
    exact_mod_cast hquot
  rcases Round.byNextDigit_cases l.num l.den with hb | ⟨_,hndvd⟩
  · rw [toRat,cut,exact,hb,Int.cast_mul,Int.cast_natCast,Nat.cast_div hdvd hd.ne']
  · exact absurd hdvd hndvd

/-- Above the last of the hundred digits, the rounded quotient passes no place's multiple. -/
lemma hugs_cut {s : ℤ} (h : |l.exact| * 10 ^ s < 10 ^ 99) :
    Hugs (l.exact * 10 ^ s) (l.cut.toRat * 10 ^ s) := by
  have hs : s - l.scale < 0 := by
    by_contra hge
    have hone : (1 : ℚ) ≤ 10 ^ (s - l.scale) := one_le_zpow₀ (by norm_num) (by omega)
    rw [abs_exact,mul_assoc,← zpow_add₀ (by norm_num),neg_add_eq_sub] at h
    have hpos : (0 : ℚ) ≤ l.num / l.den := by positivity
    have := le_mul_of_one_le_right hpos hone
    linarith [l.le_quot]
  have hpow : (10 : ℚ) ^ (s - l.scale) = (tenTo (l.scale - s).toNat : ℚ)⁻¹ := by
    have hn : s - l.scale = -((l.scale - s).toNat : ℤ) := by
      omega
    rw [hn,zpow_neg,zpow_natCast,cast_tenTo]
  have hexact : l.exact * 10 ^ s = l.sign * (l.num / l.den / tenTo (l.scale - s).toNat) := by
    rw [exact,mul_assoc,← zpow_add₀ (by norm_num),neg_add_eq_sub,hpow,mul_assoc,← div_eq_mul_inv]
  have hcut : l.cut.toRat * 10 ^ s =
      l.sign * (byNextDigit l.num l.den / tenTo (l.scale - s).toNat) := by
    rw [toRat_mul_pow,cut,Int.cast_mul,Int.cast_natCast,hpow,mul_assoc,← div_eq_mul_inv]
  have hhugs := Round.hugs_byNextDigit l.num l.den_pos (tenTo_pos (l.scale - s).toNat)
  rw [hexact,hcut]
  rcases l.sign_eq with hsign | hsign
  · rw [hsign,Int.cast_one,one_mul,one_mul]
    exact hhugs
  · rw [hsign,Int.cast_neg,Int.cast_one,neg_one_mul,neg_one_mul]
    exact hhugs.neg

end Long

section
variable {a b : Decimal}

lemma cast_eq_sign (u : ℤ) : (u : ℚ) = u.sign * u.natAbs := by
  rw [← Int.cast_natCast,← Int.cast_mul,Int.sign_mul_natAbs]

/-- The digits of a quotient are those of the unscaled integers' quotient. -/
lemma toRat_div (hb : b.unscaled ≠ 0) (shift : ℕ) : a.toRat / b.toRat =
    (a.unscaled.sign * b.unscaled.sign : ℤ) * ((a.unscaled.natAbs * tenTo shift : ℕ) / b.unscaled.natAbs) *
      10 ^ (-(a.scale - b.scale + shift)) := by
  have hb' : (b.unscaled.natAbs : ℚ) ≠ 0 := by
    exact_mod_cast Int.natAbs_ne_zero.mpr hb
  have hten : (tenTo shift : ℚ) ≠ 0 := by
    exact_mod_cast (tenTo_pos shift).ne'
  have hpow : (10 : ℚ) ^ (-(a.scale - b.scale + shift)) =
      10 ^ (-a.scale) / 10 ^ (-b.scale) / tenTo shift := by
    rw [cast_tenTo,← zpow_natCast,← zpow_sub₀ (by norm_num),← zpow_sub₀ (by norm_num)]
    congr 1
    ring
  rw [hpow,toRat,toRat,cast_eq_sign a.unscaled,cast_eq_sign b.unscaled,Int.cast_mul,Nat.cast_mul]
  rcases Int.lt_or_gt_of_ne hb with h | h
  · rw [Int.sign_eq_neg_one_of_neg h,Int.cast_neg,Int.cast_one]
    field_simp
  · rw [Int.sign_eq_one_of_pos h,Int.cast_one]
    field_simp

/-- Nonzero decimals that no shortcut is taken for are divided by a long division. -/
lemma exists_long (ha : a.unscaled ≠ 0) (hb : b.unscaled ≠ 0) :
    ∃ l : Long, l.exact = a.toRat / b.toRat ∧ l.cut = a.quotient b := by
  have hsign : a.unscaled.sign * b.unscaled.sign = 1 ∨ a.unscaled.sign * b.unscaled.sign = -1 := by
    rw [← Int.sign_mul]
    rcases Int.lt_or_gt_of_ne (Int.mul_ne_zero ha hb) with h | h
    · exact .inr (Int.sign_eq_neg_one_of_neg h)
    · exact .inl (Int.sign_eq_one_of_pos h)
  have hna := Int.natAbs_ne_zero.mpr ha
  have hnb := Int.natAbs_ne_zero.mpr hb
  refine ⟨⟨_,_,_,_,hsign,Nat.pos_of_ne_zero hnb,le_quotientShift hna hnb⟩,?_,rfl⟩
  exact (toRat_div hb _).symm

/-- Every quotient is rounded to the dividend's scale, from itself or from a long division. -/
lemma div_eq_roundTo (a b : Decimal) (hb : b.unscaled ≠ 0) : ∃ p : Decimal, a.div b = p.roundTo a.scale ∧
    (p.toRat = a.toRat / b.toRat ∨ ∃ l : Long, l.exact = a.toRat / b.toRat ∧ l.cut = p) := by
  unfold div
  split
  · next h =>
    refine ⟨a,a.roundTo_self.symm,.inl ?_⟩
    rw [Bool.or_eq_true,isZero,beq_iff_eq] at h
    rcases h with h | h
    · rw [toRat,h,Int.cast_zero,zero_mul,zero_div]
    · rw [toRat_of_isUnit h,div_one]
  · next h =>
    have ha : a.unscaled ≠ 0 := by
      intro ha
      simp [isZero,ha] at h
    split
    · next he =>
      refine ⟨_,rfl,.inl ?_⟩
      have hb' : (b.unscaled : ℚ) ≠ 0 := by
        exact_mod_cast hb
      rw [toRat,toRat,toRat,he,mul_div_mul_left _ _ hb',← zpow_sub₀ (by norm_num),Int.cast_one,one_mul]
      congr 1
      ring
    · exact ⟨_,rfl,.inr (exists_long ha hb)⟩

end
end Decimal

/-- Division by a nonzero decimal gives a decimal of the dividend's scale. It is the quotient rounded half
to even, if the quotient has a hundred digits at most; and if it has fewer than a hundred up to the last
place, the result is next to it. -/
theorem Value.divide_rounds (a b : Decimal) (hb : b.toRat ≠ 0) :
    ∃ d : Decimal, divide (.decimal a) (.decimal b) = .ok (.decimal d) ∧ d.scale = a.scale ∧
      ((∃ n k : ℤ, |n| < 10 ^ 100 ∧ a.toRat / b.toRat = n * 10 ^ k) →
        IsHalfEven (a.toRat / b.toRat * 10 ^ a.scale) d.unscaled) ∧
      (|a.toRat / b.toRat| * 10 ^ a.scale < 10 ^ 99 →
        d.unscaled = ⌊a.toRat / b.toRat * 10 ^ a.scale⌋ ∨
        d.unscaled = ⌈a.toRat / b.toRat * 10 ^ a.scale⌉) := by
  have hu : b.unscaled ≠ 0 := by
    intro hz
    rw [Decimal.toRat,hz,Int.cast_zero,zero_mul] at hb
    exact hb rfl
  obtain ⟨p,hdiv,hp⟩ := a.div_eq_roundTo b hu
  have hround := p.isHalfEven_roundTo a.scale
  refine ⟨a.div b,?_,?_,?_,?_⟩
  · have hz : b.isZero = false := beq_false_of_ne hu
    simp [divide,hz]
  · rw [hdiv,Decimal.roundTo_scale]
  · intro ⟨n,k,hn,hq⟩
    rw [hdiv]
    rcases hp with hp | ⟨l,hl,rfl⟩
    · rwa [← hp]
    · rwa [← hl,← l.toRat_cut hn (hl.trans hq)]
  · intro hlt
    rw [hdiv]
    rcases hp with hp | ⟨l,hl,rfl⟩
    · rw [hp] at hround
      exact (Hugs.refl _).floor_or_ceil hround
    · rw [← hl] at hlt ⊢
      exact (l.hugs_cut hlt).floor_or_ceil hround

/-- The quotient of 2.5 and 2 is a tie at one digit. -/
theorem Value.divide_rounds_tie : Decimal.toRat ⟨2,0⟩ ≠ 0 ∧
    divide (.decimal ⟨25,1⟩) (.decimal ⟨2,0⟩) = .ok (.decimal ⟨12,1⟩) := by
  have hb : Decimal.toRat ⟨2,0⟩ ≠ 0 := by
    norm_num [Decimal.toRat]
  have hquot : Decimal.toRat ⟨25,1⟩ / Decimal.toRat ⟨2,0⟩ = (125 : ℤ) * 10 ^ (-2 : ℤ) := by
    norm_num [Decimal.toRat]
  refine ⟨hb,?_⟩
  obtain ⟨⟨u,s⟩,hd,hs,hround,_⟩ := divide_rounds ⟨25,1⟩ ⟨2,0⟩ hb
  have hu := hround ⟨125,-2,by decide,hquot⟩
  have htie : IsHalfEven (Decimal.toRat ⟨25,1⟩ / Decimal.toRat ⟨2,0⟩ * 10 ^ (1 : ℤ)) 12 := by
    rw [hquot]
    constructor
    · norm_num [abs_le]
    · exact fun _ => by decide
  have hue : u = 12 := hu.unique htie
  subst hue hs
  exact hd

end BlockScript
