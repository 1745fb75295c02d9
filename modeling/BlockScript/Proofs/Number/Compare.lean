import BlockScript.Number.Decimal
import Mathlib.Algebra.Order.Ring.Int
import Mathlib.Order.Basic
/-! Decimals are compared as the numbers they write: counting digits first tells nothing apart that is
equal, and orders the others rightly. -/
namespace BlockScript.Decimal
open Round (tenTo twoTo)

/-! ### Digits -/

lemma tenTo_pos (k : Nat) : 0 < tenTo k := Nat.pow_pos (by decide)

lemma tenTo_add (j k : Nat) : tenTo (j + k) = tenTo j * tenTo k := Nat.pow_add 10 j k

lemma tenTo_le_tenTo {j k : Nat} (h : j ≤ k) : tenTo j ≤ tenTo k := Nat.pow_le_pow_right (by decide) h

lemma lt_of_tenTo_lt {j k : Nat} (h : tenTo j < tenTo k) : j < k :=
  Nat.lt_of_not_le fun hk => Nat.not_lt.mpr (tenTo_le_tenTo hk) h

section
variable {m n j k : Nat}

/-- The count ends at the digits of the number, if it starts at no more than these. -/
lemma lt_countFrom_iff (h : ∀ j < k, tenTo j ≤ n) : j < countFrom n k ↔ tenTo j ≤ n := by
  fun_induction countFrom n k with
  | case1 k hk => exact ⟨h j,fun hj => lt_of_tenTo_lt (Nat.lt_of_le_of_lt hj hk)⟩
  | case2 k hk ih =>
    refine ih fun i hi => ?_
    rcases Nat.lt_succ_iff_lt_or_eq.mp hi with hi | rfl
    · exact h i hi
    · exact Nat.le_of_not_lt hk

/-- A bound between powers of ten and of two passes to their powers. -/
lemma ten_pow_le_two_pow {p q l : Nat} (hq : q ≠ 0) (h : 10 ^ p ≤ 2 ^ q) (hj : j * q ≤ l * p) :
    10 ^ j ≤ 2 ^ l := by
  have hpow : (10 ^ j) ^ q ≤ (2 ^ l) ^ q :=
    calc (10 ^ j) ^ q = 10 ^ (j * q) := (Nat.pow_mul ..).symm
      _ ≤ 10 ^ (l * p) := Nat.pow_le_pow_right (by decide) hj
      _ = (10 ^ p) ^ l := by rw [Nat.mul_comm,Nat.pow_mul]
      _ ≤ (2 ^ q) ^ l := Nat.pow_le_pow_left h l
      _ = (2 ^ l) ^ q := by rw [← Nat.pow_mul,Nat.mul_comm,Nat.pow_mul]
  exact (Nat.pow_le_pow_iff_left hq).mp hpow

/-- The first estimate, by the binary digits, is no more than the digits are. -/
lemma tenTo_le_of_lt_estimate (hn : n ≠ 0) (hj : j < Nat.log2 n * 643 / 2136 + 1) : tenTo j ≤ n := by
  have hmul : j * 2136 ≤ Nat.log2 n * 643 :=
    (Nat.le_div_iff_mul_le (by decide)).mp (Nat.le_of_lt_succ hj)
  have hten : 10 ^ 643 ≤ 2 ^ 2136 := by decide +kernel
  exact Nat.le_trans (ten_pow_le_two_pow (by decide) hten hmul) (Nat.log2_self_le hn)

/-- A positive number has more than `k` digits if it is `10 ^ k` or more. -/
theorem lt_digitCount_iff (hn : n ≠ 0) : k < digitCount n ↔ tenTo k ≤ n :=
  lt_countFrom_iff fun _ hj => tenTo_le_of_lt_estimate hn hj

lemma digitCount_mul_tenTo (hn : n ≠ 0) : digitCount (n * tenTo k) = digitCount n + k := by
  have hne : n * tenTo k ≠ 0 := Nat.mul_ne_zero hn (tenTo_pos k).ne'
  refine eq_of_forall_lt_iff fun j => ?_
  rw [lt_digitCount_iff hne]
  by_cases hj : k ≤ j
  · obtain ⟨i,rfl⟩ := Nat.exists_eq_add_of_le' hj
    rw [tenTo_add,Nat.mul_le_mul_right_iff (tenTo_pos k),← lt_digitCount_iff hn]
    omega
  · have hle : tenTo j ≤ n * tenTo k :=
      Nat.le_trans (tenTo_le_tenTo (by omega)) (Nat.le_mul_of_pos_left _ (Nat.pos_of_ne_zero hn))
    exact ⟨fun _ => by omega,fun _ => hle⟩

lemma lt_of_digitCount_lt (hm : m ≠ 0) (hn : n ≠ 0) (h : digitCount m < digitCount n) : m < n := by
  have hle : tenTo (digitCount m) ≤ n := (lt_digitCount_iff hn).mp h
  refine Nat.lt_of_lt_of_le (Nat.lt_of_not_le fun hm' => ?_) hle
  exact Nat.lt_irrefl _ ((lt_digitCount_iff hm).mpr hm')

end

/-! ### Numbers at a common scale -/

section
variable {a b d : Decimal} {s t : Int}

lemma unscaledAt_eq (d : Decimal) (s : Int) :
    d.unscaledAt s = d.unscaled * tenTo (s - d.scale).toNat := by
  unfold unscaledAt
  split
  · next h => rw [h,Int.zero_mul]
  · rfl

lemma sign_unscaledAt (d : Decimal) (s : Int) : (d.unscaledAt s).sign = d.unscaled.sign := by
  rw [unscaledAt_eq,Int.sign_mul,Int.sign_natCast_of_ne_zero (tenTo_pos _).ne',Int.mul_one]

lemma unscaledAt_trans (h : d.scale ≤ s) (hst : s ≤ t) :
    d.unscaledAt t = d.unscaledAt s * tenTo (t - s).toNat := by
  have he : (t - d.scale).toNat = (s - d.scale).toNat + (t - s).toNat := by
    omega
  rw [unscaledAt_eq,unscaledAt_eq,he,tenTo_add,Int.natCast_mul,Int.mul_assoc]

/-- Digits are moved by a scale, so the place of the first one is seen at every scale. -/
lemma magnitude_eq (hd : d.unscaled ≠ 0) (h : d.scale ≤ s) :
    d.magnitude = digitCount (d.unscaledAt s).natAbs - s := by
  rw [unscaledAt_eq,Int.natAbs_mul,Int.natAbs_natCast,digitCount_mul_tenTo (Int.natAbs_ne_zero.mpr hd),
    magnitude]
  omega

lemma natAbs_lt_of_magnitude_lt (ha : a.unscaled ≠ 0) (hb : b.unscaled ≠ 0) (has : a.scale ≤ s)
    (hbs : b.scale ≤ s) (h : a.magnitude < b.magnitude) :
    (a.unscaledAt s).natAbs < (b.unscaledAt s).natAbs := by
  have hne {d : Decimal} (hd : d.unscaled ≠ 0) : (d.unscaledAt s).natAbs ≠ 0 := by
    rwa [Int.natAbs_ne_zero,ne_eq,← Int.sign_eq_zero_iff_zero,sign_unscaledAt,Int.sign_eq_zero_iff_zero]
  rw [magnitude_eq ha has,magnitude_eq hb hbs] at h
  exact lt_of_digitCount_lt (hne ha) (hne hb) (by omega)

end

section
variable {x y c : Int}

lemma lt_of_sign_lt (h : x.sign < y.sign) : x < y := by
  by_contra hle
  have hx := Int.sign_trichotomy x
  have hy := Int.sign_trichotomy y
  have := @Int.sign_eq_one_iff_pos x
  have := @Int.sign_eq_one_iff_pos y
  have := @Int.sign_eq_neg_one_iff_neg x
  have := @Int.sign_eq_neg_one_iff_neg y
  omega

lemma compare_mul_right (hc : 0 < c) : Ord.compare (x * c) (y * c) = Ord.compare x y := by
  cases h : Ord.compare x y with
  | lt => exact Int.compare_eq_lt.mpr ((Int.mul_lt_mul_right hc).mpr (Int.compare_eq_lt.mp h))
  | eq => rw [Int.compare_eq_eq.mp h,Int.compare_eq_eq]
  | gt => exact Int.compare_eq_gt.mpr ((Int.mul_lt_mul_right hc).mpr (Int.compare_eq_gt.mp h))

end

/-- At every scale that both can be written with, the unscaled integers are ordered as the decimals. -/
theorem compare_eq {a b : Decimal} {s : Int} (ha : a.scale ≤ s) (hb : b.scale ≤ s) :
    a.compare b = Ord.compare (a.unscaledAt s) (b.unscaledAt s) := by
  have hsa := a.sign_unscaledAt s
  have hsb := b.sign_unscaledAt s
  unfold compare
  split
  · next hsign =>
    rw [← hsa,← hsb] at hsign ⊢
    rcases Int.lt_or_gt_of_ne hsign with h | h
    · rw [Int.compare_eq_lt.mpr h,Int.compare_eq_lt.mpr (lt_of_sign_lt h)]
    · rw [Int.compare_eq_gt.mpr h,Int.compare_eq_gt.mpr (lt_of_sign_lt h)]
  · next hsign =>
    rw [not_not] at hsign
    split
    · next hz =>
      have hbz : b.unscaled = 0 := by
        rwa [hz,Int.sign_zero,eq_comm,Int.sign_eq_zero_iff_zero] at hsign
      rw [unscaledAt,if_pos hz,unscaledAt,if_pos hbz]
      rfl
    · next hz =>
      have hbz : b.unscaled ≠ 0 := by
        rwa [ne_eq,← Int.sign_eq_zero_iff_zero,← hsign,Int.sign_eq_zero_iff_zero]
      split
      · have hmax : max a.scale b.scale ≤ s := max_le ha hb
        rw [unscaledAt_trans (le_max_left ..) hmax,unscaledAt_trans (le_max_right ..) hmax,
          compare_mul_right (Int.natCast_pos.mpr (tenTo_pos _))]
      · next hm =>
        have hapos : 0 < a.unscaledAt s ↔ 0 < a.unscaled := by
          rw [← Int.sign_eq_one_iff_pos,hsa,Int.sign_eq_one_iff_pos]
        have hbpos : 0 < b.unscaledAt s ↔ 0 < a.unscaled := by
          rw [← Int.sign_eq_one_iff_pos,hsb,← hsign,Int.sign_eq_one_iff_pos]
        rcases Int.lt_or_gt_of_ne hm with h | h
        · have hlt := natAbs_lt_of_magnitude_lt hz hbz ha hb h
          split
          · rw [Int.compare_eq_lt.mpr h,eq_comm,Int.compare_eq_lt]
            omega
          · rw [Int.compare_eq_gt.mpr h,eq_comm,Int.compare_eq_gt]
            omega
        · have hlt := natAbs_lt_of_magnitude_lt hbz hz hb ha h
          split
          · rw [Int.compare_eq_gt.mpr h,eq_comm,Int.compare_eq_gt]
            omega
          · rw [Int.compare_eq_lt.mpr h,eq_comm,Int.compare_eq_lt]
            omega

/-- Decimals are equal as the unscaled integers at a common scale are. -/
theorem equal_iff {a b : Decimal} {s : Int} (ha : a.scale ≤ s) (hb : b.scale ≤ s) :
    a.equal b = true ↔ a.unscaledAt s = b.unscaledAt s := by
  rw [equal,compare_eq ha hb,beq_iff_eq,Int.compare_eq_eq]

/-! ### Zeros at the end -/

/-- The number that `u` is with `k + 1` fraction digits, without zeros at its end but for the first of
these digits. -/
def dropZeros (u : Int) : Nat → Decimal
  | 0 => ⟨u,1⟩
  | k + 1 => if u % 10 = 0 then dropZeros (u / 10) k else ⟨u,k + 2⟩

/-- The same number with as few fraction digits as can be, but with one. -/
def short (d : Decimal) : Decimal :=
  dropZeros (d.unscaledAt (max d.scale 1)) (max d.scale 1 - 1).toNat

structure IsShort (d : Decimal) : Prop where
  scale : 1 ≤ d.scale
  last : d.scale = 1 ∨ d.unscaled % 10 ≠ 0

lemma unscaledAt_scale (d : Decimal) : d.unscaledAt d.scale = d.unscaled := by
  rw [unscaledAt_eq,Int.sub_self]
  exact Int.mul_one d.unscaled

lemma dropZeros_spec (u : Int) (k : Nat) : (dropZeros u k).IsShort ∧ (dropZeros u k).scale ≤ k + 1 ∧
    (dropZeros u k).unscaledAt (k + 1) = u := by
  induction k generalizing u with
  | zero => exact ⟨⟨Int.le_refl 1,.inl rfl⟩,Int.le_refl 1,unscaledAt_scale ⟨u,1⟩⟩
  | succ k ih =>
    rw [dropZeros]
    split
    · next hu =>
      obtain ⟨hs,hle,hv⟩ := ih (u / 10)
      refine ⟨hs,by omega,?_⟩
      have hone : ((k + 1 : Nat) + 1 - (k + 1) : Int).toNat = 1 := by
        omega
      rw [unscaledAt_trans hle (by omega),hone,hv]
      exact Int.ediv_mul_cancel (Int.dvd_of_emod_eq_zero hu)
    · next hu =>
      have hscale : (Decimal.mk u (k + 2)).scale = k + 2 := rfl
      exact ⟨⟨by omega,.inr hu⟩,by omega,unscaledAt_scale ⟨u,k + 2⟩⟩

lemma isShort_short (d : Decimal) : d.short.IsShort := (dropZeros_spec _ _).1

lemma short_unscaledAt {d : Decimal} {s : Int} (h : max d.scale 1 ≤ s) :
    d.short.scale ≤ s ∧ d.short.unscaledAt s = d.unscaledAt s := by
  obtain ⟨_,hle,hv⟩ := dropZeros_spec (d.unscaledAt (max d.scale 1)) (max d.scale 1 - 1).toNat
  have hk : ((max d.scale 1 - 1).toNat + 1 : Int) = max d.scale 1 := by
    omega
  rw [hk] at hle hv
  refine ⟨Int.le_trans hle h,?_⟩
  rw [short,unscaledAt_trans hle h,unscaledAt_trans (le_max_left ..) h,hv]

/-- A number has one short spelling. -/
lemma IsShort.unique {a b : Decimal} {s : Int} (ha : a.IsShort) (hb : b.IsShort) (has : a.scale ≤ s)
    (hbs : b.scale ≤ s) (h : a.unscaledAt s = b.unscaledAt s) : a = b := by
  wlog hle : a.scale ≤ b.scale
  · exact (this hb ha hbs has h.symm (Int.le_of_not_le hle)).symm
  have hb' : a.unscaledAt b.scale = b.unscaled := by
    rw [unscaledAt_trans hle hbs,unscaledAt_trans (Int.le_refl _) hbs] at h
    have hpos : (0 : Int) < tenTo (s - b.scale).toNat := Int.natCast_pos.mpr (tenTo_pos _)
    exact (Int.eq_of_mul_eq_mul_right hpos.ne' h).trans b.unscaledAt_scale
  have hscale : a.scale = b.scale := by
    by_contra hne
    obtain ⟨k,hk⟩ : ∃ k, (b.scale - a.scale).toNat = k + 1 := ⟨(b.scale - a.scale).toNat - 1,by omega⟩
    have hmod : b.unscaled % 10 = 0 := by
      rw [← hb',unscaledAt_eq,hk,tenTo_add,Int.natCast_mul,← Int.mul_assoc]
      exact Int.mul_emod_left _ 10
    have := ha.scale
    exact hb.last.elim (fun h1 => by omega) fun hn => hn hmod
  rw [← hscale,unscaledAt_scale] at hb'
  cases a
  cases b
  cases hb'
  cases hscale
  rfl

/-- Decimals are equal if they have the same short spelling. -/
theorem equal_iff_short (a b : Decimal) : a.equal b = true ↔ a.short = b.short := by
  have ha := @short_unscaledAt a (max (max a.scale 1) (max b.scale 1)) (le_max_left ..)
  have hb := @short_unscaledAt b (max (max a.scale 1) (max b.scale 1)) (le_max_right ..)
  rw [equal_iff (s := max (max a.scale 1) (max b.scale 1)) (by omega) (by omega),← ha.2,← hb.2]
  constructor
  · exact a.isShort_short.unique b.isShort_short ha.1 hb.1
  · intro h
    rw [h]

end BlockScript.Decimal
