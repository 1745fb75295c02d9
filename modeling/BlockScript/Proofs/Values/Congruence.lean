import BlockScript.Proofs.Number.Arithmetic
import BlockScript.Proofs.Values.Order
/-! Equal operands can stand for each other. Only a quotient of decimals, which keeps the scale of its
dividend, and the text of a decimal show how a number is written. -/
namespace BlockScript

/-- The operators of numbers. -/
def Operator.isArithmetic : Operator → Bool
  | .add | .subtract | .multiply | .divide | .power => true
  | _ => false

namespace Value

/-- Equal values, or the same error. -/
inductive Agree : Except RunError Value → Except RunError Value → Prop
  | value {v w : Value} (h : Holds .equal v w) : Agree (.ok v) (.ok w)
  | error (e : RunError) : Agree (.error e) (.error e)

section
variable {a a' b b' : Value} {d d' e e' : Decimal} {op : Operator}

lemma Agree.refl (r : Except RunError Value) : Agree r r := by
  cases r with
  | ok v => exact .value (holds_equal_iff.mpr (equal_refl v))
  | error e => exact .error e

lemma Agree.of_eq {r r' : Except RunError Value} (h : r = r') : Agree r r' := h ▸ .refl r

/-- Decimals are equal values if they write the same number, at whatever scales. -/
lemma holds_equal_decimal : Holds .equal (.decimal d) (.decimal d') ↔ d.toRat = d'.toRat := by
  rw [holds_equal_iff,equal,Decimal.equal_iff_toRat]

/-- Only decimals, and lists, can be equal without being the same. -/
lemma eq_of_equal (h : a.equal a' = true) (hd : a.kind ≠ .decimal) (hl : a.kind ≠ .list) : a = a' := by
  have hk := kind_eq_of_equal h
  cases a with
  | decimal => exact absurd rfl hd
  | list => exact absurd rfl hl
  | nil =>
    cases a' <;> cases hk
    rfl
  | boolean | integer | character | string =>
    cases a' <;> cases hk
    simpa [equal] using h

lemma toBoolean_congr (h : a.equal a' = true) : a.toBoolean = a'.toBoolean := by
  have hk := kind_eq_of_equal h
  by_cases hb : a.kind = .boolean
  · rw [eq_of_equal h (by simp [hb]) (by simp [hb])]
  · have hother {v : Value} (hv : v.kind ≠ .boolean) :
        v.toBoolean = .error (.typeMismatch .boolean v.kind) := by
      cases v with
      | boolean => exact absurd rfl hv
      | _ => rfl
    rw [hother hb,hother (hk ▸ hb),hk]

lemma equal_congr (ha : a.equal a' = true) (hb : b.equal b' = true) : a.equal b = a'.equal b' := by
  rw [Bool.eq_iff_iff]
  constructor
  · intro h
    exact equal_trans ((equal_comm a' a).trans ha) (equal_trans h hb)
  · intro h
    exact equal_trans ha (equal_trans h ((equal_comm b' b).trans hb))

/-! ### Numbers -/

/-- An operator of numbers refuses all operands but two numbers of one kind; only a sum can join texts. -/
lemma arithmetic_refused (hop : op.isArithmetic = true)
    (hs : op = .add → a.kind ≠ .string ∧ b.kind ≠ .string)
    (h : ¬(a.kind = b.kind ∧ (a.kind = .integer ∨ a.kind = .decimal))) :
    a.operate op b = .error (.invalidOperands op a.kind b.kind) := by
  cases op with
  | add =>
    change a.add b = _
    unfold add
    split
    · exact absurd rfl (hs rfl).1
    · exact absurd rfl (hs rfl).2
    · exact absurd ⟨rfl,.inl rfl⟩ h
    · exact absurd ⟨rfl,.inr rfl⟩ h
    · rfl
  | subtract | multiply | divide =>
    simp only [operate,subtract,multiply,divide]
    split
    · exact absurd ⟨rfl,.inl rfl⟩ h
    · exact absurd ⟨rfl,.inr rfl⟩ h
    · rfl
  | power =>
    change a.power b = _
    unfold power
    split
    · exact absurd ⟨rfl,.inl rfl⟩ h
    · rfl
  | _ => cases hop

/-- Sums, differences and products are those of the numbers that are written. -/
lemma decimals_agree (hop : op.isArithmetic = true) (hq : op ≠ .divide) (hd : d.toRat = d'.toRat)
    (he : e.toRat = e'.toRat) :
    Agree ((decimal d).operate op (decimal e)) ((decimal d').operate op (decimal e')) := by
  cases op with
  | add =>
    refine .value (holds_equal_decimal.mpr ?_)
    rw [Decimal.toRat_add,Decimal.toRat_add,hd,he]
  | subtract =>
    refine .value (holds_equal_decimal.mpr ?_)
    rw [Decimal.toRat_sub,Decimal.toRat_sub,hd,he]
  | multiply =>
    refine .value (holds_equal_decimal.mpr ?_)
    rw [Decimal.toRat_mul,Decimal.toRat_mul,hd,he]
  | divide => exact absurd rfl hq
  | power => exact .error _
  | _ => cases hop

lemma arithmetic_agree (hop : op.isArithmetic = true) (ha : a.equal a' = true) (hb : b.equal b' = true)
    (hq : ¬(op = .divide ∧ a.kind = .decimal ∧ b.kind = .decimal))
    (hs : ¬(op = .add ∧ (a.kind = .string ∨ b.kind = .string))) :
    Agree (a.operate op b) (a'.operate op b') := by
  have hka := kind_eq_of_equal ha
  have hkb := kind_eq_of_equal hb
  by_cases h : a.kind = b.kind ∧ (a.kind = .integer ∨ a.kind = .decimal)
  · obtain ⟨hk,hi | hd⟩ := h
    · have hkb : b.kind = .integer := hk ▸ hi
      obtain rfl := eq_of_equal ha (by simp [hi]) (by simp [hi])
      obtain rfl := eq_of_equal hb (by simp [hkb]) (by simp [hkb])
      exact .refl _
    · obtain ⟨d,rfl⟩ := kind_eq_decimal.mp hd
      obtain ⟨d',rfl⟩ := kind_eq_decimal.mp hka.symm
      obtain ⟨e,rfl⟩ := kind_eq_decimal.mp hk.symm
      obtain ⟨e',rfl⟩ := kind_eq_decimal.mp hkb.symm
      refine decimals_agree hop (fun h => hq ⟨h,rfl,rfl⟩) ?_ ?_
      · exact holds_equal_decimal.mp (holds_equal_iff.mpr ha)
      · exact holds_equal_decimal.mp (holds_equal_iff.mpr hb)
  · have hs : op = .add → a.kind ≠ .string ∧ b.kind ≠ .string := fun ho =>
      not_or.mp fun h => hs ⟨ho,h⟩
    rw [arithmetic_refused hop hs h,hka,hkb]
    rw [hka,hkb] at hs h
    exact .of_eq (arithmetic_refused hop hs h).symm

end

/-- Equal operands give equal results or the same error, for all operators but the quotient of decimals
and the sum that joins texts. Decimals are equal if they write the same number, whatever their scales, so
no scale shows in an outcome but as another spelling of it. -/
theorem equal_operands_agree :
    (∀ (op : Operator) (a a' b b' : Value), Holds .equal a a' → Holds .equal b b' →
      ¬(op = .divide ∧ a.kind = .decimal ∧ b.kind = .decimal) →
      ¬(op = .add ∧ (a.kind = .string ∨ b.kind = .string)) →
      Agree (a.operate op b) (a'.operate op b')) ∧
    ∀ d d' : Decimal, Holds .equal (.decimal d) (.decimal d') ↔ d.toRat = d'.toRat := by
  refine ⟨fun op a a' b b' ha hb hq hs => ?_,fun d d' => holds_equal_decimal⟩
  rw [holds_equal_iff] at ha hb
  cases op with
  | add | subtract | multiply | divide | power => exact arithmetic_agree rfl ha hb hq hs
  | less | lessEqual | greater | greaterEqual => exact .of_eq (operate_congr rfl ha hb)
  | equal | notEqual =>
    rw [operate,operate,equal_congr ha hb]
    exact .refl _
  | and | or =>
    rw [operate,operate,toBoolean_congr ha,toBoolean_congr hb]
    exact .refl _

/-- A one of 38 fraction digits is left out of a product, one of 39 is not. -/
theorem equal_operands_agree_units :
    let one : Decimal := ⟨10 ^ 38,38⟩
    let other : Decimal := ⟨10 ^ 39,39⟩
    one.isUnit = true ∧ other.isUnit = false ∧ Holds .equal (.decimal one) (.decimal other) ∧
    Holds .equal (.decimal ⟨1000,1⟩) (.decimal ⟨1,-2⟩) ∧
    (decimal one).operate .multiply (.decimal ⟨1000,1⟩) = .ok (.decimal ⟨1,-2⟩) ∧
    (decimal other).operate .multiply (.decimal ⟨1,-2⟩) = .ok (.decimal ⟨10 ^ 39,37⟩) ∧
    Agree (.ok (.decimal ⟨1,-2⟩)) (.ok (.decimal ⟨10 ^ 39,37⟩)) := by
  intro one other
  have hone : Holds .equal (.decimal one) (.decimal other) := holds_equal_iff.mpr (by decide +kernel)
  have hten : Holds .equal (.decimal ⟨1000,1⟩) (.decimal ⟨1,-2⟩) :=
    holds_equal_iff.mpr (by decide +kernel)
  have hleft : one.mul ⟨1000,1⟩ = ⟨1,-2⟩ := by decide +kernel
  have hright : other.mul ⟨1,-2⟩ = ⟨10 ^ 39,37⟩ := by decide +kernel
  have hleft : (decimal one).operate .multiply (.decimal ⟨1000,1⟩) = .ok (.decimal ⟨1,-2⟩) :=
    congrArg (fun d => Except.ok (Value.decimal d)) hleft
  have hright : (decimal other).operate .multiply (.decimal ⟨1,-2⟩) = .ok (.decimal ⟨10 ^ 39,37⟩) :=
    congrArg (fun d => Except.ok (Value.decimal d)) hright
  refine ⟨by decide +kernel,by decide +kernel,hone,hten,hleft,hright,?_⟩
  have hagree := equal_operands_agree.1 .multiply _ _ _ _ hone hten (by simp) (by simp)
  rwa [hleft,hright] at hagree

end Value
end BlockScript
