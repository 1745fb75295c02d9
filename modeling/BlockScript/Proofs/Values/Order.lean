import BlockScript.Proofs.Number.Compare
import BlockScript.Proofs.Soundness.Value
import Mathlib.Data.List.Forall2
/-! Equality of values, and the order of those that have one. Equality goes through lists and forgets the
scales of decimals; the comparison of each ordered kind is a linear order with that equality. -/
namespace BlockScript

/-! ### Decimals -/

namespace Decimal

instance : Std.TransCmp Decimal.compare where
  eq_swap {a b} := by
    rw [compare_eq (le_max_left a.scale b.scale) (le_max_right ..),
      compare_eq (le_max_right a.scale b.scale) (le_max_left ..)]
    exact Std.OrientedCmp.eq_swap
  isLE_trans {a b c} := by
    have ha : a.scale ≤ max a.scale (max b.scale c.scale) := by omega
    have hb : b.scale ≤ max a.scale (max b.scale c.scale) := by omega
    have hc : c.scale ≤ max a.scale (max b.scale c.scale) := by omega
    rw [compare_eq ha hb,compare_eq hb hc,compare_eq ha hc]
    exact Std.TransCmp.isLE_trans

variable {a b c : Decimal}

lemma equal_iff_compare : a.equal b = true ↔ a.compare b = .eq := beq_iff_eq

lemma equal_refl (a : Decimal) : a.equal a = true := equal_iff_compare.mpr Std.ReflCmp.compare_self

lemma equal_comm (a b : Decimal) : a.equal b = b.equal a := by
  rw [Bool.eq_iff_iff,equal_iff_compare,equal_iff_compare]
  exact Std.OrientedCmp.eq_comm

lemma equal_trans (h : a.equal b = true) (h' : b.equal c = true) : a.equal c = true := by
  rw [equal_iff_compare] at h h' ⊢
  exact Std.TransCmp.eq_trans h h'

end Decimal

/-- The orders in which an operator holds. -/
def Operator.admits : Operator → Ordering → Bool
  | .less,o => o.isLT
  | .lessEqual,o => o.isLE
  | .greater,o => o.isGT
  | .greaterEqual,o => o.isGE
  | _,_ => false

namespace Value

/-! ### Equality -/

mutual
theorem equal_refl (a : Value) : a.equal a = true := by
  cases a with
  | list as =>
    simp only [equal]
    exact equalAll_refl as
  | decimal a => exact a.equal_refl
  | _ => simp [equal]

theorem equalAll_refl (as : List Value) : equalAll as as = true := by
  cases as with
  | nil => rfl
  | cons a as => rw [equalAll,equal_refl a,equalAll_refl as,Bool.and_self]
end

mutual
/-- It does not matter which of two values is compared with the other. -/
theorem equal_comm (a b : Value) : a.equal b = b.equal a := by
  cases a with
  | list as =>
    cases b with
    | list bs =>
      simp only [equal]
      exact equalAll_comm as bs
    | _ => simp [equal]
  | decimal a =>
    cases b with
    | decimal b =>
      simp only [equal]
      exact Decimal.equal_comm a b
    | _ => simp [equal]
  | _ => cases b <;> simp [equal,Bool.beq_comm]

theorem equalAll_comm (as bs : List Value) : equalAll as bs = equalAll bs as := by
  cases as with
  | nil => cases bs <;> simp [equalAll]
  | cons a as =>
    cases bs with
    | nil => simp [equalAll]
    | cons b bs => rw [equalAll,equalAll,equal_comm a b,equalAll_comm as bs]
end

/-- Lists are equal element by element. -/
theorem equalAll_iff {as bs : List Value} :
    equalAll as bs = true ↔ List.Forall₂ (fun a b => a.equal b = true) as bs := by
  induction as generalizing bs with
  | nil => cases bs <;> simp [equalAll]
  | cons a as ih => cases bs <;> simp [equalAll,ih]

lemma kind_eq_of_equal {a b : Value} (h : a.equal b = true) : a.kind = b.kind := by
  cases a <;> cases b <;> simp_all [equal,kind]

mutual
theorem equal_trans {a b c : Value} (h : a.equal b = true) (h' : b.equal c = true) :
    a.equal c = true := by
  have hk := kind_eq_of_equal h
  have hk' := kind_eq_of_equal h'
  cases a with
  | list as =>
    cases b with
    | list bs =>
      cases c with
      | list cs =>
        simp only [equal] at h h' ⊢
        exact equalAll_trans h h'
      | _ => cases hk'
    | _ => cases hk
  | decimal a =>
    cases b with
    | decimal b =>
      cases c with
      | decimal c =>
        simp only [equal] at h h' ⊢
        exact Decimal.equal_trans h h'
      | _ => cases hk'
    | _ => cases hk
  | _ =>
    cases b <;> cases hk
    cases c <;> cases hk'
    simp_all [equal]

theorem equalAll_trans {as bs cs : List Value} (h : equalAll as bs = true)
    (h' : equalAll bs cs = true) : equalAll as cs = true := by
  cases as with
  | nil =>
    cases bs with
    | nil => exact h'
    | cons b bs => simp [equalAll] at h
  | cons a as =>
    cases bs with
    | nil => simp [equalAll] at h
    | cons b bs =>
      cases cs with
      | nil => simp [equalAll] at h'
      | cons c cs =>
        simp only [equalAll,Bool.and_eq_true] at h h' ⊢
        exact ⟨equal_trans h.1 h'.1,equalAll_trans h.2 h'.2⟩
end

/-! ### Order -/

/-- How two values of one ordered kind stand to each other. -/
inductive Stands : Value → Ordering → Value → Prop
  | integer {m n : Int} {o : Ordering} (h : Ord.compare m n = o) : Stands (.integer m) o (.integer n)
  | decimal {d e : Decimal} {o : Ordering} (h : d.compare e = o) : Stands (.decimal d) o (.decimal e)
  | character {c d : Char} {o : Ordering} (h : Ord.compare c d = o) :
      Stands (.character c) o (.character d)
  | string {s t : String} {o : Ordering} (h : Ord.compare s t = o) : Stands (.string s) o (.string t)

section
variable {a a' b b' c : Value} {o : Ordering} {op : Operator}

lemma exists_stands (hk : a.kind = b.kind) (ho : a.kind.isOrdered = true) : ∃ o, Stands a o b := by
  cases a with
  | integer m => cases b <;> cases hk; exact ⟨_,.integer rfl⟩
  | decimal d => cases b <;> cases hk; exact ⟨_,.decimal rfl⟩
  | character c => cases b <;> cases hk; exact ⟨_,.character rfl⟩
  | string s => cases b <;> cases hk; exact ⟨_,.string rfl⟩
  | _ => cases ho

lemma compare_refused (h : ¬(a.kind = b.kind ∧ a.kind.isOrdered = true)) :
    compare op a b = invalid op a b := by
  unfold compare
  split
  · exact absurd ⟨rfl,rfl⟩ h
  · exact absurd ⟨rfl,rfl⟩ h
  · exact absurd ⟨rfl,rfl⟩ h
  · exact absurd ⟨rfl,rfl⟩ h
  · rfl

namespace Stands

lemma kinds (h : Stands a o b) : a.kind = b.kind ∧ a.kind.isOrdered = true := by
  cases h <;> exact ⟨rfl,rfl⟩

lemma compare (h : Stands a o b) : Value.compare op a b = .ok o := by
  cases h <;> next h => exact congrArg Except.ok h

/-- The equality of values is that of their order. -/
lemma equal (h : Stands a o b) : a.equal b = true ↔ o = .eq := by
  cases h with
  | integer h => rw [Value.equal,beq_iff_eq,← h,Std.LawfulEqOrd.compare_eq_iff_eq]
  | decimal h => rw [Value.equal,Decimal.equal_iff_compare,h]
  | character h => rw [Value.equal,beq_iff_eq,← h,Std.LawfulEqOrd.compare_eq_iff_eq]
  | string h => rw [Value.equal,beq_iff_eq,← h,Std.LawfulEqOrd.compare_eq_iff_eq]

lemma swap (h : Stands a o b) : Stands b o.swap a := by
  cases h with
  | integer h => exact .integer (h ▸ Std.OrientedCmp.eq_swap)
  | decimal h => exact .decimal (h ▸ Std.OrientedCmp.eq_swap)
  | character h => exact .character (h ▸ Std.OrientedCmp.eq_swap)
  | string h => exact .string (h ▸ Std.OrientedCmp.eq_swap)

lemma trans (h : Stands a .lt b) (h' : Stands b .lt c) : Stands a .lt c := by
  cases h with
  | integer h => cases h' with | integer h' => exact .integer (Std.TransCmp.lt_trans h h')
  | decimal h => cases h' with | decimal h' => exact .decimal (Std.TransCmp.lt_trans h h')
  | character h => cases h' with | character h' => exact .character (Std.TransCmp.lt_trans h h')
  | string h => cases h' with | string h' => exact .string (Std.TransCmp.lt_trans h h')

/-- Equal values stand to others in the same way. -/
lemma of_equal (h : Stands a o b) (he : a.equal a' = true) : Stands a' o b := by
  obtain ⟨o',h'⟩ := exists_stands (kind_eq_of_equal he) h.kinds.2
  obtain rfl := h'.equal.mp he
  cases h with
  | integer h => cases h' with | integer h' => exact .integer ((Std.TransCmp.congr_left h').symm.trans h)
  | decimal h => cases h' with | decimal h' => exact .decimal ((Std.TransCmp.congr_left h').symm.trans h)
  | character h =>
    cases h' with | character h' => exact .character ((Std.TransCmp.congr_left h').symm.trans h)
  | string h => cases h' with | string h' => exact .string ((Std.TransCmp.congr_left h').symm.trans h)

lemma operate (h : Stands a o b) (hop : op.isOrdering = true) :
    a.operate op b = .ok (.boolean (op.admits o)) := by
  cases op with
  | less => rw [Value.operate,h.compare]; rfl
  | lessEqual => rw [Value.operate,h.compare]; rfl
  | greater => rw [Value.operate,h.compare]; rfl
  | greaterEqual => rw [Value.operate,h.compare]; rfl
  | _ => cases hop

end Stands

/-- Without an order between its operands an operator refuses them. -/
lemma operate_refused (hop : op.isOrdering = true)
    (h : ¬(a.kind = b.kind ∧ a.kind.isOrdered = true)) :
    a.operate op b = .error (.invalidOperands op a.kind b.kind) := by
  cases op with
  | less => rw [operate,compare_refused h]; rfl
  | lessEqual => rw [operate,compare_refused h]; rfl
  | greater => rw [operate,compare_refused h]; rfl
  | greaterEqual => rw [operate,compare_refused h]; rfl
  | _ => cases hop

/-- The answer of an ordering operator does not depend on how equal operands are written. -/
lemma operate_congr (hop : op.isOrdering = true) (ha : a.equal a' = true) (hb : b.equal b' = true) :
    a.operate op b = a'.operate op b' := by
  have hka := kind_eq_of_equal ha
  have hkb := kind_eq_of_equal hb
  by_cases h : a.kind = b.kind ∧ a.kind.isOrdered = true
  · obtain ⟨o,hs⟩ := exists_stands h.1 h.2
    have hs' : Stands a' o b' := by
      have hswap := ((hs.of_equal ha).swap.of_equal hb).swap
      rwa [Ordering.swap_swap] at hswap
    rw [hs.operate hop,hs'.operate hop]
  · have h' : ¬(a'.kind = b'.kind ∧ a'.kind.isOrdered = true) := by
      rwa [← hka,← hkb]
    rw [operate_refused hop h,operate_refused hop h',hka,hkb]

end

/-- An operator holds between two values if it gives true. -/
def Holds (op : Operator) (a b : Value) : Prop := a.operate op b = .ok (.boolean true)

section
variable {a b : Value} {o : Ordering} {op : Operator}

lemma holds_equal_iff : Holds .equal a b ↔ a.equal b = true := by
  simp [Holds,operate,pure,Except.pure]

lemma Stands.holds_iff (h : Stands a o b) (hop : op.isOrdering = true) :
    Holds op a b ↔ op.admits o = true := by
  simp [Holds,h.operate hop]

lemma holds_less_iff : Holds .less a b ↔ Stands a .lt b := by
  constructor
  · intro h
    by_cases hk : a.kind = b.kind ∧ a.kind.isOrdered = true
    · obtain ⟨o,hs⟩ := exists_stands hk.1 hk.2
      have ho := (hs.holds_iff rfl).mp h
      obtain rfl : o = .lt := by
        cases o <;> simp_all [Operator.admits]
      exact hs
    · rw [Holds,operate_refused rfl hk] at h
      cases h
  · intro h
    exact (h.holds_iff rfl).mpr rfl

end

/-- Equality and order agree. Equality is an equivalence with its exact negation, also through lists of
any depth, and keeps the kinds apart. Between two values of one ordered kind exactly one of less, equal
and greater holds, less is transitive, and equal operands can stand for each other; between all other
values the operators of the order are refused. -/
theorem equality_and_order_agree :
    Equivalence (Holds .equal) ∧
    (∀ a b : Value, ∃ p, a.operate .equal b = .ok (.boolean p) ∧ a.operate .notEqual b = .ok (.boolean !p)) ∧
    (∀ a b : Value, a.kind ≠ b.kind → ¬Holds .equal a b) ∧
    (∀ as bs, Holds .equal (.list as) (.list bs) ↔ List.Forall₂ (Holds .equal) as bs) ∧
    (∀ a b : Value, a.kind = b.kind → a.kind.isOrdered = true →
      ((Holds .less a b ∧ ¬Holds .equal a b ∧ ¬Holds .greater a b) ∨
        (¬Holds .less a b ∧ Holds .equal a b ∧ ¬Holds .greater a b) ∨
        (¬Holds .less a b ∧ ¬Holds .equal a b ∧ Holds .greater a b)) ∧
      (∃ p, a.operate .greater b = .ok (.boolean p) ∧ a.operate .lessEqual b = .ok (.boolean !p)) ∧
      ∃ p, a.operate .less b = .ok (.boolean p) ∧ a.operate .greaterEqual b = .ok (.boolean !p)) ∧
    (∀ a b c, Holds .less a b → Holds .less b c → Holds .less a c) ∧
    (∀ (op : Operator) (a a' b b' : Value), op.isOrdering = true → Holds .equal a a' → Holds .equal b b' →
      a.operate op b = a'.operate op b') ∧
    ∀ (op : Operator) (a b : Value), op.isOrdering = true → ¬(a.kind = b.kind ∧ a.kind.isOrdered = true) →
      a.operate op b = .error (.invalidOperands op a.kind b.kind) := by
  have heq : Holds .equal = fun a b => a.equal b = true := by
    funext a b
    exact propext holds_equal_iff
  refine ⟨?_,fun a b => ⟨a.equal b,rfl,rfl⟩,?_,?_,?_,?_,?_,fun op a b => operate_refused⟩
  · rw [heq]
    exact ⟨equal_refl,fun {a b} h => (equal_comm b a).trans h,equal_trans⟩
  · intro a b hk h
    exact hk (kind_eq_of_equal (holds_equal_iff.mp h))
  · intro as bs
    rw [holds_equal_iff,heq]
    exact equalAll_iff
  · intro a b hk ho
    obtain ⟨o,hs⟩ := exists_stands hk ho
    have hless : Holds .less a b ↔ _ := hs.holds_iff rfl
    have hgreater : Holds .greater a b ↔ _ := hs.holds_iff rfl
    refine ⟨?_,⟨_,hs.operate rfl,?_⟩,⟨_,hs.operate rfl,?_⟩⟩
    · rw [hless,hgreater,holds_equal_iff,hs.equal]
      cases o <;> simp [Operator.admits]
    · rw [hs.operate rfl]
      cases o <;> rfl
    · rw [hs.operate rfl]
      cases o <;> rfl
  · intro a b c hab hbc
    rw [holds_less_iff] at hab hbc ⊢
    exact hab.trans hbc
  · intro op a a' b b' hop ha hb
    exact operate_congr hop (holds_equal_iff.mp ha) (holds_equal_iff.mp hb)

/-- Ones of three scales in nested lists, and one between its neighbours. -/
theorem equality_and_order_agree_scales :
    let nested (d : Decimal) : Value := .list [.list [.decimal d],.nil]
    Holds .equal (nested ⟨10,1⟩) (nested ⟨1,0⟩) ∧ Holds .equal (nested ⟨1,0⟩) (nested ⟨1000,3⟩) ∧
    Holds .equal (nested ⟨10,1⟩) (nested ⟨1000,3⟩) ∧
    Holds .less (.decimal ⟨-5,-2⟩) (.decimal ⟨10,1⟩) ∧ Holds .less (.decimal ⟨10,1⟩) (.decimal ⟨15,1⟩) ∧
    Holds .less (.decimal ⟨-5,-2⟩) (.decimal ⟨15,1⟩) := by
  intro nested
  obtain ⟨hequal,_,_,_,_,hless,_⟩ := equality_and_order_agree
  have h₁ : Holds .equal (nested ⟨10,1⟩) (nested ⟨1,0⟩) := holds_equal_iff.mpr (by decide +kernel)
  have h₂ : Holds .equal (nested ⟨1,0⟩) (nested ⟨1000,3⟩) := holds_equal_iff.mpr (by decide +kernel)
  have h₃ : Holds .less (.decimal ⟨-5,-2⟩) (.decimal ⟨10,1⟩) :=
    holds_less_iff.mpr (.decimal (by decide +kernel))
  have h₄ : Holds .less (.decimal ⟨10,1⟩) (.decimal ⟨15,1⟩) :=
    holds_less_iff.mpr (.decimal (by decide +kernel))
  exact ⟨h₁,h₂,hequal.trans h₁ h₂,h₃,h₄,hless _ _ _ h₃ h₄⟩

end Value
end BlockScript
