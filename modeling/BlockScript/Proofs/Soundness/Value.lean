import BlockScript.Proofs.Typing.Expression
import BlockScript.Value.Operation
/-! Which values a type has, and that operators on values follow the types of their operands. -/
namespace BlockScript

/-- The kinds with an order. -/
def Value.Kind.isOrdered : Kind → Bool
  | .integer | .decimal | .character | .string => true
  | _ => false

/-- The values of a type. Where blanks are allowed, nil stands for any element of a list too. -/
def Ty.Has (blank : Bool) : Ty → Value → Prop
  | any, _ => True
  | nil, v => v.kind = .nil
  | comparable, v => v.kind.isOrdered = true
  | boolean, v => v.kind = .boolean
  | integer, v => v.kind = .integer
  | decimal, v => v.kind = .decimal
  | character, v => v.kind = .character
  | string, v => v.kind = .string
  | list t, v => ∃ vs, v = .list vs ∧ ∀ u ∈ vs, (blank = true ∧ u = .nil) ∨ t.Has blank u

/-- A value that may be found where one of the type is expected: one of its values or, where blanks
are allowed, nil. -/
def Ty.Fits (blank : Bool) (t : Ty) (v : Value) : Prop :=
  (blank = true ∧ v = .nil) ∨ t.Has blank v

/-- The errors that a checked program is left with. Where no blanks are allowed, only an order of
two kinds goes against the types. -/
def RunError.Allowed (blank : Bool) : RunError → Prop
  | scope _ | immutableAssignment _ | invalidReceiver => False
  | typeMismatch _ received => blank = true ∧ received = .nil
  | invalidOperands op left right =>
    (blank = true ∧ (left = .nil ∨ right = .nil)) ∨
      (op.isOrdering = true ∧ left.isOrdered = true ∧ right.isOrdered = true ∧ left ≠ right)
  | indexOutOfRange .. | divisionByZero | narrowing _ | output => True

namespace Value
variable {v : Value}

@[simp] lemma kind_eq_nil : v.kind = .nil ↔ v = .nil := by
  cases v <;> simp [kind]

lemma kind_eq_boolean : v.kind = .boolean ↔ ∃ b, v = boolean b := by
  cases v <;> simp [kind]

lemma kind_eq_integer : v.kind = .integer ↔ ∃ n, v = integer n := by
  cases v <;> simp [kind]

lemma kind_eq_decimal : v.kind = .decimal ↔ ∃ d, v = decimal d := by
  cases v <;> simp [kind]

lemma kind_eq_string : v.kind = .string ↔ ∃ s, v = string s := by
  cases v <;> simp [kind]

end Value

namespace Ty
variable {blank : Bool} {t target source : Ty} {v : Value}

lemma Has.fits (h : t.Has blank v) : t.Fits blank v := .inr h

/-- A value of one type may be stored where a type that accepts it is expected. -/
theorem Fits.of_accepts (h : source.Fits blank v) (ha : target.accepts source = true) :
    target.Fits blank v := by
  rcases h with h | h
  · exact .inl h
  · refine .inr ?_
    cases target with
    | any => trivial
    | comparable => cases source <;> simp_all [accepts,isOrdered,Has,Value.Kind.isOrdered]
    | _ => simp only [accepts,beq_iff_eq] at ha; rwa [ha]

/-- The kinds of the values of an ordered type. -/
lemma Has.kind_of_isOrdered (h : t.Has blank v) (ho : t.isOrdered = true) :
    v.kind.isOrdered = true := by
  cases t <;> simp_all [isOrdered,Has,Value.Kind.isOrdered]

lemma Has.kind_eq (ho : t.isOrdered = true) {u : Value} (hv : t.Has blank v) (hu : t.Has blank u) :
    v.kind = u.kind := by
  cases t <;> simp_all [isOrdered,Has]

end Ty

theorem Literal.type_sound {blank : Bool} {l : Literal} {t : Ty} (h : l.type = .ok t) :
    t.Fits blank (.ofLiteral l) := by
  apply Ty.Has.fits
  cases l with
  | integer n =>
    simp only [type] at h
    split at h <;> cases h
    rfl
  | decimal d =>
    simp only [type] at h
    split at h <;> cases h
    rfl
  | _ => cases h; rfl

namespace Value
variable {blank : Bool} {v i new : Value} {t : Ty}

/-- What an operation comes to: a value that fits a type, or an error that is left. -/
def Yields (blank : Bool) (t : Ty) (r : Except RunError Value) : Prop :=
  match r with
  | .ok v => t.Fits blank v
  | .error e => e.Allowed blank

lemma toBoolean_sound (h : Ty.boolean.Fits blank v) :
    (∃ b, v.toBoolean = .ok b) ∨ ∃ e, v.toBoolean = .error e ∧ e.Allowed blank ∧
      ∀ op l r, e ≠ .invalidOperands op l r := by
  rcases h with ⟨hb,rfl⟩ | h
  · exact .inr ⟨_,rfl,⟨hb,rfl⟩,nofun⟩
  · obtain ⟨b,rfl⟩ := kind_eq_boolean.mp h
    exact .inl ⟨b,rfl⟩

/-- An index of a list names a position of it, or there is an error that has nothing to do with
operands. -/
lemma position_sound (hv : (Ty.list t).Fits blank v) (hi : Ty.integer.Fits blank i) :
    (∃ vs n, v.position i = .ok (vs,n) ∧ n < vs.length ∧ v = .list vs ∧ ∀ u ∈ vs, t.Fits blank u) ∨
      ∃ e, v.position i = .error e ∧ e.Allowed blank ∧ ∀ op l r, e ≠ .invalidOperands op l r := by
  rcases hv with ⟨hb,rfl⟩ | ⟨vs,rfl,hvs⟩
  · exact .inr ⟨_,rfl,⟨hb,rfl⟩,nofun⟩
  · rcases hi with ⟨hb,rfl⟩ | hi
    · exact .inr ⟨_,rfl,⟨hb,rfl⟩,nofun⟩
    · obtain ⟨n,rfl⟩ := kind_eq_integer.mp hi
      simp only [position]
      split
      · next h => exact .inl ⟨vs,n.toNat,rfl,by omega,rfl,hvs⟩
      · exact .inr ⟨_,rfl,trivial,nofun⟩

lemma element_sound (hv : (Ty.list t).Fits blank v) (hi : Ty.integer.Fits blank i) :
    (∃ u, v.element i = .ok u ∧ t.Fits blank u) ∨
      ∃ e, v.element i = .error e ∧ e.Allowed blank ∧ ∀ op l r, e ≠ .invalidOperands op l r := by
  unfold element
  rcases position_sound hv hi with ⟨vs,n,hp,hn,_,hvs⟩ | ⟨e,hp,he⟩
  · refine .inl ⟨vs[n],?_,hvs _ (List.getElem_mem hn)⟩
    rw [hp]
    simp [bind,Except.bind,pure,Except.pure,hn]
  · exact .inr ⟨e,by rw [hp]; rfl,he⟩

lemma setElement_sound (hv : (Ty.list t).Fits blank v) (hi : Ty.integer.Fits blank i)
    (hnew : t.Fits blank new) :
    (∃ u, v.setElement i new = .ok u ∧ (Ty.list t).Fits blank u) ∨
      ∃ e, v.setElement i new = .error e ∧ e.Allowed blank ∧
        ∀ op l r, e ≠ .invalidOperands op l r := by
  unfold setElement
  rcases position_sound hv hi with ⟨vs,n,hp,hn,_,hvs⟩ | ⟨e,hp,he⟩
  · refine .inl ⟨.list (vs.set n new),by rw [hp]; rfl,.inr ⟨_,rfl,fun u hu => ?_⟩⟩
    rcases List.mem_or_eq_of_mem_set hu with hu | rfl
    · exact hvs u hu
    · exact hnew
  · exact .inr ⟨e,by rw [hp]; rfl,he⟩

end Value

namespace Value
variable {blank : Bool} {a b : Value} {op : Operator} {left right t : Ty}

lemma invalid_allowed (hb : blank = true) (h : a = .nil ∨ b = .nil) :
    (RunError.invalidOperands op a.kind b.kind).Allowed blank :=
  .inl ⟨hb,h.imp kind_eq_nil.mpr kind_eq_nil.mpr⟩

/-- Two numbers of one type, or a nil among them and no string. -/
lemma numbers_of_fits (ht : t = .integer ∨ t = .decimal) (ha : t.Fits blank a)
    (hb : t.Fits blank b) :
    (t = .integer ∧ ∃ m n, a = integer m ∧ b = integer n) ∨
      (t = .decimal ∧ ∃ d e, a = decimal d ∧ b = decimal e) ∨
      (blank = true ∧ (a = .nil ∨ b = .nil) ∧ a.kind ≠ .string ∧ b.kind ≠ .string) := by
  have hk : ∀ v : Value, t.Has blank v → v.kind ≠ .string := by
    intro v hv
    rcases ht with rfl | rfl <;> (rw [show v.kind = _ from hv]; exact nofun)
  have hn : Value.nil.kind ≠ .string := nofun
  rcases ha with ⟨hbl,rfl⟩ | ha
  · rcases hb with ⟨_,rfl⟩ | hb
    · exact .inr (.inr ⟨hbl,.inl rfl,hn,hn⟩)
    · exact .inr (.inr ⟨hbl,.inl rfl,hn,hk b hb⟩)
  · rcases hb with ⟨hbl,rfl⟩ | hb
    · exact .inr (.inr ⟨hbl,.inr rfl,hk a ha,hn⟩)
    · rcases ht with rfl | rfl
      · obtain ⟨m,rfl⟩ := kind_eq_integer.mp ha
        obtain ⟨n,rfl⟩ := kind_eq_integer.mp hb
        exact .inl ⟨rfl,m,n,rfl,rfl⟩
      · obtain ⟨d,rfl⟩ := kind_eq_decimal.mp ha
        obtain ⟨e,rfl⟩ := kind_eq_decimal.mp hb
        exact .inr (.inl ⟨rfl,d,e,rfl,rfl⟩)

/-- Arithmetic on two numbers of one type gives a number of that type. -/
lemma arithmetic_sound (op : Operator) (ht : t = .integer ∨ t = .decimal) (ha : t.Fits blank a)
    (hb : t.Fits blank b) (f : Value → Value → Except RunError Value)
    (hi : ∀ m n, Yields blank .integer (f (integer m) (integer n)))
    (hd : ∀ d e, Yields blank .decimal (f (decimal d) (decimal e)))
    (hnil : (a = .nil ∨ b = .nil) → a.kind ≠ .string → b.kind ≠ .string →
      f a b = invalid op a b) : Yields blank t (f a b) := by
  rcases numbers_of_fits ht ha hb with ⟨rfl,m,n,rfl,rfl⟩ | ⟨rfl,d,e,rfl,rfl⟩ | ⟨hbl,hn,hsa,hsb⟩
  · exact hi m n
  · exact hd d e
  · rw [hnil hn hsa hsb]
    exact invalid_allowed hbl hn

lemma add_string_right (a : Value) (s : String) : ∃ t, a.add (string s) = .ok (string t) := by
  cases a <;> exact ⟨_,rfl⟩

/-- A sum with a string is a string, unless the string is blank and the other side is none. -/
lemma add_string_sound (h : left = .string ∨ right = .string) (ha : left.Fits blank a)
    (hb : right.Fits blank b) : Yields blank .string (a.add b) := by
  have hs : (∃ s, a = string s) ∨ (∃ s, b = string s) ∨ (blank = true ∧ (a = .nil ∨ b = .nil)) := by
    rcases h with rfl | rfl
    · rcases ha with ⟨hbl,rfl⟩ | ha
      · exact .inr (.inr ⟨hbl,.inl rfl⟩)
      · exact .inl (kind_eq_string.mp ha)
    · rcases hb with ⟨hbl,rfl⟩ | hb
      · exact .inr (.inr ⟨hbl,.inr rfl⟩)
      · exact .inr (.inl (kind_eq_string.mp hb))
  rcases hs with ⟨s,rfl⟩ | ⟨s,rfl⟩ | ⟨hbl,rfl | rfl⟩
  · exact .inr rfl
  · obtain ⟨t,ht⟩ := add_string_right a s
    rw [ht]
    exact .inr rfl
  · cases b with
    | string s => exact .inr rfl
    | _ => exact invalid_allowed hbl (.inl rfl)
  · cases a with
    | string s => exact .inr rfl
    | _ => exact invalid_allowed hbl (.inr rfl)

lemma divide_integer_sound (m n : Int) :
    Yields blank .integer ((integer m).divide (integer n)) := by
  simp only [divide]
  split
  · trivial
  · exact .inr rfl

lemma divide_decimal_sound (d e : Decimal) :
    Yields blank .decimal ((decimal d).divide (decimal e)) := by
  simp only [divide]
  split
  · trivial
  · exact .inr rfl

lemma power_sound (ha : Ty.integer.Fits blank a) (hb : Ty.integer.Fits blank b) :
    Yields blank .integer (a.power b) := by
  rcases numbers_of_fits (.inl rfl) ha hb with ⟨_,m,n,rfl,rfl⟩ | ⟨h,_⟩ | ⟨hbl,hn,_,_⟩
  · simp only [power]
    split
    · trivial
    · split
      · trivial
      · exact .inr rfl
  · cases h
  · have hp : a.power b = invalid .power a b := by
      rcases hn with rfl | rfl
      · rfl
      · cases a <;> rfl
    rw [hp]
    exact invalid_allowed hbl hn

/-- Two values of ordered types are in order or else are of two kinds, unless one is blank. -/
lemma compare_sound (op : Operator) (hl : left.isOrdered = true) (hr : right.isOrdered = true)
    (ha : left.Fits blank a) (hb : right.Fits blank b) :
    (∃ o, compare op a b = .ok o) ∨ (compare op a b = .error (.invalidOperands op a.kind b.kind) ∧
      ((blank = true ∧ (a = .nil ∨ b = .nil)) ∨
        (a.kind.isOrdered = true ∧ b.kind.isOrdered = true ∧ a.kind ≠ b.kind))) := by
  rcases ha with ⟨hbl,rfl⟩ | ha
  · exact .inr ⟨rfl,.inl ⟨hbl,.inl rfl⟩⟩
  · rcases hb with ⟨hbl,rfl⟩ | hb
    · exact .inr ⟨by cases a <;> rfl,.inl ⟨hbl,.inr rfl⟩⟩
    · have hka := ha.kind_of_isOrdered hl
      have hkb := hb.kind_of_isOrdered hr
      by_cases hk : a.kind = b.kind
      · refine .inl ?_
        cases a <;> cases hka <;> cases b <;> cases hk <;> exact ⟨_,rfl⟩
      · refine .inr ⟨?_,.inr ⟨hka,hkb,hk⟩⟩
        cases a <;> cases b <;> first | rfl | exact absurd rfl hk

lemma operate_ordering (ho : op.isOrdering = true) (a b : Value) :
    ∃ p : Ordering → Bool, a.operate op b = (compare op a b).map fun o => boolean (p o) := by
  have hm : ∀ p : Ordering → Bool, (do return boolean (p (← compare op a b))) =
      (compare op a b).map fun o => boolean (p o) := by
    intro p
    cases compare op a b <;> rfl
  cases op with
  | less => exact ⟨Ordering.isLT,hm _⟩
  | lessEqual => exact ⟨Ordering.isLE,hm _⟩
  | greater => exact ⟨Ordering.isGT,hm _⟩
  | greaterEqual => exact ⟨Ordering.isGE,hm _⟩
  | _ => cases ho

lemma operate_ordering_sound (ho : op.isOrdering = true) (hl : left.isOrdered = true)
    (hr : right.isOrdered = true) (ha : left.Fits blank a) (hb : right.Fits blank b) :
    Yields blank .boolean (a.operate op b) := by
  obtain ⟨p,hp⟩ := operate_ordering ho a b
  rw [hp]
  rcases compare_sound op hl hr ha hb with ⟨o,hc⟩ | ⟨hc,⟨hbl,hn⟩ | ⟨hka,hkb,hne⟩⟩
  · rw [hc]; exact .inr rfl
  · rw [hc]; exact invalid_allowed hbl hn
  · rw [hc]; exact .inr ⟨ho,hka,hkb,hne⟩

lemma operate_logical_sound (ho : op = .and ∨ op = .or) (ha : Ty.boolean.Fits blank a)
    (hb : Ty.boolean.Fits blank b) : Yields blank .boolean (a.operate op b) := by
  rcases toBoolean_sound ha with ⟨p,hp⟩ | ⟨e,hp,he,_⟩
  · rcases toBoolean_sound hb with ⟨q,hq⟩ | ⟨e,hq,he,_⟩
    · rcases ho with rfl | rfl <;> simp only [operate,hp,hq] <;> exact .inr rfl
    · rcases ho with rfl | rfl <;> simp only [operate,hp,hq] <;> exact he
  · rcases ho with rfl | rfl <;> simp only [operate,hp] <;> exact he

/-- An operator on operands of the types it was checked for gives a value of its own type, or an
error that checked programs are left with. -/
theorem operate_sound (h : op.type left right = .ok t) (ha : left.Fits blank a)
    (hb : right.Fits blank b) : Yields blank t (a.operate op b) := by
  cases op with
  | and | or =>
    obtain ⟨rfl,rfl,rfl⟩ := (Operator.type_logical (by simp)).mp h
    exact operate_logical_sound (by simp) ha hb
  | less | lessEqual | greater | greaterEqual =>
    obtain ⟨rfl,hl,hr⟩ := (Operator.type_ordering rfl).mp h
    exact operate_ordering_sound rfl hl hr ha hb
  | equal | notEqual => cases h; exact .inr rfl
  | add =>
    simp only [Operator.type] at h
    split at h
    · next hs => cases h; exact add_string_sound hs ha hb
    · obtain ⟨rfl,rfl,ht⟩ := Operator.numeric_eq_ok.mp h
      refine arithmetic_sound .add ht ha hb add (fun _ _ => .inr rfl) (fun _ _ => .inr rfl) ?_
      rintro (rfl | rfl) hsa hsb
      · cases b <;> first | rfl | exact absurd rfl hsb
      · cases a <;> first | rfl | exact absurd rfl hsa
  | subtract =>
    obtain ⟨rfl,rfl,ht⟩ := Operator.numeric_eq_ok.mp h
    refine arithmetic_sound .subtract ht ha hb subtract (fun _ _ => .inr rfl)
      (fun _ _ => .inr rfl) ?_
    rintro (rfl | rfl) _ _
    · rfl
    · cases a <;> rfl
  | multiply =>
    obtain ⟨rfl,rfl,ht⟩ := Operator.numeric_eq_ok.mp h
    refine arithmetic_sound .multiply ht ha hb multiply (fun _ _ => .inr rfl)
      (fun _ _ => .inr rfl) ?_
    rintro (rfl | rfl) _ _
    · rfl
    · cases a <;> rfl
  | divide =>
    obtain ⟨rfl,rfl,ht⟩ := Operator.numeric_eq_ok.mp h
    refine arithmetic_sound .divide ht ha hb divide divide_integer_sound
      divide_decimal_sound ?_
    rintro (rfl | rfl) _ _
    · rfl
    · cases a <;> rfl
  | power =>
    simp only [Operator.type] at h
    split at h
    · next hs =>
      obtain ⟨rfl,rfl⟩ := hs
      cases h
      exact power_sound ha hb
    · simp at h

lemma compare_invalid {op' : Operator} {k k' : Kind}
    (h : compare op a b = .error (.invalidOperands op' k k')) :
    op' = op ∧ k = a.kind ∧ k' = b.kind := by
  unfold compare at h
  split at h <;> cases h
  exact ⟨rfl,rfl,rfl⟩

lemma toBoolean_ne_invalid {v : Value} {op' : Operator} {k k' : Kind} :
    v.toBoolean ≠ .error (.invalidOperands op' k k') := by
  cases v <;> exact nofun

/-- An error about operands names the operator and the kinds of its operands. -/
lemma operate_invalid {op' : Operator} {k k' : Kind}
    (h : a.operate op b = .error (.invalidOperands op' k k')) :
    op' = op ∧ k = a.kind ∧ k' = b.kind := by
  by_cases ho : op.isOrdering = true
  · obtain ⟨p,hp⟩ := operate_ordering ho a b
    rw [hp] at h
    apply compare_invalid
    cases hc : compare op a b with
    | ok o => rw [hc] at h; cases h
    | error e => rw [hc] at h; cases h; rfl
  cases op with
  | add =>
    simp only [operate,add] at h
    split at h <;> cases h
    exact ⟨rfl,rfl,rfl⟩
  | subtract =>
    simp only [operate,subtract] at h
    split at h <;> cases h
    exact ⟨rfl,rfl,rfl⟩
  | multiply =>
    simp only [operate,multiply] at h
    split at h <;> cases h
    exact ⟨rfl,rfl,rfl⟩
  | divide =>
    simp only [operate,divide] at h
    split at h
    · split at h <;> cases h
    · split at h <;> cases h
    · cases h
      exact ⟨rfl,rfl,rfl⟩
  | power =>
    simp only [operate,power] at h
    split at h
    · split at h
      · cases h
      · split at h <;> cases h
    · cases h
      exact ⟨rfl,rfl,rfl⟩
  | equal | notEqual => cases h
  | less | lessEqual | greater | greaterEqual => exact absurd rfl ho
  | and | or =>
    simp only [operate,Bind.bind,Except.bind] at h
    split at h
    · next e hp => cases h; exact absurd hp toBoolean_ne_invalid
    · split at h
      · next e hq => cases h; exact absurd hq toBoolean_ne_invalid
      · cases h

/-- Without blanks only an order goes against the operands, and only of two types. -/
theorem types_ne_of_invalid {op' : Operator} {k k' : Kind} (h : op.type left right = .ok t)
    (ha : left.Fits false a) (hb : right.Fits false b)
    (he : a.operate op b = .error (.invalidOperands op' k k')) :
    op' = op ∧ op.isOrdering = true ∧ left ≠ right := by
  obtain ⟨rfl,rfl,rfl⟩ := operate_invalid he
  have hs := operate_sound h ha hb
  rw [he] at hs
  rcases hs with ⟨h,_⟩ | ⟨ho,_,_,hne⟩
  · cases h
  · refine ⟨rfl,ho,?_⟩
    rintro rfl
    obtain ⟨_,hl,_⟩ := (Operator.type_ordering ho).mp h
    rcases ha with ⟨h,_⟩ | ha
    · cases h
    · rcases hb with ⟨h,_⟩ | hb
      · cases h
      · exact hne (ha.kind_eq hl hb)

end Value
end BlockScript
