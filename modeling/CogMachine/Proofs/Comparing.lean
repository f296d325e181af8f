import CogMachine.Machine.Operation
import CogMachine.Proofs.Rounding

/-!
# Comparisons

The six comparisons agree with each other on all values, although values of different kinds are coerced in different
ways and equality has cases of its own.

- `Value.compareNumbers?` is the order of two values that are not both strings. It is decided by the keys of the
  values as singles wherever these differ (`compareNumbers?_of_key_lt`); only integers among themselves are told
  apart more finely.
- That makes *less* transitive over all kinds (`compare?_trans`). Being neither less nor greater is not: a float may
  stand so to two integers of which one is less than the other.
- `Value.equal` is symmetric and agrees with the order (`compare?_of_equal`, `equal_of_compare?`).
- `comparisons_consistent` puts this together for the instructions.
-/

namespace CogMachine

/-! ## Singles and vectors -/

namespace Single

variable {x y : Single}

theorem compare?_eq_none_iff : x.compare? y = none ↔ x.isNaN = true ∨ y.isNaN = true := by
  simp [compare?, or_iff_not_imp_left]

theorem compare?_eq_lt_iff :
    x.compare? y = some .lt ↔ x.isNaN = false ∧ y.isNaN = false ∧ x.key < y.key := by
  simp [compare?, Int.compare_eq_lt, and_assoc]

theorem compare?_swap (x y : Single) : (x.compare? y).map Ordering.swap = y.compare? x := by
  have hkey : compare y.key x.key = (compare x.key y.key).swap := Std.OrientedCmp.eq_swap
  unfold compare?
  rw [Bool.or_comm y.isNaN, hkey]
  split <;> rfl

theorem equals_comm (x y : Single) : x.equals y = y.equals x := by
  rw [equals, equals, ← compare?_swap x y]
  rcases x.compare? y with _ | _ | _ | _ <;> rfl

end Single

theorem Vector3.equals_comm (u v : Vector3) : u.equals v = v.equals u := by
  rw [equals, equals, Single.equals_comm u.x, Single.equals_comm u.y, Single.equals_comm u.z]

namespace Value

variable {a b c : Value}

/-! ## Numbers -/

def isNaN : Value → Bool
  | float x => x.isNaN
  | _ => false

/-- **Order as numbers:** of singles if an operand is a float, else of the integer coercions. -/
def compareNumbers? (a b : Value) : Option Ordering :=
  if a.isFloat || b.isFloat then a.asFloat.compare? b.asFloat else some (compare a.asInt b.asInt)

/-- Values are compared as numbers unless both are strings. -/
theorem compare?_eq_compareNumbers? (h : ¬(a.type = .string ∧ b.type = .string)) :
    a.compare? b = a.compareNumbers? b := by
  unfold compare?
  split
  · exact absurd ⟨rfl, rfl⟩ h
  · rfl

theorem compare?_strings (s t : String) : compare? (.string s) (.string t) = some (compare s t) := rfl

theorem eq_string_of_type {v : Value} (h : v.type = .string) : ∃ s, v = .string s := by
  cases v with
  | string s => exact ⟨s, rfl⟩
  | void | int n | float x | bool b | vector u | handle k id => cases h

theorem asFloat_of_isFloat_eq_false (h : a.isFloat = false) : a.asFloat = .ofInt32 a.asInt := by
  cases a with
  | float x => cases h
  | void | int n | bool b | string s | vector v | handle k id => rfl

/-- An integer is no NaN as a single. -/
theorem isNaN_asFloat (v : Value) : v.asFloat.isNaN = v.isNaN := by
  cases v with
  | float x => rfl
  | void | int n | bool b | string s | vector v | handle k id => exact Single.isNaN_ofInt32 _

theorem isNaN_of_isFloat_eq_false (h : a.isFloat = false) : a.isNaN = false := by
  cases a with
  | float x => cases h
  | void | int n | bool b | string s | vector v | handle k id => rfl

theorem compareNumbers?_of_float (h : (a.isFloat || b.isFloat) = true) :
    a.compareNumbers? b = a.asFloat.compare? b.asFloat := if_pos h

theorem compareNumbers?_of_ints (ha : a.isFloat = false) (hb : b.isFloat = false) :
    a.compareNumbers? b = some (compare a.asInt b.asInt) := by
  simp [compareNumbers?, ha, hb]

theorem compareNumbers?_swap (a b : Value) : (a.compareNumbers? b).map Ordering.swap = b.compareNumbers? a := by
  unfold compareNumbers?
  rw [Bool.or_comm b.isFloat]
  split
  · exact Single.compare?_swap _ _
  · exact congrArg some Std.OrientedCmp.eq_swap.symm

theorem compareNumbers?_eq_none_iff : a.compareNumbers? b = none ↔ a.isNaN = true ∨ b.isNaN = true := by
  cases h : a.isFloat || b.isFloat with
  | true => rw [compareNumbers?_of_float h, Single.compare?_eq_none_iff, isNaN_asFloat, isNaN_asFloat]
  | false =>
      obtain ⟨ha, hb⟩ := Bool.or_eq_false_iff.mp h
      simp [compareNumbers?_of_ints ha hb, isNaN_of_isFloat_eq_false ha, isNaN_of_isFloat_eq_false hb]

/-! ## Less, among numbers -/

theorem compareNumbers?_eq_lt_of_float (h : (a.isFloat || b.isFloat) = true) : a.compareNumbers? b = some .lt ↔
    a.isNaN = false ∧ b.isNaN = false ∧ a.asFloat.key < b.asFloat.key := by
  rw [compareNumbers?_of_float h, Single.compare?_eq_lt_iff, isNaN_asFloat, isNaN_asFloat]

theorem compareNumbers?_eq_lt_of_ints (ha : a.isFloat = false) (hb : b.isFloat = false) :
    a.compareNumbers? b = some .lt ↔ a.asInt.toInt < b.asInt.toInt := by
  rw [compareNumbers?_of_ints ha hb, Option.some_inj, ← Int32.lt_iff_toInt_lt]
  exact Std.compare_eq_lt

/-- Of integers the smaller one may become equal to the other as a single, but not greater. -/
theorem key_le_of_compareNumbers? (h : a.compareNumbers? b = some .lt) :
    a.isNaN = false ∧ b.isNaN = false ∧ a.asFloat.key ≤ b.asFloat.key := by
  cases hfloat : a.isFloat || b.isFloat with
  | true =>
      obtain ⟨ha, hb, hkey⟩ := (compareNumbers?_eq_lt_of_float hfloat).mp h
      exact ⟨ha, hb, hkey.le⟩
  | false =>
      obtain ⟨ha, hb⟩ := Bool.or_eq_false_iff.mp hfloat
      have hlt := (compareNumbers?_eq_lt_of_ints ha hb).mp h
      refine ⟨isNaN_of_isFloat_eq_false ha, isNaN_of_isFloat_eq_false hb, ?_⟩
      rw [asFloat_of_isFloat_eq_false ha, asFloat_of_isFloat_eq_false hb]
      exact Single.key_ofInt32_mono hlt.le

/-- **Different keys decide.** Integers whose keys are different were in that order before they were rounded. -/
theorem compareNumbers?_of_key_lt (ha : a.isNaN = false) (hb : b.isNaN = false)
    (h : a.asFloat.key < b.asFloat.key) : a.compareNumbers? b = some .lt := by
  cases hfloat : a.isFloat || b.isFloat with
  | true => exact (compareNumbers?_eq_lt_of_float hfloat).mpr ⟨ha, hb, h⟩
  | false =>
      obtain ⟨hai, hbi⟩ := Bool.or_eq_false_iff.mp hfloat
      rw [compareNumbers?_eq_lt_of_ints hai hbi]
      rw [asFloat_of_isFloat_eq_false hai, asFloat_of_isFloat_eq_false hbi] at h
      exact not_le.mp fun hle => (Single.key_ofInt32_mono hle).not_gt h

/-- **Less is transitive** on numbers of both kinds. If there is a float among the three, one of the two steps is
strict for the keys. -/
theorem compareNumbers?_trans (hab : a.compareNumbers? b = some .lt) (hbc : b.compareNumbers? c = some .lt) :
    a.compareNumbers? c = some .lt := by
  obtain ⟨ha, -, hkab⟩ := key_le_of_compareNumbers? hab
  obtain ⟨-, hc, hkbc⟩ := key_le_of_compareNumbers? hbc
  cases hfirst : a.isFloat || b.isFloat with
  | true =>
      obtain ⟨-, -, hlt⟩ := (compareNumbers?_eq_lt_of_float hfirst).mp hab
      exact compareNumbers?_of_key_lt ha hc (hlt.trans_le hkbc)
  | false =>
      cases hsecond : b.isFloat || c.isFloat with
      | true =>
          obtain ⟨-, -, hlt⟩ := (compareNumbers?_eq_lt_of_float hsecond).mp hbc
          exact compareNumbers?_of_key_lt ha hc (hkab.trans_lt hlt)
      | false =>
          obtain ⟨hai, hbi⟩ := Bool.or_eq_false_iff.mp hfirst
          obtain ⟨-, hci⟩ := Bool.or_eq_false_iff.mp hsecond
          rw [compareNumbers?_eq_lt_of_ints hai hbi] at hab
          rw [compareNumbers?_eq_lt_of_ints hbi hci] at hbc
          exact (compareNumbers?_eq_lt_of_ints hai hci).mpr (hab.trans hbc)

/-! ## The order of values -/

/-- Turning a comparison around turns its answer around. -/
theorem compare?_swap (a b : Value) : (a.compare? b).map Ordering.swap = b.compare? a := by
  by_cases h : a.type = .string ∧ b.type = .string
  · obtain ⟨s, rfl⟩ := eq_string_of_type h.1
    obtain ⟨t, rfl⟩ := eq_string_of_type h.2
    have hcompare : compare t s = (compare s t).swap := Std.OrientedCmp.eq_swap
    rw [compare?_strings, compare?_strings, hcompare]
    rfl
  · rw [compare?_eq_compareNumbers? h, compare?_eq_compareNumbers? (mt And.symm h), compareNumbers?_swap]

/-- Only a NaN is comparable with nothing. -/
theorem compare?_eq_none_iff : a.compare? b = none ↔ a.isNaN = true ∨ b.isNaN = true := by
  by_cases h : a.type = .string ∧ b.type = .string
  · obtain ⟨s, rfl⟩ := eq_string_of_type h.1
    obtain ⟨t, rfl⟩ := eq_string_of_type h.2
    simp [compare?_strings, isNaN]
  · rw [compare?_eq_compareNumbers? h, compareNumbers?_eq_none_iff]

theorem compare?_float_right (v : Value) (x : Single) : v.compare? (.float x) = v.asFloat.compare? x := by
  rw [compare?_eq_compareNumbers? (fun h => by cases h.2), compareNumbers?_of_float (by simp [isFloat]),
    asFloat]

theorem compare?_float_left (x : Single) (v : Value) : compare? (.float x) v = x.compare? v.asFloat := by
  rw [← compare?_swap, compare?_float_right, Single.compare?_swap]

theorem compare?_irrefl (a : Value) : a.compare? a ≠ some .lt := by
  intro h
  have hswap := compare?_swap a a
  rw [h] at hswap
  cases hswap

/-- As a number every string is the same, so one can be replaced by another. -/
theorem compareNumbers?_strings {s t : Value} (hs : s.type = .string) (ht : t.type = .string) :
    s.compareNumbers? b = t.compareNumbers? b ∧ a.compareNumbers? s = a.compareNumbers? t := by
  obtain ⟨s, rfl⟩ := eq_string_of_type hs
  obtain ⟨t, rfl⟩ := eq_string_of_type ht
  exact ⟨rfl, rfl⟩

/-- **Less is transitive** on all values. Where two neighbours are strings, and the third value is none, they are the
same number for it; and no value is between two strings as numbers. -/
theorem compare?_trans (hab : a.compare? b = some .lt) (hbc : b.compare? c = some .lt) :
    a.compare? c = some .lt := by
  by_cases hb : b.type = .string
  · by_cases ha : a.type = .string
    · by_cases hc : c.type = .string
      · obtain ⟨s, rfl⟩ := eq_string_of_type ha
        obtain ⟨t, rfl⟩ := eq_string_of_type hb
        obtain ⟨u, rfl⟩ := eq_string_of_type hc
        rw [compare?_strings, Option.some_inj] at hab hbc ⊢
        exact Std.TransCmp.lt_trans hab hbc
      · rw [compare?_eq_compareNumbers? (fun h => hc h.2)] at hbc ⊢
        rwa [(compareNumbers?_strings (a := a) ha hb).1]
    · rw [compare?_eq_compareNumbers? (fun h => ha h.1)] at hab ⊢
      by_cases hc : c.type = .string
      · rwa [(compareNumbers?_strings (b := b) hc hb).2]
      · rw [compare?_eq_compareNumbers? (fun h => hc h.2)] at hbc
        exact compareNumbers?_trans hab hbc
  · rw [compare?_eq_compareNumbers? (fun h => hb h.2)] at hab
    rw [compare?_eq_compareNumbers? (fun h => hb h.1)] at hbc
    have hac := compareNumbers?_trans hab hbc
    by_cases h : a.type = .string ∧ c.type = .string
    · obtain ⟨s, rfl⟩ := eq_string_of_type h.1
      obtain ⟨t, rfl⟩ := eq_string_of_type h.2
      cases hac
    · rwa [compare?_eq_compareNumbers? h]

/-! ## Equality -/

/-- Pairs whose equality is not that of the order: vectors, which have none, and handles, which are of a kind. -/
def hasOwnEquality : Value → Value → Bool
  | .vector _, .vector _ => true
  | .handle .., .handle .. => true
  | _, _ => false

/-- Otherwise the order decides, for strings as well. -/
theorem equal_eq_compare? (h : hasOwnEquality a b = false) : a.equal b = (a.compare? b == some .eq) := by
  unfold equal
  split
  · rename_i s t
    rw [compare?_strings]
    exact Bool.eq_iff_iff.mpr (by simp [Std.LawfulEqCmp.compare_eq_iff_eq])
  · cases h
  · cases h
  · rfl

theorem equal_of_compare? (h : hasOwnEquality a b = false) (heq : a.compare? b = some .eq) :
    a.equal b = true := by
  rw [equal_eq_compare? h, heq]
  rfl

/-- **Equal values** are neither less nor greater. -/
theorem compare?_of_equal (h : a.equal b = true) : a.compare? b = some .eq := by
  cases hown : hasOwnEquality a b with
  | false =>
      rw [equal_eq_compare? hown] at h
      exact beq_iff_eq.mp h
  | true =>
      unfold equal at h
      split at h
      · cases hown
      · rfl
      · rename_i k n l m
        simp only [Bool.and_eq_true, beq_iff_eq] at h
        obtain ⟨rfl, rfl⟩ := h
        have hself : compare n n = .eq := Std.ReflCmp.compare_self
        exact congrArg some hself
      · exact beq_iff_eq.mp h

theorem compare?_eq_some_eq_comm (a b : Value) : (a.compare? b == some .eq) = (b.compare? a == some .eq) := by
  rw [← compare?_swap a b]
  rcases a.compare? b with _ | _ | _ | _ <;> rfl

theorem hasOwnEquality_comm (a b : Value) : hasOwnEquality a b = hasOwnEquality b a := by
  cases a <;> cases b <;> rfl

theorem equal_comm (a b : Value) : a.equal b = b.equal a := by
  cases hown : hasOwnEquality a b with
  | false =>
      rw [equal_eq_compare? hown, equal_eq_compare? (hasOwnEquality_comm b a ▸ hown), compare?_eq_some_eq_comm]
  | true =>
      unfold hasOwnEquality at hown
      split at hown
      · exact Vector3.equals_comm _ _
      · rename_i k n l m
        exact congrArg₂ (· && ·) (Bool.beq_comm (a := k) (b := l)) (Bool.beq_comm (a := n) (b := m))
      · cases hown

end Value

namespace BinaryOp

variable {a b : Value}

/-! ## Instructions -/

def isComparison : BinaryOp → Bool
  | eq | ne | gt | ge | lt | le => true
  | _ => false

/-- The comparison of the two values answers `true`. -/
def Holds (op : BinaryOp) (a b : Value) : Prop := op.apply a b = .ok (.bool true)

instance (op : BinaryOp) (a b : Value) : Decidable (op.Holds a b) := inferInstanceAs (Decidable (_ = _))

theorem holds_of_apply {op : BinaryOp} {answer : Bool} (h : op.apply a b = .ok (.bool answer)) :
    op.Holds a b ↔ answer = true := by
  simp [Holds, h]

theorem holds_eq : eq.Holds a b ↔ a.equal b = true := holds_of_apply rfl

theorem holds_ne : ne.Holds a b ↔ a.equal b = false := by
  rw [holds_of_apply rfl, Bool.not_eq_true']

theorem holds_lt : lt.Holds a b ↔ a.compare? b = some .lt := by
  rw [holds_of_apply rfl, beq_iff_eq]

theorem holds_gt : gt.Holds a b ↔ a.compare? b = some .gt := by
  rw [holds_of_apply rfl, beq_iff_eq]

theorem holds_le : le.Holds a b ↔ a.compare? b = some .lt ∨ a.compare? b = some .eq := by
  rw [holds_of_apply rfl, Bool.or_eq_true, beq_iff_eq, beq_iff_eq]

theorem holds_ge : ge.Holds a b ↔ a.compare? b = some .gt ∨ a.compare? b = some .eq := by
  rw [holds_of_apply rfl, Bool.or_eq_true, beq_iff_eq, beq_iff_eq]

/-- Comparisons know of two values only how they are ordered, unless these have an equality of their own. -/
theorem apply_congr {op : BinaryOp} {a' b' : Value} (hop : op.isComparison = true)
    (hown : Value.hasOwnEquality a b = false) (hown' : Value.hasOwnEquality a' b' = false)
    (h : a.compare? b = a'.compare? b') : op.apply a b = op.apply a' b' := by
  have hequal : a.equal b = a'.equal b' := by rw [Value.equal_eq_compare? hown, Value.equal_eq_compare? hown', h]
  cases op with
  | eq | ne | gt | ge | lt | le => simp only [apply, h, hequal]
  | add | sub | mul | div | mod | bor | band | bxor | lor | land => cases hop

/-- **Strings** are compared as zero with anything that is none, -/
theorem apply_string {op : BinaryOp} (s : String) {v : Value} (hop : op.isComparison = true)
    (hv : v.type ≠ .string) :
    op.apply (.string s) v = op.apply (.int 0) v ∧ op.apply v (.string s) = op.apply v (.int 0) := by
  cases v with
  | string t => exact absurd rfl hv
  | void | int n | float x | bool b | vector u | handle k id =>
      exact ⟨apply_congr hop rfl rfl rfl, apply_congr hop rfl rfl rfl⟩

/-- and with a float everything is compared as the float it is rounded to. -/
theorem apply_float {op : BinaryOp} (x : Single) {v : Value} (hop : op.isComparison = true)
    (hv : v.isFloat = false) :
    op.apply v (.float x) = op.apply (.float (.ofInt32 v.asInt)) (.float x) ∧
      op.apply (.float x) v = op.apply (.float x) (.float (.ofInt32 v.asInt)) := by
  have hown : Value.hasOwnEquality v (.float x) = false := by cases v <;> rfl
  constructor
  · refine apply_congr hop hown rfl ?_
    rw [Value.compare?_float_right, Value.compare?_float_right, Value.asFloat_of_isFloat_eq_false hv, Value.asFloat]
  · refine apply_congr hop (Value.hasOwnEquality_comm _ _ ▸ hown) rfl ?_
    rw [Value.compare?_float_left, Value.compare?_float_left, Value.asFloat_of_isFloat_eq_false hv, Value.asFloat]

/-- **Agreement** of the comparisons of two values. -/
structure Agrees (a b : Value) : Prop where
  answers : ∀ op : BinaryOp, op.isComparison = true → ∃ answer, op.apply a b = .ok (.bool answer)
  negated : ne.Holds a b ↔ ¬eq.Holds a b
  symmetric : eq.Holds a b ↔ eq.Holds b a
  mirrored : (gt.Holds a b ↔ lt.Holds b a) ∧ (ge.Holds a b ↔ le.Holds b a)
  /-- With a NaN nothing holds but that the values differ. -/
  nan : a.isNaN = true ∨ b.isNaN = true → ∀ op : BinaryOp, op.isComparison = true → (op.Holds a b ↔ op = ne)
  /-- Without one, exactly one of *less*, *greater* and the tie of both weak comparisons holds. -/
  total : a.isNaN = false → b.isNaN = false →
    (le.Holds a b ↔ ¬gt.Holds a b) ∧ (ge.Holds a b ↔ ¬lt.Holds a b) ∧
      (lt.Holds a b ∨ gt.Holds a b ∨ le.Holds a b ∧ ge.Holds a b) ∧
      ¬(lt.Holds a b ∧ gt.Holds a b) ∧ ¬(lt.Holds a b ∧ le.Holds a b ∧ ge.Holds a b) ∧
      ¬(gt.Holds a b ∧ le.Holds a b ∧ ge.Holds a b)
  equal : eq.Holds a b → le.Holds a b ∧ ge.Holds a b
  tied : le.Holds a b → ge.Holds a b → Value.hasOwnEquality a b = false → eq.Holds a b

theorem not_equal_of_isNaN (h : a.isNaN = true ∨ b.isNaN = true) : a.equal b = false := by
  rw [Bool.eq_false_iff]
  intro hequal
  have hcompare := Value.compare?_of_equal hequal
  rw [Value.compare?_eq_none_iff.mpr h] at hcompare
  cases hcompare

theorem holds_iff_of_isNaN {op : BinaryOp} (h : a.isNaN = true ∨ b.isNaN = true) (hop : op.isComparison = true) :
    op.Holds a b ↔ op = ne := by
  have hcompare := Value.compare?_eq_none_iff.mpr h
  have hequal := not_equal_of_isNaN h
  cases op with
  | eq => simp [holds_eq, hequal]
  | ne => simp [holds_ne, hequal]
  | gt => simp [holds_gt, hcompare]
  | ge => simp [holds_ge, hcompare]
  | lt => simp [holds_lt, hcompare]
  | le => simp [holds_le, hcompare]
  | add | sub | mul | div | mod | bor | band | bxor | lor | land => cases hop

/-- **The comparisons agree.** That *greater* is *less* the other way is how `compare?` turns around; where there is
no NaN it has three answers, and each comparison is a set of them. -/
theorem agrees (a b : Value) : Agrees a b where
  answers op hop := by
    cases op with
    | eq | ne | gt | ge | lt | le => exact ⟨_, rfl⟩
    | add | sub | mul | div | mod | bor | band | bxor | lor | land => cases hop
  negated := by rw [holds_ne, holds_eq, Bool.not_eq_true]
  symmetric := by rw [holds_eq, holds_eq, Value.equal_comm]
  mirrored := by
    rw [holds_gt, holds_lt, holds_ge, holds_le, ← Value.compare?_swap a b]
    rcases a.compare? b with _ | _ | _ | _ <;> simp
  nan h _ hop := holds_iff_of_isNaN h hop
  total ha hb := by
    have hsome : a.compare? b ≠ none := by simp [Value.compare?_eq_none_iff, ha, hb]
    simp only [holds_lt, holds_gt, holds_le, holds_ge]
    rcases hcompare : a.compare? b with _ | _ | _ | _
    · exact absurd hcompare hsome
    all_goals simp
  equal h := by
    have hcompare := Value.compare?_of_equal (holds_eq.mp h)
    exact ⟨holds_le.mpr (.inr hcompare), holds_ge.mpr (.inr hcompare)⟩
  tied hle hge hown := by
    rw [holds_le] at hle
    rw [holds_ge] at hge
    refine holds_eq.mpr (Value.equal_of_compare? hown ?_)
    rcases hle with hlt | heq
    · simp [hlt] at hge
    · exact heq

end BinaryOp

open BinaryOp

/-- **The comparisons are consistent** on values of all kinds: those of two values agree, and *less* is a strict
order. Numbers of which one is a float are compared as singles, the integer after it was rounded; strings are
compared by their contents, but as zero with anything else. -/
theorem comparisons_consistent (a b c : Value) :
    Agrees a b ∧ ¬lt.Holds a a ∧ (lt.Holds a b → lt.Holds b c → lt.Holds a c) ∧
    (∀ s t, (lt.Holds (.string s) (.string t) ↔ s < t) ∧ (eq.Holds (.string s) (.string t) ↔ s = t)) ∧
    ∀ op : BinaryOp, op.isComparison = true →
      (a.type ≠ .string → ∀ s,
        op.apply (.string s) a = op.apply (.int 0) a ∧ op.apply a (.string s) = op.apply a (.int 0)) ∧
      (a.isFloat = false → ∀ x,
        op.apply a (.float x) = op.apply (.float (.ofInt32 a.asInt)) (.float x) ∧
          op.apply (.float x) a = op.apply (.float x) (.float (.ofInt32 a.asInt))) := by
  refine ⟨agrees a b, ?_, ?_, ?_, ?_⟩
  · rw [holds_lt]
    exact Value.compare?_irrefl a
  · simp only [holds_lt]
    exact Value.compare?_trans
  · intro s t
    rw [holds_lt, holds_eq, Value.compare?_strings, Option.some_inj]
    exact ⟨compareOfLessAndEq_eq_lt, beq_iff_eq⟩
  · intro op hop
    exact ⟨fun ha s => apply_string s hop ha, fun ha x => apply_float x hop ha⟩

/-- The integer 16777217 is no single. It is equal to the one that it is rounded to and less than the next one;
hence a string, which is less than the integer, is less than that one too. -/
theorem comparisons_consistent_unrepresentable :
    eq.Holds (.int 16777217) (.float ⟨0x4b800000⟩) ∧ lt.Holds (.string "a") (.float ⟨0x4b800001⟩) := by
  constructor
  · obtain ⟨hagrees, -⟩ := comparisons_consistent (.int 16777217) (.float ⟨0x4b800000⟩) .void
    obtain ⟨hle, hge, -⟩ := hagrees.total rfl (by decide)
    exact hagrees.tied (hle.mpr (by decide +kernel)) (hge.mpr (by decide +kernel)) rfl
  · obtain ⟨-, -, htrans, -⟩ := comparisons_consistent (.string "a") (.int 16777217) (.float ⟨0x4b800001⟩)
    exact htrans (by decide) (by decide +kernel)

end CogMachine
