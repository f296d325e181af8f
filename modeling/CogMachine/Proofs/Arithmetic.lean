import CogMachine.Machine.Operation

/-!
# Integer arithmetic

Binary operations on values that are no floats, compared with the same operations on the integers.

- `BinaryOp.composite` singles out the pairs that an operation takes as vectors or as strings, and
  `BinaryOp.onIntegers?` is the result of the others before it is reduced to 32 bits.
- `BinaryOp.apply_of_onIntegers?`: that is what the operation gives. `BinaryOp.apply_eq_error_iff`: the only fault
  is a division by an integer zero, which may be a zero by coercion only.
- `BinaryOp.recompose`: quotient and remainder make up the dividend again, wrapped or not.
- `arithmetic_exact` is all of it in one statement.
-/

namespace CogMachine

namespace BinaryOp

variable {op : BinaryOp} {a b : Value}

/-- **Pairs that are no numbers.** The operation adds, subtracts or scales vectors, or joins strings. -/
def composite (op : BinaryOp) (a b : Value) : Bool :=
  match op with
  | .add => a.type == .vector && b.type == .vector || a.type == .string && b.type == .string
  | .sub => a.type == .vector && b.type == .vector
  | .mul => (a.type == .vector) != (b.type == .vector)
  | .div => a.type == .vector && b.type != .vector
  | _ => false

/-- **The exact result** on integers, if the operation is arithmetic and has one: quotients are truncated toward
zero, and nothing is divided by zero. -/
def onIntegers? (op : BinaryOp) (x y : Int) : Option Int :=
  match op with
  | .add => some (x + y)
  | .sub => some (x - y)
  | .mul => some (x * y)
  | .div => if y = 0 then none else some (x.tdiv y)
  | .mod => if y = 0 then none else some (x.tmod y)
  | _ => none

end BinaryOp

namespace Value

variable {a b : Value} {onInts : Int32 → Int32 → Int32} {onFloats : Single → Single → Single}

theorem eq_vector_of_type {v : Value} (h : v.type = .vector) : ∃ u, v = .vector u := by
  cases v with
  | vector u => exact ⟨u, rfl⟩
  | void | int n | float x | bool b | string s | handle k id => cases h

theorem arithmetic_ints (ha : a.isFloat = false) (hb : b.isFloat = false) :
    arithmetic onInts onFloats a b = .int (onInts a.asInt b.asInt) := by
  simp [arithmetic, ha, hb]

theorem add_ints (ha : a.isFloat = false) (hb : b.isFloat = false) (h : BinaryOp.add.composite a b = false) :
    a.add b = .int (a.asInt + b.asInt) := by
  unfold add
  split
  · cases h
  · cases h
  · exact arithmetic_ints ha hb

theorem sub_ints (ha : a.isFloat = false) (hb : b.isFloat = false) (h : BinaryOp.sub.composite a b = false) :
    a.sub b = .int (a.asInt - b.asInt) := by
  unfold sub
  split
  · cases h
  · exact arithmetic_ints ha hb

/-- Two vectors have the product zero, which is that of their coercions. -/
theorem mul_ints (ha : a.isFloat = false) (hb : b.isFloat = false) (h : BinaryOp.mul.composite a b = false) :
    a.mul b = .int (a.asInt * b.asInt) := by
  unfold mul
  split
  · rfl
  · rename_i hnot
    obtain ⟨u, rfl⟩ := eq_vector_of_type (v := b) (by simpa [BinaryOp.composite, type] using h)
    exact absurd rfl (hnot u)
  · rename_i hnot
    obtain ⟨u, rfl⟩ := eq_vector_of_type (v := a) (by simpa [BinaryOp.composite, type] using h)
    exact absurd rfl (hnot u)
  · exact arithmetic_ints ha hb

/-- **Division of integers** asks for a divisor that is not zero after coercion. -/
theorem divNumbers_ints (ha : a.isFloat = false) (hb : b.isFloat = false) :
    a.divNumbers b = if b.asInt = 0 then .error .divisionByZero else .ok (.int (a.asInt / b.asInt)) := by
  simp [divNumbers, divideInts, ha, hb]

theorem div_ints (ha : a.isFloat = false) (hb : b.isFloat = false) (h : BinaryOp.div.composite a b = false) :
    a.div b = if b.asInt = 0 then .error .divisionByZero else .ok (.int (a.asInt / b.asInt)) := by
  unfold div
  split
  · rfl
  · rename_i hnot
    obtain ⟨u, rfl⟩ := eq_vector_of_type (v := b) (by simpa [BinaryOp.composite, type] using h)
    exact absurd rfl (hnot u)
  · exact divNumbers_ints ha hb

theorem mod_ints (ha : a.isFloat = false) (hb : b.isFloat = false) :
    a.mod b = if b.asInt = 0 then .error .divisionByZero else .ok (.int (a.asInt % b.asInt)) := by
  simp [mod, divideInts, ha, hb]

/-- A vector divided by something else is shrunk, whatever that is. -/
theorem exists_div_of_composite (h : BinaryOp.div.composite a b = true) : ∃ v, a.div b = .ok v := by
  simp only [BinaryOp.composite, Bool.and_eq_true, beq_iff_eq, bne_iff_ne] at h
  obtain ⟨u, rfl⟩ := eq_vector_of_type h.1
  refine ⟨.vector (u.shrink b.asFloat), ?_⟩
  cases b with
  | vector w => exact absurd rfl h.2
  | void | int n | float x | bool b | string s | handle k id => rfl

/-- If an operand is a float there is a quotient. -/
theorem exists_div_of_float (h : (a.isFloat || b.isFloat) = true) : ∃ v, a.div b = .ok v := by
  unfold div
  split
  · cases h
  · exact ⟨_, rfl⟩
  · simp [divNumbers, h]

theorem exists_mod_of_float (h : (a.isFloat || b.isFloat) = true) : ∃ v, a.mod b = .ok v := by
  simp [mod, h]

theorem guarded_eq_error_iff {n : Int32} {v : Value} {cause : Fault.Cause} :
    (if n = 0 then .error .divisionByZero else .ok v) = (.error cause : Except Fault.Cause Value) ↔
      n = 0 ∧ cause = .divisionByZero := by
  split
  · rename_i hzero
    simp [hzero, eq_comm]
  · rename_i hzero
    simp [hzero]

theorem div_eq_error_iff {cause : Fault.Cause} : a.div b = .error cause ↔
    cause = .divisionByZero ∧ a.isFloat = false ∧ b.isFloat = false ∧ b.asInt = 0 ∧
      BinaryOp.div.composite a b = false := by
  cases hfloat : a.isFloat || b.isFloat with
  | true =>
      obtain ⟨v, hv⟩ := exists_div_of_float hfloat
      rw [hv]
      simp only [reduceCtorEq, false_iff]
      rintro ⟨-, ha, hb, -⟩
      simp [ha, hb] at hfloat
  | false =>
      obtain ⟨ha, hb⟩ := Bool.or_eq_false_iff.mp hfloat
      cases h : BinaryOp.div.composite a b with
      | true =>
          obtain ⟨v, hv⟩ := exists_div_of_composite h
          simp [hv]
      | false =>
          rw [div_ints ha hb h, guarded_eq_error_iff]
          simp [ha, hb, and_comm]

theorem mod_eq_error_iff {cause : Fault.Cause} : a.mod b = .error cause ↔
    cause = .divisionByZero ∧ a.isFloat = false ∧ b.isFloat = false ∧ b.asInt = 0 := by
  cases hfloat : a.isFloat || b.isFloat with
  | true =>
      obtain ⟨v, hv⟩ := exists_mod_of_float hfloat
      rw [hv]
      simp only [reduceCtorEq, false_iff]
      rintro ⟨-, ha, hb, -⟩
      simp [ha, hb] at hfloat
  | false =>
      obtain ⟨ha, hb⟩ := Bool.or_eq_false_iff.mp hfloat
      rw [mod_ints ha hb, guarded_eq_error_iff]
      simp [ha, hb, and_comm]

end Value

/-! ## Integers of 32 bits -/

/-- A quotient is the truncated one, reduced to 32 bits. -/
theorem ofInt_tdiv_toInt (x y : Int32) : Int32.ofInt (x.toInt.tdiv y.toInt) = x / y :=
  (Int32.ofInt_eq_iff_bmod_eq_toInt _ _).mpr (Int32.toInt_div x y).symm

theorem ofInt_tmod_toInt (x y : Int32) : Int32.ofInt (x.toInt.tmod y.toInt) = x % y := by
  rw [← Int32.toInt_mod, Int32.ofInt_toInt]

/-- **Quotient and remainder** make up the dividend, also where the quotient was reduced. -/
theorem quot_mul_add_rem (x y : Int32) : x / y * y + x % y = x := by
  calc x / y * y + x % y
      = Int32.ofInt (x.toInt.tdiv y.toInt) * Int32.ofInt y.toInt + Int32.ofInt (x.toInt.tmod y.toInt) := by
        rw [ofInt_tdiv_toInt, ofInt_tmod_toInt, Int32.ofInt_toInt]
    _ = Int32.ofInt (x.toInt.tdiv y.toInt * y.toInt + x.toInt.tmod y.toInt) := by
        rw [Int32.ofInt_add, Int32.ofInt_mul]
    _ = x := by rw [Int.tdiv_mul_add_tmod, Int32.ofInt_toInt]

/-- **The remainder** is smaller than the divisor and has the sign of the dividend. -/
theorem tmod_bounds (x : Int) {y : Int} (hy : y ≠ 0) :
    (x.tmod y).natAbs < y.natAbs ∧ (0 ≤ x → 0 ≤ x.tmod y) ∧ (x ≤ 0 → x.tmod y ≤ 0) := by
  refine ⟨?_, Int.tmod_nonneg y, ?_⟩
  · rw [Int.natAbs_tmod]
    exact Nat.mod_lt _ (Int.natAbs_pos.mpr hy)
  · intro hx
    have hneg := Int.tmod_nonneg y (Int.neg_nonneg.mpr hx)
    rw [Int.neg_tmod] at hneg
    omega

theorem toInt_eq_zero {x : Int32} : x.toInt = 0 ↔ x = 0 := by
  rw [← Int32.toInt_inj]
  rfl

/-! ## Operations -/

namespace BinaryOp

variable {op : BinaryOp} {a b : Value}

/-- **Integer results are exact** up to the reduction to 32 bits. -/
theorem apply_of_onIntegers? (ha : a.isFloat = false) (hb : b.isFloat = false) (h : op.composite a b = false)
    {r : Int} (hr : op.onIntegers? a.asInt.toInt b.asInt.toInt = some r) : op.apply a b = .ok (.int (.ofInt r)) := by
  cases op with
  | add =>
      cases hr
      rw [apply, Value.add_ints ha hb h, Int32.ofInt_add, Int32.ofInt_toInt, Int32.ofInt_toInt]
  | sub =>
      cases hr
      rw [apply, Value.sub_ints ha hb h, Int32.ofInt_sub, Int32.ofInt_toInt, Int32.ofInt_toInt]
  | mul =>
      cases hr
      rw [apply, Value.mul_ints ha hb h, Int32.ofInt_mul, Int32.ofInt_toInt, Int32.ofInt_toInt]
  | div =>
      simp only [onIntegers?, toInt_eq_zero] at hr
      rw [apply, Value.div_ints ha hb h]
      split at hr
      · cases hr
      · rename_i hzero
        cases hr
        rw [if_neg hzero, ofInt_tdiv_toInt]
  | mod =>
      simp only [onIntegers?, toInt_eq_zero] at hr
      rw [apply, Value.mod_ints ha hb]
      split at hr
      · cases hr
      · rename_i hzero
        cases hr
        rw [if_neg hzero, ofInt_tmod_toInt]
  | bor | band | bxor | lor | land | eq | ne | gt | ge | lt | le => cases hr

/-- **Faults.** The only one is a division by zero, of two operands that are taken as integers. -/
theorem apply_eq_error_iff {cause : Fault.Cause} : op.apply a b = .error cause ↔
    cause = .divisionByZero ∧ (op = .div ∨ op = .mod) ∧ a.isFloat = false ∧ b.isFloat = false ∧ b.asInt = 0 ∧
      ¬(op = .div ∧ a.type = .vector ∧ b.type ≠ .vector) := by
  cases op with
  | div =>
      rw [apply, Value.div_eq_error_iff]
      simp [composite]
  | mod =>
      rw [apply, Value.mod_eq_error_iff]
      simp
  | add | sub | mul | bor | band | bxor | lor | land | eq | ne | gt | ge | lt | le => simp [apply]

/-- **Recomposition.** Where there is a quotient of integers, its product with the divisor and the remainder add
up to the dividend. -/
theorem recompose (ha : a.isFloat = false) (hb : b.isFloat = false) (h : BinaryOp.div.composite a b = false)
    (hzero : b.asInt ≠ 0) : ∃ q p r, BinaryOp.div.apply a b = .ok q ∧ BinaryOp.mul.apply q b = .ok p ∧
      BinaryOp.mod.apply a b = .ok r ∧ BinaryOp.add.apply p r = .ok (.int a.asInt) := by
  -- A vector as the divisor would be zero, so the product is one of integers as well.
  have hmul : BinaryOp.mul.composite (.int (a.asInt / b.asInt)) b = false := by
    cases b with
    | vector u => exact absurd rfl hzero
    | void | int n | float x | bool b | string s | handle k id => rfl
  refine ⟨.int (a.asInt / b.asInt), .int (a.asInt / b.asInt * b.asInt), .int (a.asInt % b.asInt), ?_, ?_, ?_, ?_⟩
  · rw [apply, Value.div_ints ha hb h, if_neg hzero]
  · rw [apply, Value.mul_ints rfl hb hmul]
    rfl
  · rw [apply, Value.mod_ints ha hb, if_neg hzero]
  · rw [apply, Value.add_ints rfl rfl rfl]
    exact congrArg (fun n => Except.ok (Value.int n)) (quot_mul_add_rem a.asInt b.asInt)

end BinaryOp

/-- **Integer arithmetic is exact.** For all operands, of whatever kinds: an operation fails only if an integer is
divided by zero, and then with that fault. Operands that are no floats, and that the operation does not take as
vectors or strings, give the exact result reduced to 32 bits; a quotient is truncated toward zero, a remainder has
the sign of the dividend, and the two make up the dividend again. -/
theorem arithmetic_exact (a b : Value) :
    (∀ op cause, BinaryOp.apply op a b = .error cause ↔
      cause = .divisionByZero ∧ (op = .div ∨ op = .mod) ∧ a.isFloat = false ∧ b.isFloat = false ∧
        b.asInt = 0 ∧ ¬(op = .div ∧ a.type = .vector ∧ b.type ≠ .vector)) ∧
    (a.isFloat = false → b.isFloat = false →
      (∀ op, BinaryOp.composite op a b = false → ∀ r, op.onIntegers? a.asInt.toInt b.asInt.toInt = some r →
        ∃ n : Int32, op.apply a b = .ok (.int n) ∧ n.toInt = r.bmod 0x100000000) ∧
      (∀ n, BinaryOp.mod.apply a b = .ok (.int n) →
        n.toInt.natAbs < b.asInt.toInt.natAbs ∧ (0 ≤ a.asInt.toInt → 0 ≤ n.toInt) ∧
          (a.asInt.toInt ≤ 0 → n.toInt ≤ 0)) ∧
      (BinaryOp.div.composite a b = false → b.asInt ≠ 0 →
        ∃ q p r, BinaryOp.div.apply a b = .ok q ∧ BinaryOp.mul.apply q b = .ok p ∧
          BinaryOp.mod.apply a b = .ok r ∧ BinaryOp.add.apply p r = .ok (.int a.asInt))) := by
  constructor
  · intro op cause
    exact BinaryOp.apply_eq_error_iff
  · intro ha hb
    refine ⟨?_, ?_, BinaryOp.recompose ha hb⟩
    · intro op hnumbers r hr
      exact ⟨.ofInt r, BinaryOp.apply_of_onIntegers? ha hb hnumbers hr, Int32.toInt_ofInt⟩
    · intro n hn
      rw [BinaryOp.apply, Value.mod_ints ha hb] at hn
      split at hn
      · cases hn
      · rename_i hzero
        cases hn
        rw [Int32.toInt_mod]
        exact tmod_bounds _ (mt toInt_eq_zero.mp hzero)

/-- The least integer by a handle with the id `-1`: the quotient is reduced to the least integer again, and still
makes up the dividend. -/
theorem arithmetic_exact_least :
    (∃ n : Int32, BinaryOp.div.apply (.int .minValue) (.handle .thing (-1)) = .ok (.int n) ∧
      n.toInt = -0x80000000) ∧
    ∃ q p r, BinaryOp.div.apply (.int .minValue) (.handle .thing (-1)) = .ok q ∧
      BinaryOp.mul.apply q (.handle .thing (-1)) = .ok p ∧
      BinaryOp.mod.apply (.int .minValue) (.handle .thing (-1)) = .ok r ∧
      BinaryOp.add.apply p r = .ok (.int .minValue) := by
  obtain ⟨-, hints⟩ := arithmetic_exact (.int .minValue) (.handle .thing (-1))
  obtain ⟨hexact, -, hrecompose⟩ := hints rfl rfl
  obtain ⟨n, hn, hvalue⟩ := hexact .div rfl 0x80000000 (by decide)
  exact ⟨⟨n, hn, hvalue.trans (by decide)⟩, hrecompose rfl (by decide)⟩

end CogMachine
